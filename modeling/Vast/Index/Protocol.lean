import Vast.Foundation.Run
import Vast.Index.Evaluate

/-! # Ingestion and queries at the index

A slice goes to the active partition of its schema. A partition that is full or
too old is decommissioned: it writes itself to disk, the catalog takes over its
synopsis, and only then does the index count it as persisted. A query captures
the partitions that are active or unpersisted when the request arrives, and is
inserted into the queue when the answer of the catalog is there. The messages
between these actors are delivered in any order.
-/

namespace Vast

open Foundation

namespace IndexEvaluate

variable {query : QueryContext} {result : CatalogLookupResult}

theorem isSome_lookup_queryContexts (query : QueryContext)
    (activePartitions : List (VastType × Uuid)) {entry : VastType × CandidateInfo}
    (hentry : entry ∈ result.candidateInfos) :
    ((queryContexts query activePartitions result).lookup entry.1).isSome = true := by
  obtain ⟨_, -, hlookup⟩ := exists_lookup_queryContexts query activePartitions hentry
  rw [hlookup]
  rfl

theorem queryContexts_ne_nil (query : QueryContext) (activePartitions : List (VastType × Uuid))
    (hempty : ¬ result.empty = true) :
    queryContexts query activePartitions result ≠ [] := by
  intro hnil
  cases hinfos : result.candidateInfos with
  | nil => exact hempty (by rw [CatalogLookupResult.empty, hinfos, List.isEmpty_nil])
  | cons entry rest =>
    have hentry : entry ∈ result.candidateInfos := by simp [hinfos]
    have hsome := isSome_lookup_queryContexts query activePartitions hentry
    rw [hnil] at hsome
    simp at hsome

end IndexEvaluate

/-- A partition that takes slices. The capacity is what is left of it. -/
structure ActivePartition where
  id : Uuid
  capacity : Nat
  slices : List TableSlice

/-- A query that waits for the catalog, with the partitions that the index had
when the request arrived. -/
structure PendingQuery where
  query : QueryContext
  client : Actor
  taste : Option UInt32
  activePartitions : List (VastType × Uuid)
  unpersisted : List (Uuid × VastType)

namespace IndexProtocol

/-- A message in flight: requests to a partition and to the catalog, and the
replies to the index. A reply without a value is an error. -/
inductive Message where
  | persist (id : Uuid) (slices : List TableSlice)
  | persistReply (id : Uuid) (synopsis : Option PartitionSynopsis)
  | merge (id : Uuid) (synopsis : PartitionSynopsis)
  | mergeReply (id : Uuid) (ok : Bool)
  | candidates (pending : PendingQuery)
  | candidatesReply (pending : PendingQuery) (returned : Option CatalogLookupResult)

/-- A call that inserts a query into the queue, with what led to it. -/
structure Insertion where
  pending : PendingQuery
  returned : CatalogLookupResult
  state : QueryState
  candidates : CatalogLookupResult

/-- The index, the catalog and the messages in flight. The identifiers issued so
far are recorded with the schema of their partition. -/
structure System where
  activePartitions : List (VastType × ActivePartition)
  unpersisted : List (Uuid × VastType)
  persistedPartitions : List Uuid
  catalog : CatalogState
  messages : List Message
  insertions : List Insertion
  issued : List (Uuid × VastType)

/-- What happens to the system. A message is delivered by its position, and the
request it carries may fail at the receiver. -/
inductive Event where
  | ingest (slice : TableSlice) (id : Uuid)
  | decommission (schema : VastType)
  | evaluate (query : QueryContext) (qid : Uuid) (client : Actor) (taste : Option UInt32)
  | deliver (position : Nat) (ok : Bool)

structure Options where
  indexConfig : IndexConfig
  partitionVersion : UInt64
  partitionCapacity : Nat
  tastePartitions : UInt32
  resolveSteps : Nat

/-! ## Partitions -/

namespace System

/-- The system after the index has read its directory: all partitions found there
are known to the catalog. -/
def start (taxonomies : Taxonomies) (stored : FlatMap Uuid PartitionSynopsis) : System where
  activePartitions := []
  unpersisted := []
  persistedPartitions := stored.entries.map Prod.fst
  catalog := (CatalogState.initial taxonomies).createFrom stored.entries
  messages := []
  insertions := []
  issued := stored.entries.map fun entry => (entry.1, entry.2.schema)

def send (system : System) (message : Message) : System :=
  { system with messages := system.messages ++ [message] }

def activeIds (system : System) : List Uuid :=
  system.activePartitions.map fun entry => entry.2.id

variable (options : Options)

def createActivePartition (schema : VastType) (id : Uuid) (system : System) : System :=
  { system with
    activePartitions := system.activePartitions ++ [(schema, ⟨id, options.partitionCapacity, []⟩)]
    issued := system.issued ++ [(id, schema)] }

/-- Move an active partition to the unpersisted ones and ask it to persist. -/
def decommissionActivePartition (schema : VastType) (system : System) : System :=
  match system.activePartitions.lookup schema with
  -- The program asserts that there is one.
  | none => system
  | some partition =>
    { system with
      activePartitions := system.activePartitions.filter fun entry => entry.1 ≠ schema
      unpersisted := system.unpersisted ++ [(partition.id, schema)]
      messages := system.messages ++ [.persist partition.id partition.slices] }

/-- The slice gets its offset in the partition. A slice that exceeds the capacity
of a new partition fills it. -/
def pushSlice (slice : TableSlice) (partition : ActivePartition) : ActivePartition :=
  { partition with
    slices := partition.slices ++
      [{ slice with offset := some (options.partitionCapacity - partition.capacity) }]
    capacity :=
      if partition.capacity = options.partitionCapacity ∧ partition.capacity < slice.rows.length
      then 0 else partition.capacity - slice.rows.length }

def push (slice : TableSlice) (system : System) : System :=
  { system with
    activePartitions :=
      AssocList.adjust slice.schema (pushSlice options slice) system.activePartitions }

/-- A slice arrives. The identifier is for the partition that may be needed. -/
def ingest (slice : TableSlice) (id : Uuid) (system : System) : System :=
  match system.activePartitions.lookup slice.schema with
  | none => (system.createActivePartition options slice.schema id).push options slice
  | some partition =>
    if partition.capacity < slice.rows.length then
      ((system.decommissionActivePartition slice.schema).createActivePartition options
        slice.schema id).push options slice
    else system.push options slice

/-! ## Queries -/

/-- What the index captures of itself for a query. -/
def capture (system : System) (query : QueryContext) (qid : Uuid) (client : Actor)
    (taste : Option UInt32) : PendingQuery where
  query := { query with id := qid }
  client := client
  taste := taste
  activePartitions := system.activePartitions.map fun entry => (entry.1, entry.2.id)
  unpersisted := system.unpersisted

/-- A query arrives. It must not have an identifier yet. -/
def evaluate (query : QueryContext) (qid : Uuid) (client : Actor) (taste : Option UInt32)
    (system : System) : System :=
  if query.id ≠ 0 then system
  else system.send (.candidates (system.capture query qid client taste))

/-- The catalog has answered. Without any schema nothing is inserted, and a number
of candidates that does not fit makes the index fail. -/
def insertQuery (pending : PendingQuery) (returned : CatalogLookupResult)
    (system : System) : System :=
  let result := IndexEvaluate.addCandidates pending.query options.partitionVersion
    pending.activePartitions pending.unpersisted returned
  if hempty : result.empty = true then system
  else if result.size < UInt32.size then
    { system with
      insertions := system.insertions ++ [{
        pending := pending
        returned := returned
        state := {
          queryContextsPerType := {
            entries := IndexEvaluate.queryContexts pending.query pending.activePartitions result
            nonempty := IndexEvaluate.queryContexts_ne_nil _ _ hempty }
          client := pending.client
          candidatePartitions := UInt32.ofNat result.size
          requestedPartitions :=
            min (UInt32.ofNat result.size) (pending.taste.getD options.tastePartitions) }
        candidates := result }] }
  else system

/-! ## Messages -/

section Handle

variable [BloomFilters] [Regex]

/-- The catalog answers a query, unless it has no expression. -/
def lookupCandidates (options : Options) (system : System) (pending : PendingQuery) :
    Option CatalogLookupResult :=
  if pending.query.expr = .none then none
  else (system.catalog.lookup options.resolveSteps pending.query.expr).toOption

def handle (options : Options) (ok : Bool) (system : System) : Message → System
  -- A partition writes itself to disk.
  | .persist id slices =>
    system.send (.persistReply id (if ok then
      some (PartitionSynopsis.persisted options.indexConfig options.partitionVersion slices)
      else none))
  | .persistReply id (some synopsis) => system.send (.merge id synopsis)
  | .persistReply id none =>
    { system with unpersisted := system.unpersisted.filter fun entry => entry.1 ≠ id }
  -- The catalog takes over a synopsis.
  | .merge id synopsis =>
    if ok then
      { system with catalog := system.catalog.merge id synopsis }.send (.mergeReply id true)
    else system.send (.mergeReply id false)
  | .mergeReply id stored =>
    { system with
      unpersisted := system.unpersisted.filter fun entry => entry.1 ≠ id
      persistedPartitions :=
        if stored then system.persistedPartitions.insert id else system.persistedPartitions }
  -- The catalog looks for candidates.
  | .candidates pending =>
    system.send (.candidatesReply pending
      (if ok then system.lookupCandidates options pending else none))
  | .candidatesReply pending (some returned) => system.insertQuery options pending returned
  | .candidatesReply _ none => system

def deliver (options : Options) (position : Nat) (ok : Bool) (system : System) : System :=
  match system.messages[position]? with
  | none => system
  | some message =>
    { system with messages := system.messages.eraseIdx position }.handle options ok message

def step (options : Options) (system : System) : Event → System
  | .ingest slice id => system.ingest options slice id
  | .decommission schema => system.decommissionActivePartition schema
  | .evaluate query qid client taste => system.evaluate query qid client taste
  | .deliver position ok => system.deliver options position ok

end Handle

def Fresh (system : System) : Event → Prop
  | .ingest _ id => id ∉ system.issued.map Prod.fst
  | _ => True

instance Fresh.decidable (system : System) : DecidablePred system.Fresh
  | .ingest _ id => inferInstanceAs (Decidable (id ∉ system.issued.map Prod.fst))
  | .decommission _ | .evaluate .. | .deliver .. => isTrue trivial

end System

end IndexProtocol

end Vast
