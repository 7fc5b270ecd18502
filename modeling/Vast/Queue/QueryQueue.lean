import Mathlib.Data.List.Sort
import Mathlib.Data.UInt
import Vast.Catalog.LookupResult

/-! # The query queue

The queue maps partitions to the queries that still have to visit them. An
entry is active when one of its queries may be scheduled and is parked in a
second list otherwise. Every query counts its candidate, requested, scheduled,
and completed partitions.
-/

namespace Vast

inductive Ec where
  | unspecified
  deriving DecidableEq, Repr

structure Error where
  code : Ec
  message : String
  deriving DecidableEq, Repr

structure Actor where
  id : Nat
  deriving DecidableEq, Repr

/-- The part of a query context that the queue and the index look at. -/
structure QueryContext where
  id : Uuid
  expr : Expression
  priority : UInt8
  deriving DecidableEq

/-- The contexts of a query by schema, in traversal order. Queries enter the
queue with at least one schema. -/
structure TypeQueryContextMap where
  entries : List (VastType × QueryContext)
  nonempty : entries ≠ []
  deriving DecidableEq

namespace TypeQueryContextMap

/-- The context at the beginning of the map; all contexts of a query share
its identifier and priority. -/
def begin (contexts : TypeQueryContextMap) : QueryContext :=
  (contexts.entries.head contexts.nonempty).2

def find (contexts : TypeQueryContextMap) (schema : VastType) : Option QueryContext :=
  (contexts.entries.find? fun entry => entry.1 = schema).map Prod.snd

end TypeQueryContextMap

structure QueryState where
  queryContextsPerType : TypeQueryContextMap
  client : Actor
  candidatePartitions : UInt32
  requestedPartitions : UInt32
  scheduledPartitions : UInt32 := 0
  completedPartitions : UInt32 := 0
  deriving DecidableEq

def QueryState.priority (state : QueryState) : UInt64 :=
  state.queryContextsPerType.begin.priority.toUInt64

namespace QueryQueue

structure Entry where
  partition : Uuid
  schema : VastType
  priority : UInt64
  queries : List Uuid
  erased : Bool
  deriving DecidableEq

def Entry.addQuery (entry : Entry) (qid : Uuid) (priority : UInt64) : Entry :=
  { entry with priority := entry.priority + priority, queries := entry.queries ++ [qid] }

/-- A sorting routine by ascending priority that may order ties in any way. -/
structure PrioritySort where
  sort : List Entry → List Entry
  perm : ∀ entries, (sort entries).Perm entries
  sorted : ∀ entries, (sort entries).Pairwise fun left right => left.priority ≤ right.priority

def PrioritySort.insertion : PrioritySort :=
  let order := fun left right : Entry => left.priority ≤ right.priority
  have : Std.Total order := ⟨fun left right => UInt64.le_total left.priority right.priority⟩
  have : IsTrans Entry order := ⟨fun _ _ _ => UInt64.le_trans⟩
  { sort := List.insertionSort order
    perm := List.perm_insertionSort order
    sorted := List.pairwise_insertionSort order }

end QueryQueue

structure QueryQueue where
  queries : Uuid → Option QueryState := fun _ => none
  partitions : List QueryQueue.Entry := []
  inactivePartitions : List QueryQueue.Entry := []

namespace QueryQueue

/-- A partition id is searched for in the active list first. An entry found in
the inactive list moves to the active list together with all its queries. -/
def insertCandidate (qid : Uuid) (priority : UInt64)
    (lists : List Entry × List Entry) (candidate : VastType × PartitionInfo) :
    List Entry × List Entry :=
  let isPartition := fun entry : Entry => decide (entry.partition = candidate.2.uuid)
  if lists.1.any isPartition then
    (lists.1.modify (lists.1.findIdx isPartition) (·.addQuery qid priority), lists.2)
  else
    match lists.2.find? isPartition with
    | some entry => (lists.1 ++ [entry.addQuery qid priority], lists.2.eraseP isPartition)
    | none =>
      (lists.1 ++ [{
        partition := candidate.2.uuid
        schema := candidate.1
        priority := priority
        queries := [qid]
        erased := false }], lists.2)

def insert (std : PrioritySort) (queue : QueryQueue) (state : QueryState)
    (candidates : CatalogLookupResult) : Option Error × QueryQueue :=
  if candidates.empty then
    (some ⟨.unspecified, "can't add a query with 0 candidates"⟩, queue)
  else if state.candidatePartitions.toNat ≠ candidates.size then
    (some ⟨.unspecified, "the candidate set size must match the query state"⟩, queue)
  else
    let qid := state.queryContextsPerType.begin.id
    match queue.queries qid with
    | some _ => (some ⟨.unspecified, "A query with this ID exists already"⟩, queue)
    | none =>
      let lists := candidates.candidates.foldl (insertCandidate qid state.priority)
        (queue.partitions, queue.inactivePartitions)
      (none, {
        queries := Function.update queue.queries qid (some state)
        partitions := std.sort lists.1
        inactivePartitions := lists.2 })

/-- Raise the number of requested partitions and splice the inactive entries
of the query back into the active list. -/
def activate (std : PrioritySort) (queue : QueryQueue) (qid : Uuid)
    (numPartitions : UInt32) : Option Error × QueryQueue :=
  match queue.queries qid with
  | none => (some ⟨.unspecified, "cannot activate unknown query"⟩, queue)
  | some state =>
    let split := queue.inactivePartitions.partition fun entry => qid ∈ entry.queries
    (none, {
      queries := Function.update queue.queries qid (some { state with
        requestedPartitions := state.requestedPartitions + numPartitions })
      partitions := std.sort (queue.partitions ++ split.1)
      inactivePartitions := split.2 })

/-- Drop the query from an entry, and the entry if no query is left. The
priority of the entry stays as it is. -/
def Entry.removeQuery (qid : Uuid) (entry : Entry) : Option Entry :=
  if qid ∈ entry.queries then
    let queries := entry.queries.erase qid
    if queries.isEmpty then none else some { entry with queries := queries }
  else
    some entry

def removeQuery (queue : QueryQueue) (qid : Uuid) : Option Error × QueryQueue :=
  match queue.queries qid with
  | none => (some ⟨.unspecified, "cannot remove unknown query"⟩, queue)
  | some _ =>
    (none, {
      queries := Function.update queue.queries qid none
      partitions := queue.partitions.filterMap (Entry.removeQuery qid)
      inactivePartitions := queue.inactivePartitions.filterMap (Entry.removeQuery qid) })

/-- Mark a queued partition as erased; the entry stays in the queue. -/
def markPartitionErased (queue : QueryQueue) (pid : Uuid) : Bool × QueryQueue :=
  let isPartition := fun entry : Entry => decide (entry.partition = pid)
  let erase := fun entry : Entry => { entry with erased := true }
  if queue.partitions.any isPartition then
    (true, { queue with
      partitions := queue.partitions.modify (queue.partitions.findIdx isPartition) erase })
  else if queue.inactivePartitions.any isPartition then
    (true, { queue with
      inactivePartitions := queue.inactivePartitions.modify
        (queue.inactivePartitions.findIdx isPartition) erase })
  else
    (false, queue)

variable (queries : Uuid → Option QueryState)

/-- A query is runnable when the client requested more partitions than were
scheduled. Unknown queries are not. -/
def runnable (qid : Uuid) : Bool :=
  match queries qid with
  | none => false
  | some state => decide (state.requestedPartitions > state.scheduledPartitions)

def queryPriority (qid : Uuid) : UInt64 :=
  match queries qid with
  | none => 0
  | some state => state.priority

/-- The part of an entry that is handed out. -/
def Entry.active (entry : Entry) : Entry :=
  { entry with priority := 0, queries := entry.queries.filter (runnable queries) }

/-- The part of an entry that is parked, with its priority computed afresh.
Unknown queries are dropped from it, but only after the test whether there is
anything to park. -/
def Entry.inactive (entry : Entry) : Option Entry :=
  let parked := entry.queries.filter fun qid => !runnable queries qid
  if parked.isEmpty then
    none
  else
    let known := parked.filter fun qid => (queries qid).isSome
    some { entry with priority := (known.map (queryPriority queries)).sum, queries := known }

/-- The loop of `next` over the active entries, last one first. -/
def nextLoop (queries : Uuid → Option QueryState) :
    List Entry → List Entry → Option Entry × List Entry × List Entry
  | [], inactive => (none, [], inactive)
  | entry :: rest, inactive =>
    let inactive := inactive ++ (entry.inactive queries).toList
    if (entry.active queries).queries.isEmpty then
      nextLoop queries rest inactive
    else
      (some (entry.active queries), rest, inactive)

def schedule (qid : Uuid) : Uuid → Option QueryState :=
  match queries qid with
  | none => queries
  | some state => Function.update queries qid (some { state with
      scheduledPartitions := state.scheduledPartitions + 1 })

/-- Retrieve the next partition and the queries to run on it. -/
def next (queue : QueryQueue) : Option Entry × QueryQueue :=
  match nextLoop queue.queries queue.partitions.reverse queue.inactivePartitions with
  | (none, rest, inactive) =>
    (none, { queue with partitions := rest.reverse, inactivePartitions := inactive })
  | (some active, rest, inactive) =>
    (some active, {
      queries := active.queries.foldl schedule queue.queries
      partitions := rest.reverse
      inactivePartitions := inactive })

/-- Count a partition as completed. The client is returned when the requested
batch is complete, and the query is removed when all candidates are. -/
def handleCompletion (queue : QueryQueue) (qid : Uuid) : Option Actor × QueryQueue :=
  match queue.queries qid with
  | none => (none, queue)
  | some state =>
    let state := { state with completedPartitions := state.completedPartitions + 1 }
    let result :=
      if state.completedPartitions = state.requestedPartitions then some state.client else none
    if state.completedPartitions = state.candidatePartitions then
      (result, { queue with queries := Function.update queue.queries qid none })
    else
      (result, { queue with queries := Function.update queue.queries qid (some state) })

def hasWork (queue : QueryQueue) : Bool :=
  !queue.partitions.isEmpty

end QueryQueue

end Vast
