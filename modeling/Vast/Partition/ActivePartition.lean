import Vast.Foundation.AssocList
import Vast.Foundation.Run
import Vast.Partition.PassivePartition
import Vast.Queue.QueryQueue

/-! # Persisting an active partition

A partition that is to be persisted waits for the end of its input, asks its indexers
for snapshots, and writes the partition when all of them are there. The answers to the
snapshot requests count up one counter and share one promise.
-/

namespace Vast

open Foundation

/-- The answer of an indexer to the request for a snapshot. -/
inductive SnapshotReply where
  | chunk (chunk : List UInt8)
  | nullChunk
  | error (error : Error)

inductive PersistError where
  /-- partition has no indexers -/
  | noIndexers
  /-- failed to persist indexer … -/
  | failedToPersist (sender : Nat)
  /-- no chunk for actor id … -/
  | noChunk (actor : Nat)
  /-- unable to create combined schema -/
  | noCombinedSchema
  /-- An error of an indexer, of packing or of the filesystem. -/
  | failed (error : Error)

/-- The indexers of a partition by field; some fields have none. The packed partition
depends on the chunks of the indexers and the combined schema. The synopsis is the one that
has been shrunk. -/
structure ActivePartitionState (σ : Type) where
  indexers : List (QualifiedRecordField × Option Nat)
  packFull : List (String × Option (List UInt8)) → VastType → Except Error (List UInt8)
  synopsis : σ
  distinct : (indexers.filterMap Prod.snd).Nodup

namespace ActivePartitionState

variable {σ : Type} (partition : ActivePartitionState σ)

def validIndexers : List Nat :=
  partition.indexers.filterMap Prod.snd

def combinedSchema : Option VastType :=
  if partition.indexers.isEmpty then none
  else some (.record (partition.indexers.map fun entry => (entry.1.name, entry.1.type)))

end ActivePartitionState

/-- The state of the partition, together with what is outstanding: the message to resume,
the snapshot requests, and the write of the partition. The calls that serialize the
partition, the answers of the indexers and the deliveries of the promise are recorded. -/
structure Persisting (σ : Type) where
  partition : ActivePartitionState σ
  streamingInitiated : Bool := false
  inboundPaths : Nat := 0
  persistedIndexers : Nat := 0
  chunks : List (Nat × List UInt8) := []
  resuming : Bool := false
  awaiting : List Nat := []
  writing : Bool := false
  serialized : Nat := 0
  replied : List (Nat × SnapshotReply) := []
  delivered : List (Except PersistError σ) := []

namespace Persisting

variable {σ : Type}

variable (state : Persisting σ)

def pending : Bool :=
  state.delivered.isEmpty

/-- Fulfil the promise, unless it is fulfilled. -/
def deliver (reply : Except PersistError σ) : Persisting σ :=
  if state.pending then { state with delivered := state.delivered ++ [reply] } else state

/-- The chunks of the indexers by field, or the first indexer without one. -/
def indexerChunks (chunks : List (Nat × List UInt8)) :
    List (QualifiedRecordField × Option Nat) → Except Nat (List (String × Option (List UInt8)))
  | [] => .ok []
  | (field, none) :: rest =>
    (indexerChunks chunks rest).map fun others => (field.name, none) :: others
  | (field, some actor) :: rest =>
    match chunks.lookup actor with
    | none => .error actor
    | some chunk =>
      (indexerChunks chunks rest).map fun others => (field.name, some chunk) :: others

/-- Write the partition, or fulfil the promise with an error. -/
def serialize : Persisting σ :=
  let state := { state with serialized := state.serialized + 1 }
  match indexerChunks state.chunks state.partition.indexers with
  | .error actor => state.deliver (.error (.noChunk actor))
  | .ok chunks =>
    match state.partition.combinedSchema with
    | none => state.deliver (.error .noCombinedSchema)
    | some schema =>
      match state.partition.packFull chunks schema with
      | .error error => state.deliver (.error (.failed error))
      | .ok _ => { state with writing := true }

def requestSnapshots : Persisting σ :=
  if state.partition.indexers.isEmpty then state.deliver (.error .noIndexers)
  else if state.partition.validIndexers.length = 0 then state.serialize
  else { state with awaiting := state.partition.validIndexers }

/-- Go on when the input has ended, and try again later otherwise. -/
def resume : Persisting σ :=
  if state.streamingInitiated && state.inboundPaths == 0 then
    requestSnapshots { state with resuming := false }
  else state

def handleSnapshot (sender : Nat) : SnapshotReply → Persisting σ
  | .chunk chunk =>
    let state := { state with persistedIndexers := state.persistedIndexers + 1 }
    if !state.pending then state
    else
      let state := { state with chunks := AssocList.emplace sender chunk state.chunks }
      if state.persistedIndexers < state.partition.validIndexers.length then state
      else state.serialize
  | .nullChunk =>
    let state := { state with persistedIndexers := state.persistedIndexers + 1 }
    if !state.pending then state else state.deliver (.error (.failedToPersist sender))
  | .error error =>
    let state := { state with persistedIndexers := state.persistedIndexers + 1 }
    if !state.pending then state.deliver (.error (.failed error)) else state

def handleWritten : Option Error → Persisting σ
  | none => state.deliver (.ok state.partition.synopsis)
  | some error => state.deliver (.error (.failed error))

/-! ## Runs -/

def persist : Persisting σ :=
  { state with persistedIndexers := 0, resuming := true }

/-- What the partition handles: a stream begins or ends, the message to resume, the
answer of an indexer, and the answer of the filesystem. -/
inductive Event where
  | stream
  | streamEnd
  | resume
  | snapshot (sender : Nat) (reply : SnapshotReply)
  | written (error : Option Error)

def step : Event → Persisting σ
  | .stream =>
    { state with streamingInitiated := true, inboundPaths := state.inboundPaths + 1 }
  | .streamEnd => { state with inboundPaths := state.inboundPaths - 1 }
  | .resume => state.resume
  | .snapshot sender reply =>
    handleSnapshot
      { state with
        awaiting := state.awaiting.erase sender
        replied := state.replied ++ [(sender, reply)] } sender reply
  | .written error => handleWritten { state with writing := false } error

/-- Answers come in any order, to requests that are outstanding. -/
def Enabled : Event → Prop
  | .stream => True
  | .streamEnd => 0 < state.inboundPaths
  | .resume => state.resuming = true
  | .snapshot sender _ => sender ∈ state.awaiting
  | .written _ => state.writing = true

instance (state : Persisting σ) : ∀ event, Decidable (state.Enabled event)
  | .stream => isTrue trivial
  | .streamEnd => inferInstanceAs (Decidable (_ < _))
  | .resume => inferInstanceAs (Decidable (_ = _))
  | .snapshot _ _ => inferInstanceAs (Decidable (_ ∈ _))
  | .written _ => inferInstanceAs (Decidable (_ = _))

/-- A partition that is asked to persist itself. -/
def start (partition : ActivePartitionState σ) (streamingInitiated : Bool) (inboundPaths : Nat) :
    Persisting σ :=
  persist
    { partition := partition
      streamingInitiated := streamingInitiated
      inboundPaths := inboundPaths }

end Persisting

end Vast
