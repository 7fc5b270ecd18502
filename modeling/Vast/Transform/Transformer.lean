import Vast.Catalog.Summary
import Vast.Foundation.Run
import Vast.Queue.QueryQueue
import Vast.Transform.FanoutCounter

/-! # The partition transformer

The transformer applies a pipeline to the slices it gets and writes what comes
out as new partitions. It joins two pairs of events that arrive in any order:
the end of the input with the request to persist, and the end of its own writes
with the end of the store builders it has launched.
-/

namespace Vast

open Foundation

/-- A pipeline with its internal state. Adding a slice may fail. Slices without
rows are not part of the result. -/
structure Pipeline (π : Type) where
  add : π → TableSlice → Option Error × π
  finish : π → Except Error (List TableSlice)
  rows_ne_nil : ∀ {state : π} {slices : List TableSlice}, finish state = .ok slices →
    ∀ slice ∈ slices, slice.rows ≠ []

structure TransformedPartition where
  id : Uuid
  events : Nat := 0
  slices : List TableSlice := []

structure PartitionSynopsisPair where
  uuid : Uuid
  synopsis : Option PartitionSynopsis

abbrev Chunk := List UInt8

/-- What the transformer is given, and the outcomes of the calls it makes. Types
are ordered, and random identifiers are drawn one after another. -/
structure TransformerOptions (π : Type) where
  pipeline : Pipeline π
  partitionCapacity : Nat
  partitionVersion : UInt64
  synopsisOpts : IndexConfig
  storeId : String
  precedes : VastType → VastType → Bool
  random : Nat → Uuid
  findStorePlugin : String → Bool
  makeStoreBuilder : Uuid → Bool
  packFull : VastType → TransformedPartition → Except Error Chunk
  packSynopsis : PartitionSynopsis → Except Error (Option Chunk)

/-- The errors that the promise is fulfilled with: errors of others that are passed
on, and those of the transformer itself. -/
inductive TransformerError where
  | failed (error : Error)
  /-- could not find a store plugin named … -/
  | noStorePlugin (storeId : String)
  /-- could not create store builder for backend … -/
  | noStoreBuilder (storeId : String)

structure StreamData where
  partitionChunks : Except Error (List (Uuid × VastType × Chunk))
  synopsisChunks : Except Error (List (Uuid × Option Chunk))

def StreamData.empty : StreamData :=
  ⟨.ok [], .ok []⟩

/-- Either the end of the input or the request to persist comes first and is
stored until the other one is there. -/
inductive PersistState where
  | monostate
  | streamData (data : StreamData)
  | pathData

/-- Either the stores or the transformer are finished first. -/
inductive ShutdownState where
  | monostate
  | storesAreFinished
  | transformerIsFinished (result : List PartitionSynopsisPair)

abbrev TransformerReply := Except TransformerError (List PartitionSynopsisPair)

/-- The state of the transformer, together with what is outstanding: the message
that it delegates to itself, its write requests with what their continuations
capture, and the store builders that it monitors. Answers to the writes of
partitions, the ends of store builders and the deliveries of the promise are
recorded. -/
structure PartitionTransformer (π : Type) where
  transform : π
  streamError : Option TransformerError := none
  transformError : Option Error := none
  events : Nat := 0
  data : List (VastType × TransformedPartition) := []
  persist : PersistState := .monostate
  shutdownState : ShutdownState := .monostate
  storesLaunched : Nat := 0
  storesFinished : Nat := 0
  counter : FanoutCounter (List PartitionSynopsisPair) Error := .make 0 []
  running : Bool := true
  doneReceived : Bool := false
  persistReceived : Bool := false
  resuming : Bool := false
  synopsisWrites : List Uuid := []
  partitionWrites : List PartitionSynopsisPair := []
  stores : List Uuid := []
  launched : List Uuid := []
  written : List (Uuid × Option Error) := []
  downs : List (Uuid × Option Error) := []
  replies : List TransformerReply := []

namespace PartitionTransformer

variable {π : Type}

/-! ## Joins -/

variable (state : PartitionTransformer π)

/-- The promise is fulfilled, and the actor quits. -/
def deliver (reply : TransformerReply) : PartitionTransformer π :=
  { state with replies := state.replies ++ [reply], running := false }

def finishTransformer (result : List PartitionSynopsisPair) : PartitionTransformer π :=
  match state.shutdownState with
  | .monostate => { state with shutdownState := .transformerIsFinished result }
  | .storesAreFinished => state.deliver (.ok result)
  -- The program asserts that this does not happen.
  | .transformerIsFinished _ => state

def finishStores : PartitionTransformer π :=
  match state.shutdownState with
  | .monostate => { state with shutdownState := .storesAreFinished }
  | .transformerIsFinished result => state.deliver (.ok result)
  -- The program asserts that this does not happen.
  | .storesAreFinished => state

section Handlers

variable [BloomFilters] (options : TransformerOptions π)

def synopsis (partition : TransformedPartition) : PartitionSynopsis :=
  PartitionSynopsis.persisted options.synopsisOpts options.partitionVersion partition.slices

variable (data : List (VastType × TransformedPartition))

/-- The synopsis of the partition with the schema and identifier of a chunk. -/
def pairOf (chunk : Uuid × VastType × Chunk) : PartitionSynopsisPair where
  uuid := chunk.1
  synopsis := (data.find? fun entry => entry.1 = chunk.2.1 ∧ entry.2.id = chunk.1).map
    fun entry => synopsis options entry.2

variable (state : PartitionTransformer π)

def writePartitions (chunks : List (Uuid × VastType × Chunk))
    (synopses : List (Uuid × Option Chunk)) : PartitionTransformer π :=
  { state with
    synopsisWrites := (synopses.filter fun chunk => chunk.2.isSome).map Prod.fst
    counter := .make chunks.length []
    partitionWrites := chunks.map (pairOf options state.data) }

/-- Both the end of the input and the request to persist are there. -/
def fulfill (streamData : StreamData) : PartitionTransformer π :=
  match state.streamError, state.transformError with
  | some error, _ => state.deliver (.error error)
  | none, some error => state.deliver (.error (.failed error))
  | none, none =>
    if state.events = 0 then state.deliver (.ok [])
    else
      match streamData.partitionChunks, streamData.synopsisChunks with
      | .error error, _ => state.deliver (.error (.failed error))
      | .ok _, .error error => state.deliver (.error (.failed error))
      | .ok chunks, .ok synopses => state.writePartitions options chunks synopses

def storeOrFulfill (streamData : StreamData) : PartitionTransformer π :=
  match state.persist with
  | .monostate => { state with persist := .streamData streamData }
  | .pathData => state.fulfill options streamData
  -- The program asserts that this does not happen.
  | .streamData _ => state

/-! ## Partitions -/

/-- Insert a partition behind those whose schema does not come after its own. -/
def insertPartition (schema : VastType) (partition : TransformedPartition) :
    List (VastType × TransformedPartition) → List (VastType × TransformedPartition)
  | [] => [(schema, partition)]
  | entry :: rest =>
    if options.precedes schema entry.1 then (schema, partition) :: entry :: rest
    else entry :: insertPartition schema partition rest

def appendSlice (slice : TableSlice) :
    List (VastType × TransformedPartition) → List (VastType × TransformedPartition)
  | [] => []
  | entry :: rest =>
    if entry.1 = slice.schema ∧ ∀ other ∈ rest, other.1 ≠ slice.schema then
      (entry.1, { entry.2 with
        events := entry.2.events + slice.rows.length
        slices := entry.2.slices ++ [slice] }) :: rest
    else entry :: appendSlice slice rest

/-- Whether a slice needs another partition: there is none for its schema, or it
does not fit into the last one. -/
def needsPartition (slice : TableSlice) : Bool :=
  match (data.filter fun entry => entry.1 = slice.schema).getLast? with
  | none => true
  | some entry => options.partitionCapacity < entry.2.events + slice.rows.length

def createOrGetPartition (slice : TableSlice) : PartitionTransformer π :=
  if needsPartition options state.data slice then
    { state with
      data := insertPartition options slice.schema ⟨options.random state.data.length, 0, []⟩
        state.data }
  else state

/-- Put a transformed slice into a partition. -/
def addTransformed (slice : TableSlice) : PartitionTransformer π :=
  let state := state.createOrGetPartition options slice
  { state with
    data := appendSlice slice state.data
    events := state.events + slice.rows.length }

/-- Launch a store builder for every partition with events, and continue when all
of them are there. -/
def launchStores (state : PartitionTransformer π) :
    List (VastType × TransformedPartition) → PartitionTransformer π
  | [] => { state with resuming := true }
  | (_, partition) :: rest =>
    if partition.events = 0 then launchStores state rest
    else if options.makeStoreBuilder partition.id then
      launchStores { state with
        storesLaunched := state.storesLaunched + 1
        stores := state.stores ++ [partition.id]
        launched := state.launched ++ [partition.id] } rest
    else
      { state with streamError := some (.noStoreBuilder options.storeId) }.storeOrFulfill options
        .empty

/-- The slices of a partition get consecutive offsets. -/
def assignOffsets (offset : Nat) : List TableSlice → List TableSlice
  | [] => []
  | slice :: rest =>
    { slice with offset := some offset } :: assignOffsets (offset + slice.rows.length) rest

def packPartitions : Except Error (List (Uuid × VastType × Chunk)) :=
  data.mapM fun entry =>
    (options.packFull entry.1 entry.2).map fun chunk => (entry.2.id, entry.1, chunk)

def packSynopses : Except Error (List (Uuid × Option Chunk)) :=
  data.mapM fun entry =>
    (options.packSynopsis (synopsis options entry.2)).map fun chunk => (entry.2.id, chunk)

def pack : StreamData :=
  match packPartitions options data with
  | .error error => ⟨.error error, .ok []⟩
  | .ok chunks => ⟨.ok chunks, packSynopses options data⟩

/-! ## Messages -/

/-- What the transformer receives. A write request and a store builder are given by
their position among the outstanding ones; an answer without an error is a
success, and a store builder without one goes down normally. -/
inductive Message where
  | slice (slice : TableSlice)
  | done
  | resume
  | persist
  | wroteSynopsis (position : Nat) (error : Option Error)
  | wrotePartition (position : Nat) (error : Option Error)
  | down (position : Nat) (reason : Option Error)

/-- The input has ended. If the pipeline fails, the error is stored, and nothing
else happens. -/
def handleDone : PartitionTransformer π :=
  match options.pipeline.finish state.transform with
  | .error error => { state with transformError := some error }
  | .ok transformed =>
    let state := transformed.foldl (addTransformed options) state
    if state.events = 0 then state.storeOrFulfill options .empty
    else if options.findStorePlugin options.storeId then state.launchStores options state.data
    else
      { state with streamError := some (.noStorePlugin options.storeId) }.storeOrFulfill options
        .empty

/-- The slices are pushed to the stores, and everything is packed. -/
def handleResume : PartitionTransformer π :=
  let data := state.data.map fun entry =>
    (entry.1, { entry.2 with slices := assignOffsets 0 entry.2.slices })
  { state with data := data }.storeOrFulfill options (pack options data)

def handlePersist : PartitionTransformer π :=
  match state.persist with
  | .monostate => { state with persist := .pathData }
  | .streamData data => state.fulfill options data
  -- The program asserts that this does not happen.
  | .pathData => state

def countAnswer (counter : FanoutCounter (List PartitionSynopsisPair) Error)
    (pair : PartitionSynopsisPair) :
    Option Error → FanoutCounter (List PartitionSynopsisPair) Error
  | none => (counter.mapState (· ++ [pair])).countSuccess
  | some error => counter.countError error

def settleCounter : PartitionTransformer π :=
  match state.counter.trigger with
  | none => state
  | some (.ok result) => state.finishTransformer result
  | some (.error error) => state.deliver (.error (.failed error))

def handleWritten (pair : PartitionSynopsisPair) (error : Option Error) : PartitionTransformer π :=
  { state with counter := countAnswer state.counter pair error }.settleCounter

/-- A store builder is down. The reason does not matter. -/
def handleDown : PartitionTransformer π :=
  let state := { state with storesFinished := state.storesFinished + 1 }
  if state.storesLaunched ≤ state.storesFinished then state.finishStores else state

/-- What a message does. An actor that has quit does not handle messages any more. -/
def step : Message → PartitionTransformer π
  | .slice slice =>
    if state.running then
      { state with transform := (options.pipeline.add state.transform slice).2 }
    else state
  | .done =>
    let state := { state with doneReceived := true }
    if state.running then state.handleDone options else state
  | .resume =>
    let state := { state with resuming := false }
    if state.running then state.handleResume options else state
  | .persist =>
    let state := { state with persistReceived := true }
    if state.running then state.handlePersist options else state
  | .wroteSynopsis position _ =>
    { state with synopsisWrites := state.synopsisWrites.eraseIdx position }
  | .wrotePartition position error =>
    match state.partitionWrites[position]? with
    | none => state
    | some pair =>
      let state := { state with
        partitionWrites := state.partitionWrites.eraseIdx position
        written := state.written ++ [(pair.uuid, error)] }
      if state.running then state.handleWritten pair error else state
  | .down position reason =>
    match state.stores[position]? with
    | none => state
    | some store =>
      let state := { state with
        stores := state.stores.eraseIdx position
        downs := state.downs ++ [(store, reason)] }
      if state.running then state.handleDown else state

/-- One message ends the input and one asks to persist. Answers belong to what is
outstanding. -/
def Legal : Message → Prop
  | .slice _ => True
  | .done => state.doneReceived = false
  | .resume => state.resuming = true
  | .persist => state.persistReceived = false
  | .wroteSynopsis position _ => position < state.synopsisWrites.length
  | .wrotePartition position _ => position < state.partitionWrites.length
  | .down position _ => position < state.stores.length

instance Legal.decidable (state : PartitionTransformer π) : DecidablePred state.Legal
  | .slice _ => isTrue trivial
  | .done => inferInstanceAs (Decidable (_ = false))
  | .resume => inferInstanceAs (Decidable (_ = true))
  | .persist => inferInstanceAs (Decidable (_ = false))
  | .wroteSynopsis _ _ | .wrotePartition _ _ | .down _ _ => inferInstanceAs (Decidable (_ < _))

/-- The pipeline when the input ends. -/
def collected (transform : π) : List Message → π
  | .slice slice :: rest => collected (options.pipeline.add transform slice).2 rest
  | .done :: _ | [] => transform
  | _ :: rest => collected transform rest

def run (transform : π) (messages : List Message) : PartitionTransformer π :=
  messages.foldl (step options) { transform := transform }

def Receives (transform : π) (messages : List Message) : Prop :=
  Run.Admissible (step options) Legal { transform := transform } messages

instance Receives.decidable (transform : π) (messages : List Message) :
    Decidable (Receives options transform messages) :=
  inferInstanceAs (Decidable (Run.Admissible _ _ _ _))

end Handlers

/-- Nothing is outstanding: both messages have been handled, all write requests
have been answered and all store builders are down. -/
structure Settled (state : PartitionTransformer π) : Prop where
  doneReceived : state.doneReceived = true
  persistReceived : state.persistReceived = true
  resuming : state.resuming = false
  synopsisWrites : state.synopsisWrites = []
  partitionWrites : state.partitionWrites = []
  stores : state.stores = []

def created (state : PartitionTransformer π) : List Uuid :=
  state.data.map fun entry => entry.2.id

end PartitionTransformer

end Vast
