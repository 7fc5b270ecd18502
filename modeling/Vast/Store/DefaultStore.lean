import Vast.Foundation.AssocList
import Vast.Foundation.Run
import Vast.Queue.QueryQueue
import Vast.Table.Filter

/-! # The default store

A store works on its queries slice by slice. After each result it sends a message to
itself to go on, so that queries alternate and can be cancelled: when the sink of a
query is gone, the query is dropped.
-/

namespace Vast

open Foundation

structure BaseStore where
  first : TableSlice
  rest : List TableSlice
  homogeneous : ∀ slice ∈ rest, slice.schema = first.schema

namespace BaseStore

variable (store : BaseStore)

def slices : List TableSlice :=
  store.first :: store.rest

def schema : VastType :=
  store.first.schema

theorem schema_of_mem {slice : TableSlice} (hslice : slice ∈ store.slices) :
    slice.schema = store.schema := by
  rcases List.mem_cons.mp hslice with rfl | hrest
  · rfl
  · exact store.homogeneous slice hrest

variable [Regex]

def count (expression : Expression) (selection : Bitmap) : List Nat :=
  store.slices.map fun slice => slice.countMatching expression selection

/-- The results of extracting, for the slices with matching rows. -/
def extract (expression : Expression) (selection : Bitmap) : List TableSlice :=
  store.slices.filterMap fun slice => slice.filter expression selection

end BaseStore

/-! ## Queries -/

inductive QueryCommand where
  | count (estimate : Bool) (sink : Actor)
  | extract (sink : Actor)

/-- The part of a query context that the store looks at. -/
structure StoreQuery where
  id : Uuid
  cmd : QueryCommand
  expr : Expression
  ids : Bitmap

/-- The results of a query from the iterator on, and the hits so far. -/
structure RunningQuery (ρ : Type) where
  results : List ρ
  numHits : Nat := 0
  sink : Actor

/-- Counts and extractions are kept apart. -/
inductive QueryKind where
  | count
  | extract
  deriving DecidableEq

inductive StoreError where
  /-- failed to tailor … to … -/
  | invalidQuery (expr : Expression) (schema : VastType)
  /-- estimate counts must not evaluate expressions -/
  | estimate
  /-- received duplicated query id … -/
  | duplicatedQueryId (id : Uuid)

abbrev StoreReply := Except StoreError Nat

/-- The state of the store, together with what is outstanding: the messages that it has
sent to itself, and the answers to its own requests. What it sends to sinks and how it
replies is recorded for each query. -/
structure StoreState where
  store : BaseStore
  runningExtractions : List (Uuid × RunningQuery TableSlice) := []
  runningCounts : List (Uuid × RunningQuery Nat) := []
  continuations : List (QueryKind × Uuid) := []
  finished : List (QueryKind × Uuid) := []
  sentSlices : List (Uuid × Actor × TableSlice) := []
  sentCounts : List (Uuid × Actor × Nat) := []
  replies : List (Uuid × StoreReply) := []

namespace StoreState

def initial (store : BaseStore) : StoreState where
  store := store

variable (state : StoreState)

variable (id : Uuid)

def deliver (reply : StoreReply) : StoreState :=
  { state with replies := state.replies ++ [(id, reply)] }

def delegate (kind : QueryKind) (id : Uuid) : StoreState :=
  { state with continuations := state.continuations ++ [(kind, id)] }

def respond (kind : QueryKind) (id : Uuid) : StoreState :=
  { state with finished := state.finished ++ [(kind, id)] }

def startCount (query : RunningQuery Nat) : StoreState :=
  match state.runningCounts.lookup id with
  | some _ => state.deliver id (.error (.duplicatedQueryId id))
  | none =>
    { state with runningCounts := AssocList.emplace id query state.runningCounts }.delegate
      .count id

/-- Start an extraction, unless there is one with that id. -/
def startExtract (query : RunningQuery TableSlice) : StoreState :=
  match state.runningExtractions.lookup id with
  | some _ => state.deliver id (.error (.duplicatedQueryId id))
  | none =>
    { state with
      runningExtractions := AssocList.emplace id query state.runningExtractions }.delegate
      .extract id

def handleQuery [Regex] (state : StoreState) (query : StoreQuery) : StoreState :=
  match tailor query.expr state.store.schema with
  | .error _ => state.deliver query.id (.error (.invalidQuery query.expr state.store.schema))
  | .ok tailored =>
    match query.cmd with
    | .count true _ => state.deliver query.id (.error .estimate)
    | .count false sink =>
      state.startCount query.id
        { results := state.store.count tailored query.ids, sink := sink }
    | .extract sink =>
      state.startExtract query.id
        { results := state.store.extract tailored query.ids, sink := sink }

def continueCount : StoreState :=
  match state.runningCounts.lookup id with
  | none => state.respond .count id
  | some query =>
    match query.results with
    | [] => state.respond .count id
    | hits :: rest =>
      let next : StoreState :=
        { state with
          runningCounts := AssocList.adjust id (fun query =>
            { query with results := rest, numHits := query.numHits + hits })
            state.runningCounts }
      if rest.isEmpty then next.respond .count id else next.delegate .count id

/-- The next result of an extraction goes to the sink. -/
def continueExtract : StoreState :=
  match state.runningExtractions.lookup id with
  | none => state.respond .extract id
  | some query =>
    match query.results with
    | [] => state.respond .extract id
    | slice :: rest =>
      let next : StoreState :=
        { state with
          runningExtractions := AssocList.adjust id (fun query =>
            { query with results := rest, numHits := query.numHits + slice.rows.length })
            state.runningExtractions
          sentSlices := state.sentSlices ++ [(id, query.sink, slice)] }
      if rest.isEmpty then next.respond .extract id else next.delegate .extract id

/-- The number of hits of a count also goes to the sink. -/
def finishCount : StoreState :=
  match state.runningCounts.lookup id with
  | none => state.deliver id (.ok 0)
  | some query =>
    { state.deliver id (.ok query.numHits) with
      sentCounts := state.sentCounts ++ [(id, query.sink, query.numHits)]
      runningCounts := AssocList.erase id state.runningCounts }

def finishExtract : StoreState :=
  match state.runningExtractions.lookup id with
  | none => state.deliver id (.ok 0)
  | some query =>
    { state.deliver id (.ok query.numHits) with
      runningExtractions := AssocList.erase id state.runningExtractions }

/-- A sink has one active query of a kind, so the first one is dropped. -/
def removeDownSource (source : Actor) : StoreState :=
  { state with
    runningExtractions := state.runningExtractions.eraseP fun entry => entry.2.sink = source
    runningCounts := state.runningCounts.eraseP fun entry => entry.2.sink = source }

/-! ## Runs -/

/-- What the store handles: a query, one of its own messages, the answer to one of its own
requests, or the end of a sink. -/
inductive Event where
  | query (query : StoreQuery)
  | resume (kind : QueryKind) (id : Uuid)
  | finish (kind : QueryKind) (id : Uuid)
  | down (source : Actor)

def step [Regex] (state : StoreState) : Event → StoreState
  | .query query => state.handleQuery query
  | .resume kind id =>
    let taken : StoreState := { state with continuations := state.continuations.erase (kind, id) }
    match kind with
    | .count => taken.continueCount id
    | .extract => taken.continueExtract id
  | .finish kind id =>
    let taken : StoreState := { state with finished := state.finished.erase (kind, id) }
    match kind with
    | .count => taken.finishCount id
    | .extract => taken.finishExtract id
  | .down source => state.removeDownSource source

/-- Messages and answers come in any order, but have been sent. -/
def Enabled : Event → Prop
  | .query _ => True
  | .resume kind id => (kind, id) ∈ state.continuations
  | .finish kind id => (kind, id) ∈ state.finished
  | .down _ => True

instance : ∀ event, Decidable (state.Enabled event)
  | .query _ => isTrue trivial
  | .resume _ _ => inferInstanceAs (Decidable (_ ∈ _))
  | .finish _ _ => inferInstanceAs (Decidable (_ ∈ _))
  | .down _ => isTrue trivial

end StoreState

end Vast
