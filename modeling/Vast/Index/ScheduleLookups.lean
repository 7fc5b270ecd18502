import Vast.Queue.QueryQueue

/-! # Scheduling of partition lookups

The index takes partitions from the query queue and sends the queries to them,
as long as fewer partitions are being looked up than allowed. A lookup shares a
counter among its queries and ends when the last query is answered.
-/

namespace Vast

/-- A partition that was asked, with the shared counter of the queries that
are not done and the queries whose reply is outstanding. -/
structure Lookup where
  partition : Uuid
  cnt : Nat
  awaiting : List Uuid
  deriving DecidableEq

/-- The scheduling state of the index. The sent messages are the notifications
of clients, in order. -/
structure IndexState where
  pendingQueries : QueryQueue := {}
  runningPartitionLookups : UInt64 := 0
  maxConcurrentPartitionLookups : UInt64
  lookups : List Lookup := []
  sent : List Actor := []

namespace IndexState

variable (state : IndexState)

/-- Report a completion to the queue and notify the client if it asks for it. -/
def completeQuery (qid : Uuid) : IndexState :=
  let completion := state.pendingQueries.handleCompletion qid
  { state with
    pendingQueries := completion.2
    sent := state.sent ++ completion.1.toList }

/-- Erased partitions and partitions that fail to load count as completed. -/
def immediateCompletion (queries : List Uuid) : IndexState :=
  queries.foldl completeQuery state

/-- The body of the loop over the queries of an entry: ask the partition, or
count the query as done if it is gone or lacks a context for the schema. The
latter case calls the scheduler when the last query of the entry is done. -/
def requestQuery (schedule : IndexState → IndexState) (entry : QueryQueue.Entry)
    (loop : IndexState × Lookup) (qid : Uuid) : IndexState × Lookup :=
  let (state, lookup) := loop
  match state.pendingQueries.queries qid with
  | none =>
    let lookup := { lookup with cnt := lookup.cnt - 1 }
    if lookup.cnt = 0 then
      ({ state with runningPartitionLookups := state.runningPartitionLookups - 1 }, lookup)
    else
      (state, lookup)
  | some query =>
    match query.queryContextsPerType.find entry.schema with
    | none =>
      let state := state.completeQuery qid
      let lookup := { lookup with cnt := lookup.cnt - 1 }
      if lookup.cnt = 0 then
        (schedule { state with
          runningPartitionLookups := state.runningPartitionLookups - 1 }, lookup)
      else
        (state, lookup)
    | some _ => (state, { lookup with awaiting := lookup.awaiting ++ [qid] })

/-- The loop of the scheduler. It stops when enough lookups are running or no
partition is left; the fuel bounds the number of partitions taken. Whether the
actor of a partition can be acquired is up to the environment. -/
def scheduleLoop (acquire : Uuid → Bool) : Nat → IndexState → IndexState
  | 0, state => state
  | fuel + 1, state =>
    if state.runningPartitionLookups < state.maxConcurrentPartitionLookups then
      match state.pendingQueries.next with
      | (none, queue) => { state with pendingQueries := queue }
      | (some entry, queue) =>
        let state := { state with pendingQueries := queue }
        if entry.erased then
          scheduleLoop acquire fuel (state.immediateCompletion entry.queries)
        else if !acquire entry.partition then
          scheduleLoop acquire fuel (state.immediateCompletion entry.queries)
        else
          let reschedule := fun state : IndexState =>
            if state.pendingQueries.hasWork then scheduleLoop acquire fuel state else state
          let (state, lookup) := entry.queries.foldl (requestQuery reschedule entry)
            (state, ⟨entry.partition, entry.queries.length, []⟩)
          scheduleLoop acquire fuel { state with
            lookups := state.lookups ++ [lookup]
            runningPartitionLookups := state.runningPartitionLookups + 1 }
    else
      state

/-- Schedule as many lookups as possible. Every round takes a partition out of
the active list, so the list bounds the number of rounds. -/
def scheduleLookups (acquire : Uuid → Bool) (state : IndexState) : IndexState :=
  if state.pendingQueries.hasWork then
    scheduleLoop acquire (state.pendingQueries.partitions.length + 1) state
  else
    state

/-- The events that the index reacts to. The reply of a partition is an answer
or an error; both count the query as done. -/
inductive Event where
  | evaluate (std : QueryQueue.PrioritySort) (contexts : TypeQueryContextMap) (client : Actor)
      (candidatePartitions requestedPartitions : UInt32) (candidates : CatalogLookupResult)
      (acquire : Uuid → Bool)
  | query (std : QueryQueue.PrioritySort) (qid : Uuid) (numPartitions : UInt32)
      (acquire : Uuid → Bool)
  | down (ids : List Uuid)
  | erase (pid : Uuid)
  | reply (index : Nat) (qid : Uuid) (acquire : Uuid → Bool)

/-- The completion handler of one query of a lookup. -/
def handleReply (index : Nat) (qid : Uuid) (acquire : Uuid → Bool) : IndexState :=
  match state.lookups[index]? with
  | none => state
  | some lookup =>
    let state := state.completeQuery qid
    let lookup := { lookup with cnt := lookup.cnt - 1, awaiting := lookup.awaiting.erase qid }
    let state := { state with lookups := state.lookups.set index lookup }
    if lookup.cnt = 0 then
      scheduleLookups acquire { state with
        runningPartitionLookups := state.runningPartitionLookups - 1 }
    else
      state

/-- The reaction to an event. A client that goes down takes its queries with it
without a call of the scheduler. -/
def handle : Event → IndexState
  | .evaluate std contexts client candidatePartitions requestedPartitions candidates acquire =>
    let query : QueryState := {
      queryContextsPerType := contexts
      client := client
      candidatePartitions := candidatePartitions
      requestedPartitions := requestedPartitions }
    scheduleLookups acquire { state with
      pendingQueries := (state.pendingQueries.insert std query candidates).2 }
  | .query std qid numPartitions acquire =>
    scheduleLookups acquire { state with
      pendingQueries := (state.pendingQueries.activate std qid numPartitions).2 }
  | .down ids =>
    { state with
      pendingQueries := ids.foldl (fun queue qid => (queue.removeQuery qid).2)
        state.pendingQueries }
  | .erase pid =>
    { state with pendingQueries := (state.pendingQueries.markPartitionErased pid).2 }
  | .reply index qid acquire => state.handleReply index qid acquire

end IndexState

end Vast
