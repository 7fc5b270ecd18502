import Vast.Foundation.Run
import Vast.Queue.Accounting
import Vast.Queue.Records

/-! # Runs of the query queue

A run applies queue operations one after another and remembers which pairs of
query and partition were handed out by `next` and still have to be reported to
`handleCompletion`. Along every run the queue stays consistent.
-/

namespace Vast

open Foundation QueryQueue List

/-- A queue together with the handed out pairs of query and partition. -/
structure QueueRun where
  queue : QueryQueue := {}
  inflight : List (Uuid × Uuid) := []

namespace QueueRun

/-- The operations on a queue. Queries enter it with fresh counters. -/
inductive Operation where
  | insert (std : PrioritySort) (contexts : TypeQueryContextMap) (client : Actor)
      (candidatePartitions requestedPartitions : UInt32) (candidates : CatalogLookupResult)
  | activate (std : PrioritySort) (qid : Uuid) (numPartitions : UInt32)
  | removeQuery (qid : Uuid)
  | markPartitionErased (pid : Uuid)
  | next
  | handleCompletion (qid pid : Uuid)

def handedOut : Option Entry → List (Uuid × Uuid)
  | none => []
  | some entry => entry.queries.map fun qid => (qid, entry.partition)

variable (run : QueueRun)

/-- Apply an operation. Nothing has to be reported for a removed query. -/
def perform : Operation → QueueRun
  | .insert std contexts client candidatePartitions requestedPartitions candidates =>
    let state : QueryState := {
      queryContextsPerType := contexts
      client := client
      candidatePartitions := candidatePartitions
      requestedPartitions := requestedPartitions }
    { run with queue := (run.queue.insert std state candidates).2 }
  | .activate std qid numPartitions =>
    { run with queue := (run.queue.activate std qid numPartitions).2 }
  | .removeQuery qid =>
    { queue := (run.queue.removeQuery qid).2
      inflight := run.inflight.filter fun pair => pair.1 ≠ qid }
  | .markPartitionErased pid => { run with queue := (run.queue.markPartitionErased pid).2 }
  | .next =>
    { queue := run.queue.next.2
      inflight := run.inflight ++ handedOut run.queue.next.1 }
  | .handleCompletion qid pid =>
    { queue := (run.queue.handleCompletion qid).2
      inflight := run.inflight.erase (qid, pid) }

/-- The protocol of the callers: the candidates of a query are distinct, and a
completion belongs to a pair in flight or to a query that is gone. -/
def Legal : Operation → Prop
  | .insert _ _ _ _ _ candidates =>
    (candidates.candidates.map fun candidate => candidate.2.uuid).Nodup
  | .handleCompletion qid pid => (qid, pid) ∈ run.inflight ∨ run.queue.queries qid = none
  | _ => True

instance (run : QueueRun) (operation : Operation) : Decidable (run.Legal operation) := by
  cases operation <;> unfold Legal <;> infer_instance

def pending (qid : Uuid) : Nat :=
  run.inflight.countP fun pair => decide (pair.1 = qid)

/-- The accounting holds for the pairs in flight, and no pair in flight
belongs to an unknown query. -/
structure Valid : Prop where
  accounted : Accounted run.queue.queries run.queue.entries run.pending
  settled : ∀ qid, run.queue.queries qid = none → run.pending qid = 0

theorem valid_empty : Valid {} where
  accounted := accounted_empty
  settled := by simp [pending]

theorem countP_handedOut {entry : Entry} (hnodup : entry.queries.Nodup) (qid : Uuid) :
    (handedOut (some entry)).countP (fun pair => decide (pair.1 = qid)) =
      if qid ∈ entry.queries then 1 else 0 := by
  rw [handedOut, countP_map, ← hnodup.count]
  refine countP_congr fun other _ => ?_
  simp

variable {run : QueueRun}

/-- Entries that are handed out list every query once, like the queued ones. -/
theorem Valid.next_queries_nodup (hvalid : run.Valid) {active : Entry}
    (hnext : run.queue.next.1 = some active) : active.queries.Nodup := by
  have hout := next_outcome run.queue
  generalize run.queue.next = outcome at hout hnext
  cases hout with
  | idle => cases hnext
  | taken rest entry skipped hparts =>
    cases hnext
    refine (hvalid.accounted.queries_nodup entry ?_).filter _
    simp [entries, hparts]

theorem Valid.pending_next (hvalid : run.Valid) :
    (run.perform .next).pending = dispatched run.pending run.queue.next.1 := by
  funext qid
  simp only [pending, perform, countP_append]
  cases hnext : run.queue.next.1 with
  | none => rfl
  | some active =>
    rw [countP_handedOut (hvalid.next_queries_nodup hnext)]
    rfl

theorem pending_removeQuery (run : QueueRun) (qid other : Uuid) :
    (run.perform (.removeQuery qid)).pending other =
      if other = qid then 0 else run.pending other := by
  simp only [pending, perform, countP_filter]
  split
  next heq => simp [heq]
  next hne =>
    refine countP_congr fun pair _ => ?_
    simp only [Bool.and_eq_true, decide_eq_true_eq, and_iff_left_iff_imp]
    intro hpair
    rw [hpair]
    exact hne

variable {qid pid : Uuid}

theorem pending_handleCompletion (run : QueueRun)
    (hpair : (qid, pid) ∈ run.inflight ∨ run.pending qid = 0) :
    (run.perform (.handleCompletion qid pid)).pending =
      Function.update run.pending qid (run.pending qid - 1) := by
  funext other
  by_cases hmem : (qid, pid) ∈ run.inflight
  · have hcount := (perm_cons_erase hmem).countP_eq fun pair => decide (pair.1 = other)
    rw [countP_cons] at hcount
    by_cases heq : other = qid
    · subst heq
      simp [pending, perform, hcount]
    · simp only [Ne.symm heq] at hcount
      simp [pending, perform, Function.update_of_ne heq, hcount]
  · have hzero : run.pending qid = 0 := hpair.resolve_left hmem
    rw [Function.update_eq_self_iff.mpr (by omega)]
    simp [pending, perform, erase_of_not_mem hmem]

theorem pending_pos (hpair : (qid, pid) ∈ run.inflight) : 0 < run.pending qid :=
  countP_pos_iff.mpr ⟨_, hpair, by simp⟩

section

variable (hvalid : run.Valid)

include hvalid

theorem Valid.insert {std : PrioritySort} {contexts : TypeQueryContextMap} {client : Actor}
    {candidatePartitions requestedPartitions : UInt32} {candidates : CatalogLookupResult}
    (hlegal : (candidates.candidates.map fun candidate => candidate.2.uuid).Nodup) :
    (run.perform (.insert std contexts client candidatePartitions requestedPartitions
      candidates)).Valid := by
  -- A known id is rejected, and nothing is in flight for an unknown one.
  cases hquery : run.queue.queries contexts.begin.id with
  | some found =>
    have hsame : run.perform (.insert std contexts client candidatePartitions
        requestedPartitions candidates) = run := by
      simp only [perform]
      rcases insert_eq_or std run.queue ⟨contexts, client, candidatePartitions,
        requestedPartitions, 0, 0⟩ candidates with ⟨-, _, hreject⟩ | ⟨⟨-, -, hunknown⟩, -⟩
      · rw [hreject]
      · simp [hquery] at hunknown
    rw [hsame]
    exact hvalid
  | none =>
    refine ⟨insert_accounted hvalid.accounted std hlegal rfl rfl ?_, ?_⟩
    · exact hvalid.settled _ hquery
    · intro qid hnone
      exact hvalid.settled qid (insert_queries_none hnone)

theorem Valid.removeQuery (qid : Uuid) : (run.perform (.removeQuery qid)).Valid := by
  refine ⟨?_, ?_⟩
  · refine (removeQuery_accounted hvalid.accounted qid).congr_inflight fun other hother => ?_
    rw [pending_removeQuery]
    rw [removeQuery_queries] at hother
    split at hother
    · simp at hother
    next hne => rw [if_neg hne]
  · intro other (hnone : (run.queue.removeQuery qid).2.queries other = none)
    rw [pending_removeQuery]
    rw [removeQuery_queries] at hnone
    split
    · rfl
    next hne =>
      rw [if_neg hne] at hnone
      exact hvalid.settled other hnone

theorem Valid.next : (run.perform .next).Valid := by
  refine ⟨?_, ?_⟩
  · rw [hvalid.pending_next]
    exact next_accounted hvalid.accounted
  · intro qid hnone
    have hbefore := next_queries_none hvalid.accounted.queries_nodup hnone
    rw [hvalid.pending_next]
    cases hnext : run.queue.next.1 with
    | none => exact hvalid.settled qid hbefore
    | some active =>
      have hactive : qid ∉ active.queries := by
        intro hmem
        have hrun := (mem_next_runnable hnext hmem).1
        simp [runnable, hbefore] at hrun
      simp [dispatched, hactive, hvalid.settled qid hbefore]

theorem Valid.handleCompletion
    (hlegal : (qid, pid) ∈ run.inflight ∨ run.queue.queries qid = none) :
    (run.perform (.handleCompletion qid pid)).Valid := by
  have hpair : (qid, pid) ∈ run.inflight ∨ run.pending qid = 0 :=
    hlegal.imp_right (hvalid.settled qid)
  have hpos : (run.queue.queries qid).isSome → 0 < run.pending qid := by
    intro hsome
    rcases hlegal with hmem | hnone
    · exact pending_pos hmem
    · simp [hnone] at hsome
  refine ⟨?_, ?_⟩
  · rw [pending_handleCompletion run hpair]
    exact handleCompletion_accounted qid hvalid.accounted hpos
  · intro other hnone
    rw [pending_handleCompletion run hpair]
    rcases handleCompletion_queries_none hnone with hbefore | ⟨rfl, state, hstate, hlast⟩
    · have hzero := hvalid.settled other hbefore
      by_cases heq : other = qid
      · subst heq
        simp [hzero]
      · simp [heq, hzero]
    · have hone := hvalid.accounted.last_completion hstate (hpos (by simp [hstate])) hlast
      simp [hone.2]

end

theorem perform_valid (run : QueueRun) (operation : Operation) (hvalid : run.Valid)
    (hlegal : run.Legal operation) : (run.perform operation).Valid := by
  cases operation with
  | insert => exact hvalid.insert hlegal
  | activate std qid numPartitions =>
    refine ⟨activate_accounted hvalid.accounted std qid numPartitions, ?_⟩
    intro other hnone
    exact hvalid.settled other (activate_queries_none hnone)
  | removeQuery qid => exact hvalid.removeQuery qid
  | markPartitionErased pid =>
    refine ⟨markPartitionErased_accounted hvalid.accounted pid, ?_⟩
    intro qid hnone
    refine hvalid.settled qid ?_
    rw [← markPartitionErased_queries run.queue pid]
    exact hnone
  | next => exact hvalid.next
  | handleCompletion => exact hvalid.handleCompletion hlegal

/-- The conditions that a queue meets after every operation: no partition is
queued twice, every listed query is known and listed once per entry, no more
partitions of a query complete than are scheduled, and each of its candidates
is either scheduled or queued. -/
structure Consistent (queue : QueryQueue) : Prop where
  partitions_nodup : (queue.entries.map Entry.partition).Nodup
  known : ∀ entry ∈ queue.entries, ∀ qid ∈ entry.queries, (queue.queries qid).isSome
  queries_nodup : ∀ entry ∈ queue.entries, entry.queries.Nodup
  completed_le : ∀ qid state, queue.queries qid = some state →
    state.completedPartitions ≤ state.scheduledPartitions
  candidates_eq : ∀ qid state, queue.queries qid = some state →
    state.candidatePartitions.toNat = state.scheduledPartitions.toNat +
      queue.entries.countP fun entry => decide (qid ∈ entry.queries)

/-- Every sequence of operations that follows the protocol of the callers
leaves a consistent queue behind. -/
theorem queue_consistent (operations : List Operation)
    (hrun : Run.Admissible perform Legal {} operations) :
    Consistent (operations.foldl perform {}).queue := by
  have hvalid : (operations.foldl perform {}).Valid :=
    Run.invariant Valid perform_valid valid_empty hrun
  obtain ⟨hnodup, hknown, hqueries, hcandidates, hscheduled⟩ := hvalid.accounted
  refine ⟨hnodup, hknown, hqueries, ?_, hcandidates⟩
  intro qid state hstate
  have heq := hscheduled qid state hstate
  rw [UInt32.le_iff_toNat_le]
  omega

/-- The contexts of a query that looks at one schema. -/
def sampleContexts (qid : Uuid) (priority : UInt8) : TypeQueryContextMap :=
  ⟨[(.none, ⟨qid, .none, priority⟩)], by simp⟩

def sampleCandidates (pids : List Uuid) : CatalogLookupResult :=
  ⟨[(.none, ⟨.none, pids.map fun pid => ⟨pid, 0, 0, .none, 0⟩⟩)]⟩

/-- Two queries overlap in a partition; one batch is handed out and completed,
the other query is removed while its partition is in flight. -/
def sampleOperations : List Operation := [
  .insert .insertion (sampleContexts 1 25) ⟨1⟩ 2 1 (sampleCandidates [11, 12]),
  .insert .insertion (sampleContexts 2 100) ⟨2⟩ 1 1 (sampleCandidates [12]),
  .next,
  .handleCompletion 1 12,
  .activate .insertion 1 1,
  .removeQuery 2,
  .markPartitionErased 11,
  .next ]

/-- A query is still known in the consistent queue at the end of the sample run. -/
theorem queue_consistent_sample : ((sampleOperations.foldl perform {}).queue.queries 1).isSome ∧
      Consistent (sampleOperations.foldl perform {}).queue :=
  ⟨by decide, queue_consistent sampleOperations (by decide)⟩

end QueueRun

end Vast
