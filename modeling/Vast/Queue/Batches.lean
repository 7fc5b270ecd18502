import Vast.Queue.Run

/-! # Batches of a query

A client asks for the candidates of its query in batches. It is notified once
per batch, at the completion of the last partition of the batch, and the query
leaves the queue when all its candidates have completed.
-/

variable {qid : Uuid}

namespace Vast.QueryQueue

open Foundation List Entry

variable {queue : QueryQueue} {inflight : Uuid → Nat}

/-- A query that may be scheduled waits in active entries only. -/
def ParkedIdle (queue : QueryQueue) : Prop :=
  ∀ qid, runnable queue.queries qid = true →
    ∀ entry ∈ queue.inactivePartitions, qid ∉ entry.queries

theorem foldl_insertCandidate_snd_sublist (qid : Uuid) (priority : UInt64)
    (candidates : List (VastType × PartitionInfo)) (lists : List Entry × List Entry) :
    (candidates.foldl (insertCandidate qid priority) lists).2.Sublist lists.2 := by
  induction candidates generalizing lists with
  | nil => exact Sublist.refl _
  | cons head tail ih =>
    refine (ih _).trans ?_
    simp only [insertCandidate]
    split
    · exact Sublist.refl _
    · split
      · exact eraseP_sublist
      · exact Sublist.refl _

theorem insert_parkedIdle (std : PrioritySort) (state : QueryState)
    (candidates : CatalogLookupResult) (hacc : Accounted queue.queries queue.entries inflight)
    (hidle : queue.ParkedIdle) : (queue.insert std state candidates).2.ParkedIdle := by
  rcases insert_eq_or std queue state candidates with ⟨-, _, hreject⟩ | ⟨⟨-, -, hunknown⟩, hinsert⟩
  · rw [hreject]
    exact hidle
  · rw [hinsert]
    intro qid hrun entry hentry hmem
    have hparked : entry ∈ queue.inactivePartitions :=
      (foldl_insertCandidate_snd_sublist _ _ _ _).subset hentry
    have hknown := hacc.known entry (mem_append_right _ hparked) qid hmem
    have hne : qid ≠ state.queryContextsPerType.begin.id := by
      rintro rfl
      simp [hunknown] at hknown
    refine hidle qid ?_ entry hparked hmem
    simpa [runnable, hne] using hrun

theorem activate_parkedIdle (std : PrioritySort) (qid : Uuid) (numPartitions : UInt32)
    (hidle : queue.ParkedIdle) : (queue.activate std qid numPartitions).2.ParkedIdle := by
  cases hstate : queue.queries qid with
  | none => simpa [activate, hstate] using hidle
  | some state =>
    simp only [activate, hstate]
    intro other hrun entry hentry hmem
    rw [partition_eq_filter_filter] at hentry
    obtain ⟨hparked, hleft⟩ := mem_filter.mp hentry
    have hne : other ≠ qid := by
      rintro rfl
      simp [hmem] at hleft
    refine hidle other ?_ entry hparked hmem
    simpa [runnable, hne] using hrun

theorem Trims.parkedIdle {after : QueryQueue} (htrims : Trims queue after)
    (hidle : queue.ParkedIdle) : after.ParkedIdle := by
  intro qid hrun kept hkept hmem
  obtain ⟨entry, hentry, -, -, hqueries⟩ := htrims.inactivePartitions.origin kept hkept
  exact hidle qid (htrims.runnable hrun) entry hentry (hqueries qid hmem)

/-- Scheduling never makes a query runnable that was not. -/
theorem runnable_of_next (hacc : Accounted queue.queries queue.entries inflight)
    (hrun : runnable queue.next.2.queries qid = true) : runnable queue.queries qid = true := by
  by_cases htaken : ∃ active ∈ queue.next.1, qid ∈ active.queries
  · obtain ⟨active, hactive, hmem⟩ := htaken
    exact (mem_next_runnable hactive hmem).1
  · rw [runnable, next_queries hacc.queries_nodup, if_neg htaken] at hrun
    exact hrun

theorem next_parkedIdle (hacc : Accounted queue.queries queue.entries inflight)
    (hidle : queue.ParkedIdle) : queue.next.2.ParkedIdle := by
  intro qid hafter entry hentry hmem
  have hrun := runnable_of_next hacc hafter
  have hparked : ∀ entries : List Entry,
      entry ∉ entries.filterMap (inactive queue.queries) := by
    intro entries hin
    obtain ⟨origin, -, hsplit⟩ := mem_filterMap.mp hin
    rw [(inactive_some hsplit).2.2] at hmem
    simp [hrun] at hmem
  have hout := next_outcome queue
  generalize queue.next = outcome at hout hentry
  cases hout with
  | idle | taken =>
    rcases mem_append.mp hentry with hold | hnew
    · exact hidle qid hrun entry hold hmem
    · exact hparked _ hnew

/-- Some later call of `next` returns an entry with the query. -/
inductive HandsOut (qid : Uuid) : QueryQueue → Prop where
  | now {queue : QueryQueue} {active : Entry} (hactive : queue.next.1 = some active)
      (hmem : qid ∈ active.queries) : HandsOut qid queue
  | later {queue : QueryQueue} (hlater : HandsOut qid queue.next.2) : HandsOut qid queue

/-- A query that may be scheduled and waits in an active entry is handed out. -/
theorem handsOut_of_runnable (hacc : Accounted queue.queries queue.entries inflight)
    (hrun : runnable queue.queries qid = true)
    (hwaits : ∃ entry ∈ queue.partitions, qid ∈ entry.queries) : HandsOut qid queue := by
  induction hlen : queue.partitions.length using Nat.strong_induction_on
    generalizing queue inflight with
  | _ length ih =>
    by_cases htaken : ∃ active ∈ queue.next.1, qid ∈ active.queries
    · obtain ⟨active, hactive, hmem⟩ := htaken
      exact HandsOut.now hactive hmem
    · -- The entry is neither skipped nor taken, so it is left in the queue.
      have hsame : queue.next.2.queries qid = queue.queries qid := by
        rw [next_queries hacc.queries_nodup, if_neg htaken]
      obtain ⟨waiting, hwaiting, hmem⟩ := hwaits
      have hleft : waiting ∈ queue.next.2.partitions ∧
          queue.next.2.partitions.length < queue.partitions.length := by
        have hout := next_outcome queue
        generalize queue.next = outcome at hout htaken
        cases hout with
        | idle hidle => exact absurd ⟨qid, hmem, hrun⟩ (hidle waiting hwaiting)
        | taken rest entry skipped hparts hskipped =>
          refine ⟨?_, by simp [hparts]⟩
          rw [hparts, mem_append, mem_cons] at hwaiting
          rcases hwaiting with hrest | rfl | hskip
          · exact hrest
          · exact absurd ⟨_, rfl, mem_active_queries.mpr ⟨hmem, hrun⟩⟩ htaken
          · exact absurd ⟨qid, hmem, hrun⟩ (hskipped waiting hskip)
      refine HandsOut.later (ih _ (hlen ▸ hleft.2) (next_accounted hacc) ?_
        ⟨waiting, hleft.1, hmem⟩ rfl)
      rw [runnable, hsame]
      exact hrun

end Vast.QueryQueue

namespace Vast

open Foundation QueryQueue QueueRun

theorem QueueRun.perform_parkedIdle (run : QueueRun) (operation : Operation) (hvalid : run.Valid)
    (hidle : run.queue.ParkedIdle) : (run.perform operation).queue.ParkedIdle := by
  cases operation with
  | insert => exact insert_parkedIdle _ _ _ hvalid.accounted hidle
  | activate => exact activate_parkedIdle _ _ _ hidle
  | removeQuery => exact (trims_removeQuery _ _).parkedIdle hidle
  | markPartitionErased => exact (trims_markPartitionErased _ _).parkedIdle hidle
  | next => exact next_parkedIdle hvalid.accounted hidle
  | handleCompletion => exact (trims_handleCompletion _ _).parkedIdle hidle

/-- A run of the queue seen by the client of one query: how many partitions it
asked for and in how many batches, and how many completions and notifications
there were. -/
structure BatchRun where
  run : QueueRun
  asked : Nat
  batches : Nat
  notified : Nat
  done : Nat

namespace BatchRun

/-- Apply an operation and count what it means for the query. -/
def track (qid : Uuid) (state : BatchRun) (operation : Operation) : BatchRun :=
  let state' := { state with run := state.run.perform operation }
  match operation with
  | .activate _ other numPartitions =>
    if other = qid then
      { state' with asked := state.asked + numPartitions.toNat, batches := state.batches + 1 }
    else state'
  | .handleCompletion other _ =>
    if other = qid then
      let notification := (state.run.queue.handleCompletion qid).1
      { state' with
        done := state.done + 1
        notified := state.notified + if notification.isSome then 1 else 0 }
    else state'
  | _ => state'

/-- The protocol of the client: it asks for more partitions after it was
notified for the last batch, for at least one and for no more than are left. A
live id is not removed, and a query that is gone does not come back. -/
def Follows (qid : Uuid) (candidates : Nat) (state : BatchRun) (operation : Operation) : Prop :=
  state.run.Legal operation ∧
    match operation with
    | .insert _ contexts _ _ _ _ =>
      contexts.begin.id = qid → (state.run.queue.queries qid).isSome
    | .activate _ other numPartitions =>
      other = qid → state.notified = state.batches ∧ 1 ≤ numPartitions.toNat ∧
        state.asked + numPartitions.toNat ≤ candidates
    | .removeQuery other => other ≠ qid
    | .handleCompletion other pid => other = qid → (qid, pid) ∈ state.run.inflight
    | _ => True

instance (qid : Uuid) (candidates : Nat) (state : BatchRun) :
    ∀ operation, Decidable (state.Follows qid candidates operation)
  | .insert .. | .activate .. | .removeQuery _ | .markPartitionErased _ | .next
  | .handleCompletion .. => inferInstanceAs (Decidable (_ ∧ _))

/-- The queue's record of the query agrees with the client's counts. -/
structure Agrees (client : Actor) (candidates asked done : Nat) (record : QueryState) : Prop where
  client_eq : record.client = client
  candidates_eq : record.candidatePartitions.toNat = candidates
  requested_eq : record.requestedPartitions.toNat = asked
  completed_eq : record.completedPartitions.toNat = done
  scheduled_le : record.scheduledPartitions.toNat ≤ asked

/-- What holds for a query between any two operations. -/
structure Invariant (qid : Uuid) (client : Actor) (candidates : Nat) (state : BatchRun) :
    Prop where
  valid : state.run.Valid
  idle : state.run.queue.ParkedIdle
  done_le : state.done ≤ state.asked
  asked_le : state.asked ≤ candidates
  live : state.done < candidates → ∃ record, state.run.queue.queries qid = some record ∧
    Agrees client candidates state.asked state.done record
  gone : state.done = candidates → state.run.queue.queries qid = none
  once : state.batches = state.notified + if state.done < state.asked then 1 else 0

section Steps

variable {qid : Uuid} {client : Actor} {candidates : Nat} {state : BatchRun}

section

variable (hinv : Invariant qid client candidates state)

include hinv

theorem Invariant.agrees_of_some
    {record : QueryState} (hrecord : state.run.queue.queries qid = some record) :
    state.done < candidates ∧ Agrees client candidates state.asked state.done record := by
  have hlt : state.done < candidates := by
    by_contra hge
    have hdone : state.done = candidates := by
      have := hinv.done_le
      have := hinv.asked_le
      omega
    simp [hinv.gone hdone] at hrecord
  obtain ⟨found, hfound, hagrees⟩ := hinv.live hlt
  rw [hrecord, Option.some.injEq] at hfound
  exact ⟨hlt, hfound ▸ hagrees⟩

/-- Operations that do not touch the record of the query keep the invariant. -/
theorem Invariant.frame {run : QueueRun} (hvalid : run.Valid) (hidle : run.queue.ParkedIdle)
    (hsame : run.queue.queries qid = state.run.queue.queries qid) :
    Invariant qid client candidates { state with run := run } where
  valid := hvalid
  idle := hidle
  done_le := hinv.done_le
  asked_le := hinv.asked_le
  live := fun hlt => by
    rw [hsame]
    exact hinv.live hlt
  gone := fun hdone => by
    rw [hsame]
    exact hinv.gone hdone
  once := hinv.once

theorem Invariant.next : Invariant qid client candidates (state.track qid .next) := by
  have hvalid := perform_valid state.run .next hinv.valid trivial
  have hidle := perform_parkedIdle state.run .next hinv.valid hinv.idle
  have hqueries := next_queries hinv.valid.accounted.queries_nodup qid
  by_cases htaken : ∃ active ∈ state.run.queue.next.1, qid ∈ active.queries
  · rw [if_pos htaken] at hqueries
    obtain ⟨active, hactive, hmem⟩ := htaken
    obtain ⟨hrun, entry, hentry, hlisted⟩ := mem_next_runnable hactive hmem
    have hknown := hinv.valid.accounted.known entry (List.mem_append_left _ hentry) qid hlisted
    obtain ⟨record, hrecord⟩ := Option.isSome_iff_exists.mp hknown
    obtain ⟨hlt, hagrees⟩ := hinv.agrees_of_some hrecord
    have hschedule : record.scheduledPartitions.toNat < record.requestedPartitions.toNat := by
      rw [runnable, hrecord] at hrun
      exact UInt32.lt_iff_toNat_lt.mp (of_decide_eq_true hrun)
    rw [hrecord] at hqueries
    refine ⟨hvalid, hidle, hinv.done_le, hinv.asked_le, ?_, ?_, hinv.once⟩
    · intro _
      refine ⟨_, hqueries, hagrees.client_eq, hagrees.candidates_eq, hagrees.requested_eq,
        hagrees.completed_eq, ?_⟩
      change _ ≤ state.asked
      rw [toNat_succ hschedule, ← hagrees.requested_eq]
      exact hschedule
    · intro hdone
      exact absurd hdone (ne_of_lt hlt)
  · rw [if_neg htaken] at hqueries
    exact hinv.frame hvalid hidle hqueries

theorem Invariant.activate (std : PrioritySort) {numPartitions : UInt32}
    (hfollows : state.Follows qid candidates (.activate std qid numPartitions)) :
    Invariant qid client candidates (state.track qid (.activate std qid numPartitions)) := by
  obtain ⟨hlegal, hprotocol⟩ := hfollows
  obtain ⟨hnotified, hpos, hle⟩ := hprotocol rfl
  have hasked := hinv.done_le
  -- All earlier batches are complete, and there is something left to ask for.
  have hlt : state.done < candidates := by omega
  obtain ⟨record, hrecord, hagrees⟩ := hinv.live hlt
  have hreq : (record.requestedPartitions + numPartitions).toNat =
      state.asked + numPartitions.toNat := by
    have hbound := record.candidatePartitions.toNat_lt
    rw [hagrees.candidates_eq] at hbound
    rw [UInt32.toNat_add, hagrees.requested_eq, Nat.mod_eq_of_lt (by omega)]
  have hqueries : (state.run.perform (.activate std qid numPartitions)).queue.queries qid =
      some { record with requestedPartitions := record.requestedPartitions + numPartitions } := by
    simp only [perform]
    rw [activate_queries, if_pos rfl, hrecord]
    rfl
  have hvalid := perform_valid state.run _ hinv.valid hlegal
  have hidle := perform_parkedIdle state.run (.activate std qid numPartitions) hinv.valid
    hinv.idle
  simp only [track, if_true]
  refine ⟨hvalid, hidle, ?_, hle, ?_, ?_, ?_⟩
  · simp only
    omega
  · intro _
    refine ⟨_, hqueries, hagrees.client_eq, hagrees.candidates_eq, hreq, hagrees.completed_eq, ?_⟩
    have := hagrees.scheduled_le
    simp only
    omega
  · intro hall
    exact absurd hall (ne_of_lt hlt)
  · simp only
    rw [if_pos (by omega), hnotified]

variable {pid : Uuid} (hpair : (qid, pid) ∈ state.run.inflight)

include hpair

theorem Invariant.inflight_record :
    ∃ record, state.run.queue.queries qid = some record ∧ state.done < candidates ∧
      Agrees client candidates state.asked state.done record ∧
      (record.completedPartitions + 1).toNat = state.done + 1 ∧ state.done + 1 ≤ state.asked := by
  have hpos := pending_pos hpair
  cases hrecord : state.run.queue.queries qid with
  | none =>
    have hzero := hinv.valid.settled qid hrecord
    omega
  | some record =>
    obtain ⟨hlt, hagrees⟩ := hinv.agrees_of_some hrecord
    have hsched := hinv.valid.accounted.scheduled_eq qid record hrecord
    have hcompl : record.completedPartitions.toNat < record.scheduledPartitions.toNat := by
      omega
    have hsucc := toNat_succ hcompl
    rw [hagrees.completed_eq] at hsucc hcompl
    have := hagrees.scheduled_le
    exact ⟨record, rfl, hlt, hagrees, hsucc, by omega⟩

/-- The client hears from the queue at the end of the batch. -/
theorem Invariant.notification :
    (state.run.queue.handleCompletion qid).1 =
      if state.done + 1 = state.asked then some client else none := by
  obtain ⟨record, hrecord, -, hagrees, hsucc, -⟩ := hinv.inflight_record hpair
  rw [(handleCompletion_some hrecord).1, hagrees.client_eq]
  refine if_congr ?_ rfl rfl
  rw [← UInt32.toNat_inj, hsucc, hagrees.requested_eq]

theorem Invariant.completion :
    Invariant qid client candidates (state.track qid (.handleCompletion qid pid)) := by
  obtain ⟨record, hrecord, hlt, hagrees, hsucc, hle⟩ := hinv.inflight_record hpair
  have hvalid := perform_valid state.run (.handleCompletion qid pid) hinv.valid (Or.inl hpair)
  have hidle := perform_parkedIdle state.run (.handleCompletion qid pid) hinv.valid hinv.idle
  have hqueries := (handleCompletion_some hrecord).2
  have hlast : record.completedPartitions + 1 = record.candidatePartitions ↔
      state.done + 1 = candidates := by
    rw [← UInt32.toNat_inj, hsucc, hagrees.candidates_eq]
  have honce := hinv.once
  simp only [track, if_true, hinv.notification hpair]
  refine ⟨hvalid, hidle, hle, hinv.asked_le, ?_, ?_, ?_⟩
  · intro hmore
    simp only at hmore
    refine ⟨_, hqueries.trans (if_neg (hlast.not.mpr (by omega))), hagrees.client_eq,
      hagrees.candidates_eq, hagrees.requested_eq, hsucc, hagrees.scheduled_le⟩
  · intro hall
    exact hqueries.trans (if_pos (hlast.mpr hall))
  · rw [if_pos (by omega)] at honce
    by_cases hend : state.done + 1 = state.asked
    · simp [hend, honce]
    · have hmore : state.done + 1 < state.asked := by omega
      simp [hend, hmore, honce]

end

theorem Invariant.track (hinv : Invariant qid client candidates state) (operation : Operation)
    (hfollows : state.Follows qid candidates operation) :
    Invariant qid client candidates (state.track qid operation) := by
  have hvalid := perform_valid state.run operation hinv.valid hfollows.1
  have hidle := perform_parkedIdle state.run operation hinv.valid hinv.idle
  cases operation with
  | insert std contexts insertedBy candidatePartitions requestedPartitions inserted =>
    refine hinv.frame hvalid hidle ?_
    by_cases heq : contexts.begin.id = qid
    · obtain ⟨record, hrecord⟩ := Option.isSome_iff_exists.mp (hfollows.2 heq)
      rw [hrecord]
      exact insert_queries_of_some std _ inserted hrecord
    · exact insert_queries_of_ne std _ inserted (Ne.symm heq)
  | activate std other numPartitions =>
    by_cases heq : other = qid
    · subst heq
      exact hinv.activate std hfollows
    · rw [BatchRun.track, if_neg heq]
      refine hinv.frame hvalid hidle ?_
      exact (activate_queries std other qid numPartitions).trans (if_neg (Ne.symm heq))
  | removeQuery other =>
    refine hinv.frame hvalid hidle ?_
    exact (removeQuery_queries _ other qid).trans (if_neg (Ne.symm hfollows.2))
  | markPartitionErased pid =>
    refine hinv.frame hvalid hidle ?_
    exact congrFun (markPartitionErased_queries _ pid) qid
  | next => exact hinv.next
  | handleCompletion other pid =>
    by_cases heq : other = qid
    · subst heq
      exact hinv.completion (hfollows.2 rfl)
    · rw [BatchRun.track, if_neg heq]
      refine hinv.frame hvalid hidle ?_
      exact handleCompletion_queries_of_ne (Ne.symm heq)

end Steps

/-- The state right after a query was inserted. -/
def inserted (run : QueueRun) (std : PrioritySort) (contexts : TypeQueryContextMap)
    (client : Actor) (candidatePartitions requestedPartitions : UInt32)
    (candidates : CatalogLookupResult) : BatchRun where
  run := run.perform
    (.insert std contexts client candidatePartitions requestedPartitions candidates)
  asked := requestedPartitions.toNat
  batches := 1
  notified := 0
  done := 0

variable {client : Actor} {state : BatchRun} {candidates : Nat}

theorem invariant_inserted {run : QueueRun} (hvalid : run.Valid) (hidle : run.queue.ParkedIdle)
    {std : PrioritySort} {contexts : TypeQueryContextMap}
    {candidatePartitions requestedPartitions : UInt32} {candidates : CatalogLookupResult}
    (hlegal : run.Legal
      (.insert std contexts client candidatePartitions requestedPartitions candidates))
    (hinsert : (run.queue.insert std ⟨contexts, client, candidatePartitions,
      requestedPartitions, 0, 0⟩ candidates).1 = none) (hpos : 1 ≤ requestedPartitions.toNat)
    (hle : requestedPartitions.toNat ≤ candidatePartitions.toNat) :
    Invariant contexts.begin.id client candidatePartitions.toNat
      (inserted run std contexts client candidatePartitions requestedPartitions candidates) := by
  have hqueries : (run.queue.insert std ⟨contexts, client, candidatePartitions,
      requestedPartitions, 0, 0⟩ candidates).2.queries contexts.begin.id =
      some ⟨contexts, client, candidatePartitions, requestedPartitions, 0, 0⟩ := by
    rcases insert_eq_or std run.queue ⟨contexts, client, candidatePartitions,
      requestedPartitions, 0, 0⟩ candidates with ⟨-, _, hreject⟩ | ⟨-, haccept⟩
    · simp [hreject] at hinsert
    · simp [haccept]
  refine ⟨perform_valid run _ hvalid hlegal, perform_parkedIdle run _ hvalid hidle, ?_, hle,
    ?_, ?_, ?_⟩
  · exact Nat.zero_le _
  · intro _
    exact ⟨_, hqueries, rfl, rfl, rfl, rfl, Nat.zero_le _⟩
  · intro hzero
    simp only [inserted] at hzero
    omega
  · have hasks : 0 < requestedPartitions.toNat := hpos
    simp [inserted, hasks]

/-- The service that a client gets: the completion of the last partition it
asked for notifies it and no other one does, so that it hears once of every
batch; the queue does not run dry before a batch is complete; and the query
stays known until all candidates have completed. -/
structure Served (qid : Uuid) (client : Actor) (candidates : Nat) (state : BatchRun) : Prop where
  notifies : ∀ pid, (qid, pid) ∈ state.run.inflight →
    (state.run.queue.handleCompletion qid).1 =
      if state.done + 1 = state.asked then some client else none
  once : state.batches = state.notified + if state.done < state.asked then 1 else 0
  complete : ¬HandsOut qid state.run.queue → (∀ pid, (qid, pid) ∉ state.run.inflight) →
    state.done = state.asked
  gone : state.run.queue.queries qid = none ↔ state.done = candidates

theorem Invariant.complete (hinv : Invariant qid client candidates state)
    (hdry : ¬HandsOut qid state.run.queue) (hnone : ∀ pid, (qid, pid) ∉ state.run.inflight) :
    state.done = state.asked := by
  have hdone := hinv.done_le
  by_contra hne
  have hasked := hinv.asked_le
  obtain ⟨record, hrecord, hagrees⟩ := hinv.live (by omega)
  -- With nothing in flight the query may be scheduled, and it still waits somewhere.
  have hpend : state.run.pending qid = 0 := by
    refine List.countP_eq_zero.mpr fun pair hpair => ?_
    rw [decide_eq_true_eq]
    rintro rfl
    exact hnone pair.2 hpair
  have hsched := hinv.valid.accounted.scheduled_eq qid record hrecord
  have hcands := hinv.valid.accounted.candidates_eq qid record hrecord
  rw [hagrees.completed_eq] at hsched
  rw [hagrees.candidates_eq] at hcands
  have hrun : runnable state.run.queue.queries qid = true := by
    rw [runnable, hrecord]
    refine decide_eq_true (UInt32.lt_iff_toNat_lt.mpr ?_)
    rw [hagrees.requested_eq]
    omega
  obtain ⟨entry, hentry, hmem⟩ := queued_pos.mp
    (show 0 < queued state.run.queue.entries qid by omega)
  refine hdry (handsOut_of_runnable hinv.valid.accounted hrun ⟨entry, ?_, hmem⟩)
  rcases List.mem_append.mp hentry with hactive | hparked
  · exact hactive
  · exact absurd hmem (hinv.idle qid hrun entry hparked)

theorem Invariant.served (hinv : Invariant qid client candidates state) :
    Served qid client candidates state where
  notifies := fun _ hpair => hinv.notification hpair
  once := hinv.once
  complete := hinv.complete
  gone := by
    refine ⟨fun hnone => ?_, hinv.gone⟩
    by_contra hne
    have hdone := hinv.done_le
    have hasked := hinv.asked_le
    obtain ⟨record, hrecord, -⟩ := hinv.live (by omega)
    simp [hnone] at hrecord

/-- A query that enters a used queue is served, whatever the other queries do
and in whichever order its partitions complete. -/
theorem client_served (before : List Operation)
    (hbefore : Run.Admissible perform Legal {} before) (std : PrioritySort)
    (contexts : TypeQueryContextMap) (client : Actor)
    (candidatePartitions requestedPartitions : UInt32) (candidates : CatalogLookupResult)
    (hlegal : (before.foldl perform {}).Legal
      (.insert std contexts client candidatePartitions requestedPartitions candidates))
    (hinsert : ((before.foldl perform {}).queue.insert std ⟨contexts, client,
      candidatePartitions, requestedPartitions, 0, 0⟩ candidates).1 = none)
    (hpos : 1 ≤ requestedPartitions.toNat)
    (hle : requestedPartitions.toNat ≤ candidatePartitions.toNat) (after : List Operation)
    (hafter : Run.Admissible (track contexts.begin.id)
      (Follows contexts.begin.id candidatePartitions.toNat)
      (inserted (before.foldl perform {}) std contexts client candidatePartitions
        requestedPartitions candidates) after) :
    Served contexts.begin.id client candidatePartitions.toNat (after.foldl (track contexts.begin.id)
        (inserted (before.foldl perform {}) std contexts client candidatePartitions
          requestedPartitions candidates)) := by
  have hbase : (before.foldl perform {}).Valid ∧
      (before.foldl perform {}).queue.ParkedIdle := by
    refine Run.invariant (fun run : QueueRun => run.Valid ∧ run.queue.ParkedIdle)
      ?_ ⟨valid_empty, ?_⟩ hbefore
    · rintro run operation ⟨hvalid, hidle⟩ hstep
      exact ⟨perform_valid run operation hvalid hstep,
        perform_parkedIdle run operation hvalid hidle⟩
    · intro _ _ entry hentry
      cases hentry
  refine Invariant.served (Run.invariant _ ?_
    (invariant_inserted hbase.1 hbase.2 hlegal hinsert hpos hle) hafter)
  intro state operation hinv hfollows
  exact hinv.track operation hfollows

/-- Another query is queued first, on one of the two partitions. -/
def otherQuery : List Operation :=
  [.insert .insertion (sampleContexts 2 100) ⟨2⟩ 1 1 (sampleCandidates [12])]

def twoBatches : List Operation := [
  .next, .handleCompletion 1 12, .handleCompletion 2 12, .activate .insertion 1 1, .next,
  .handleCompletion 1 11 ]

/-- One partition per batch: the client is told twice, and served. -/
theorem client_served_twoBatches :
    Served 1 ⟨1⟩ 2 (twoBatches.foldl (track 1) (inserted (otherQuery.foldl perform {})
      .insertion (sampleContexts 1 25) ⟨1⟩ 2 1 (sampleCandidates [11, 12]))) ∧
      (twoBatches.foldl (track 1) (inserted (otherQuery.foldl perform {})
        .insertion (sampleContexts 1 25) ⟨1⟩ 2 1 (sampleCandidates [11, 12]))).notified = 2 :=
  ⟨client_served otherQuery (by decide) .insertion (sampleContexts 1 25) ⟨1⟩ 2 1
    (sampleCandidates [11, 12]) (by decide) (by decide) (by decide) (by decide) twoBatches
    (by decide), by decide⟩

end BatchRun

end Vast
