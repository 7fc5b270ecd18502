import Mathlib.Algebra.BigOperators.Group.List.Basic
import Vast.Queue.Run

/-! # Priorities of queue entries

Every entry stores the sum of the priorities of its queries, and the active
list is sorted by the stored numbers. Removing a query takes it out of its
entries but leaves their stored priority as it is, so the sums are exact as
long as no removed query shares an entry with another one.
-/

namespace Vast.QueryQueue

open Foundation List Entry

/-- The sum of the priorities of the queries that an entry lists. -/
def Entry.prioritySum (queries : Uuid → Option QueryState) (entry : Entry) : UInt64 :=
  (entry.queries.map (queryPriority queries)).sum

def PrioritiesExact (queue : QueryQueue) : Prop :=
  ∀ entry ∈ queue.entries, entry.priority = entry.prioritySum queue.queries

/-- Whenever `next` returns an entry, no active entry with a query to schedule
has a larger sum than the one it was taken from. -/
def NextHasMaximalSum (queue : QueryQueue) : Prop :=
  ∀ active, queue.next.1 = some active → ∃ entry ∈ queue.partitions,
    active = entry.active queue.queries ∧ ∀ other ∈ queue.partitions,
      other.Runnable queue.queries →
        other.prioritySum queue.queries ≤ entry.prioritySum queue.queries

instance (queries : Uuid → Option QueryState) (entry : Entry) :
    Decidable (entry.Runnable queries) :=
  decidable_of_iff (entry.queries.any (runnable queries) = true) List.any_eq_true

instance (queue : QueryQueue) : Decidable queue.PrioritiesExact :=
  inferInstanceAs (Decidable (∀ entry ∈ queue.entries, _))

instance (queue : QueryQueue) : Decidable queue.NextHasMaximalSum :=
  decidable_of_iff (∀ active ∈ queue.next.1, ∃ entry ∈ queue.partitions,
    active = entry.active queue.queries ∧ ∀ other ∈ queue.partitions,
      other.Runnable queue.queries →
        other.prioritySum queue.queries ≤ entry.prioritySum queue.queries) Iff.rfl

def Sorted (queue : QueryQueue) : Prop :=
  queue.partitions.Pairwise fun left right => left.priority ≤ right.priority

variable {entry : Entry}

theorem Entry.prioritySum_congr {queries updated : Uuid → Option QueryState}
    (hsame : ∀ qid ∈ entry.queries, queryPriority updated qid = queryPriority queries qid) :
    entry.prioritySum updated = entry.prioritySum queries := by
  rw [prioritySum, prioritySum, map_congr_left hsame]

variable {qid : Uuid}

variable {queries : Uuid → Option QueryState}

variable {queue : QueryQueue} {inflight : Uuid → Nat}

variable (std : PrioritySort)

theorem insert_exact (state : QueryState) (candidates : CatalogLookupResult)
    (hacc : Accounted queue.queries queue.entries inflight)
    (hexact : queue.PrioritiesExact) : (queue.insert std state candidates).2.PrioritiesExact := by
  rcases insert_cases std state candidates hacc.partitions_nodup with
    hsame | ⟨-, hunknown, hqueries, hperm⟩
  · rw [hsame]
    exact hexact
  intro entry hentry
  rw [hqueries]
  have hpriority : queryPriority (Function.update queue.queries
      state.queryContextsPerType.begin.id (some state)) state.queryContextsPerType.begin.id =
      state.priority := by
    simp [queryPriority]
  refine foldl_addCandidate_forall (fun entry => entry.priority = entry.prioritySum _) ?_ ?_ ?_
    entry (hperm.mem_iff.mp hentry)
  · -- The new query is unknown, so no entry lists it yet.
    intro origin horigin
    rw [hexact origin horigin]
    refine (prioritySum_congr fun qid hqid => ?_).symm
    have hknown := hacc.known origin horigin qid hqid
    have hne : qid ≠ state.queryContextsPerType.begin.id := by
      rintro rfl
      simp [hunknown] at hknown
    simp [queryPriority, hne]
  · intro _ _ added _ hsingle _ hstored
    simp [prioritySum, hsingle, hstored, hpriority]
  · intro _ _ origin _ horigin
    simp only [addQuery, prioritySum, map_append, sum_append, map_cons, map_nil, sum_cons,
      sum_nil, hpriority] at horigin ⊢
    rw [horigin, UInt64.add_zero]

theorem activate_exact (qid : Uuid) (numPartitions : UInt32) (hexact : queue.PrioritiesExact) :
    (queue.activate std qid numPartitions).2.PrioritiesExact := by
  intro entry hentry
  rw [(activate_entries_perm std queue qid numPartitions).mem_iff] at hentry
  rw [hexact entry hentry]
  refine (prioritySum_congr fun other _ => ?_).symm
  cases hstate : queue.queries qid with
  | none => simp [activate, hstate]
  | some state =>
    by_cases heq : other = qid
    · subst heq
      simp [activate, queryPriority, QueryState.priority, hstate]
    · simp [activate, queryPriority, hstate, heq]

theorem markPartitionErased_exact (pid : Uuid)
    (hnodup : (queue.entries.map Entry.partition).Nodup) (hexact : queue.PrioritiesExact) :
    (queue.markPartitionErased pid).2.PrioritiesExact := by
  intro entry hentry
  rw [markPartitionErased_entries queue pid hnodup] at hentry
  rw [markPartitionErased_queries]
  obtain ⟨origin, horigin, rfl⟩ := mem_map.mp hentry
  have horigin_exact := hexact origin horigin
  split <;> exact horigin_exact

theorem Entry.inactive_exact {entry parked : Entry}
    (hparked : entry.inactive queries = some parked) :
    parked.priority = parked.prioritySum queries := by
  unfold inactive at hparked
  simp only at hparked
  split at hparked
  · exact absurd hparked (by simp)
  · rw [← Option.some.inj hparked]
    rfl

theorem queryPriority_foldl_schedule {ids : List Uuid} (hnodup : ids.Nodup)
    (queries : Uuid → Option QueryState) (qid : Uuid) :
    queryPriority (ids.foldl schedule queries) qid = queryPriority queries qid := by
  simp only [queryPriority, foldl_schedule hnodup]
  by_cases hmem : qid ∈ ids
  · cases hquery : queries qid <;> simp [hmem, QueryState.priority]
  · simp [hmem]

/-- Parked entries get a fresh sum, and the other entries stay. -/
theorem next_exact (hacc : Accounted queue.queries queue.entries inflight)
    (hexact : queue.PrioritiesExact) : queue.next.2.PrioritiesExact := by
  have hout := next_outcome queue
  generalize queue.next = outcome at hout ⊢
  cases hout with
  | idle hidle =>
    intro entry hentry
    simp only [entries, nil_append, mem_append] at hentry
    rcases hentry with hmem | hmem
    · exact hexact entry (mem_append_right _ hmem)
    · obtain ⟨origin, -, hparked⟩ := mem_filterMap.mp hmem
      exact inactive_exact hparked
  | taken rest entry skipped hparts hskipped hrun =>
    have hids : (entry.active queue.queries).queries.Nodup :=
      (hacc.queries_nodup entry (by simp [entries, hparts])).filter _
    intro other hother
    rw [prioritySum_congr fun qid _ => queryPriority_foldl_schedule hids _ qid]
    simp only [entries, mem_append] at hother
    rcases hother with hmem | hmem | hmem
    · exact hexact other (by simp [entries, hparts, hmem])
    · exact hexact other (mem_append_right _ hmem)
    · obtain ⟨origin, -, hparked⟩ := mem_filterMap.mp hmem
      exact inactive_exact hparked

theorem handleCompletion_exact (qid : Uuid) (hacc : Accounted queue.queries queue.entries inflight)
    (hinflight : (queue.queries qid).isSome → 0 < inflight qid)
    (hexact : queue.PrioritiesExact) : (queue.handleCompletion qid).2.PrioritiesExact := by
  cases hstate : queue.queries qid with
  | none =>
    simp only [handleCompletion, hstate]
    exact hexact
  | some state =>
    simp only [handleCompletion, hstate]
    split
    next hlast =>
      -- A query that is done is listed nowhere.
      have hzero := (hacc.last_completion hstate (hinflight (by simp [hstate])) hlast).1
      intro entry hentry
      rw [hexact entry hentry]
      refine (prioritySum_congr fun other hother => ?_).symm
      have hne : other ≠ qid := by
        rintro rfl
        exact queued_eq_zero.mp hzero entry hentry hother
      simp [queryPriority, hne]
    · intro entry hentry
      rw [hexact entry hentry]
      refine (prioritySum_congr fun other _ => ?_).symm
      by_cases heq : other = qid
      · subst heq
        simp [queryPriority, QueryState.priority, hstate]
      · simp [queryPriority, heq]

/-! ## Removing a query -/

/-- A removed query leaves all sums intact if it does not count or is alone in
its entries. -/
def RemovalKeepsSums (queue : QueryQueue) (qid : Uuid) : Prop :=
  queryPriority queue.queries qid = 0 ∨
    ∀ entry ∈ queue.entries, qid ∈ entry.queries → entry.queries = [qid]

instance (queue : QueryQueue) (qid : Uuid) : Decidable (queue.RemovalKeepsSums qid) := by
  unfold RemovalKeepsSums
  infer_instance

/-- The priority that an entry keeps after a removal is its sum exactly if the
query was not listed or does not count. -/
theorem Entry.removeQuery_exact_iff {entry kept : Entry} (hnodup : entry.queries.Nodup)
    (hexact : entry.priority = entry.prioritySum queries)
    (hkept : entry.removeQuery qid = some kept) :
    kept.priority = kept.prioritySum (Function.update queries qid none) ↔
      (qid ∈ entry.queries → queryPriority queries qid = 0) := by
  obtain rfl := removeQuery_some hkept
  have hcongr : prioritySum (Function.update queries qid none)
      { entry with queries := entry.queries.erase qid } =
      prioritySum queries { entry with queries := entry.queries.erase qid } := by
    refine prioritySum_congr fun other hother => ?_
    simp [queryPriority, (hnodup.mem_erase_iff.mp hother).1]
  rw [hcongr]
  by_cases hmem : qid ∈ entry.queries
  · simp only [hmem, forall_const]
    rw [hexact, prioritySum, ← sum_map_erase (queryPriority queries) hmem]
    exact UInt64.add_eq_right
  · simp only [hmem, false_implies, erase_of_not_mem hmem, iff_true]
    exact hexact

theorem removeQuery_exact_iff (qid : Uuid) (hacc : Accounted queue.queries queue.entries inflight)
    (hexact : queue.PrioritiesExact) :
    (queue.removeQuery qid).2.PrioritiesExact ↔ queue.RemovalKeepsSums qid := by
  cases hstate : queue.queries qid with
  | none =>
    have hkeeps : queue.RemovalKeepsSums qid := Or.inl (by simp [queryPriority, hstate])
    simp only [removeQuery, hstate, hkeeps, iff_true]
    exact hexact
  | some state =>
    have hents : (queue.removeQuery qid).2.entries =
        queue.entries.filterMap (Entry.removeQuery qid) := by
      simp [removeQuery, hstate, entries]
    have hqueries : (queue.removeQuery qid).2.queries =
        Function.update queue.queries qid none := by
      simp [removeQuery, hstate]
    unfold PrioritiesExact
    rw [hents, hqueries]
    constructor
    · intro hafter
      by_cases hzero : queryPriority queue.queries qid = 0
      · exact Or.inl hzero
      right
      intro entry hentry hmem
      have hnodup := hacc.queries_nodup entry hentry
      cases hremove : entry.removeQuery qid with
      | none =>
        have hperm := perm_cons_erase hmem
        rw [removeQuery_none hremove] at hperm
        exact perm_singleton.mp hperm
      | some kept =>
        have hkept := hafter kept (mem_filterMap.mpr ⟨entry, hentry, hremove⟩)
        exact absurd ((Entry.removeQuery_exact_iff hnodup (hexact entry hentry)
          hremove).mp hkept hmem) hzero
    · intro hkeeps kept hkept
      obtain ⟨entry, hentry, hremove⟩ := mem_filterMap.mp hkept
      have hnodup := hacc.queries_nodup entry hentry
      refine (Entry.removeQuery_exact_iff hnodup (hexact entry hentry) hremove).mpr ?_
      intro hmem
      rcases hkeeps with hzero | halone
      · exact hzero
      · -- An entry that lists only the removed query is dropped.
        have hqueries := halone entry hentry hmem
        simp [Entry.removeQuery, hqueries] at hremove

/-! ## The order of the active list -/

section

variable (hsorted : queue.Sorted)

include hsorted

theorem next_sorted : queue.next.2.Sorted := by
  have hout := next_outcome queue
  generalize queue.next = outcome at hout ⊢
  cases hout with
  | idle => exact Pairwise.nil
  | taken rest entry skipped hparts =>
    unfold Sorted at hsorted ⊢
    rw [hparts] at hsorted
    exact (pairwise_append.mp hsorted).1

theorem Trims.sorted {after : QueryQueue} (htrims : Trims queue after) : after.Sorted := by
  unfold Sorted at hsorted ⊢
  rw [← pairwise_map (f := priority) (R := (· ≤ ·))] at hsorted ⊢
  exact hsorted.sublist htrims.partitions.priorities

theorem activate_sorted (qid : Uuid) (numPartitions : UInt32) :
    (queue.activate std qid numPartitions).2.Sorted := by
  cases hstate : queue.queries qid with
  | none => simpa [activate, hstate] using hsorted
  | some state =>
    simp only [activate, hstate]
    exact std.sorted _

theorem insert_sorted (state : QueryState) (candidates : CatalogLookupResult) :
    (queue.insert std state candidates).2.Sorted := by
  rcases insert_eq_or std queue state candidates with ⟨-, _, hreject⟩ | ⟨-, hinsert⟩
  · rw [hreject]
    exact hsorted
  · rw [hinsert]
    exact std.sorted _

/-- In a sorted list with exact sums, the last entry that can be scheduled has
the largest sum of those. -/
theorem nextHasMaximalSum (hexact : queue.PrioritiesExact) : queue.NextHasMaximalSum := by
  intro active hactive
  have hout := next_outcome queue
  generalize queue.next = outcome at hout hactive
  cases hout with
  | idle => cases hactive
  | taken rest entry skipped hparts hskipped hrun =>
    cases hactive
    have hentry : entry ∈ queue.partitions := by simp [hparts]
    refine ⟨entry, hentry, rfl, ?_⟩
    intro other hother hother_runnable
    rw [← hexact entry (mem_append_left _ hentry), ← hexact other (mem_append_left _ hother)]
    rw [hparts, mem_append, mem_cons] at hother
    rcases hother with hrest | rfl | hskip
    · unfold Sorted at hsorted
      rw [hparts] at hsorted
      exact (pairwise_append.mp hsorted).2.2 other hrest entry mem_cons_self
    · exact UInt64.le_refl _
    · exact absurd hother_runnable (hskipped other hskip)

end

end Vast.QueryQueue

namespace Vast.QueueRun

open Foundation QueryQueue

/-- Removals are the operations that can put the sums out of date. -/
def KeepsSums (run : QueueRun) : Operation → Prop
  | .removeQuery qid => run.queue.RemovalKeepsSums qid
  | _ => True

instance (run : QueueRun) : ∀ operation, Decidable (run.KeepsSums operation)
  | .insert .. | .activate .. | .markPartitionErased _ | .next | .handleCompletion .. =>
    isTrue trivial
  | .removeQuery qid => inferInstanceAs (Decidable (run.queue.RemovalKeepsSums qid))

theorem perform_sorted (run : QueueRun) (operation : Operation) (hsorted : run.queue.Sorted) :
    (run.perform operation).queue.Sorted := by
  cases operation with
  | insert => exact insert_sorted _ hsorted _ _
  | activate => exact activate_sorted _ hsorted _ _
  | removeQuery => exact Trims.sorted hsorted (trims_removeQuery _ _)
  | markPartitionErased => exact Trims.sorted hsorted (trims_markPartitionErased _ _)
  | next => exact next_sorted hsorted
  | handleCompletion => exact Trims.sorted hsorted (trims_handleCompletion _ _)

/-- Exact sums stay exact in one step unless the step removes a query that
counts and shares an entry. -/
theorem perform_exact_iff (run : QueueRun) (operation : Operation) (hvalid : run.Valid)
    (hlegal : run.Legal operation) (hexact : run.queue.PrioritiesExact) :
    (run.perform operation).queue.PrioritiesExact ↔ run.KeepsSums operation := by
  cases operation with
  | insert => exact iff_of_true (insert_exact _ _ _ hvalid.accounted hexact) trivial
  | activate => exact iff_of_true (activate_exact _ _ _ hexact) trivial
  | removeQuery qid => exact removeQuery_exact_iff qid hvalid.accounted hexact
  | markPartitionErased =>
    exact iff_of_true
      (markPartitionErased_exact _ hvalid.accounted.partitions_nodup hexact) trivial
  | next => exact iff_of_true (next_exact hvalid.accounted hexact) trivial
  | handleCompletion qid pid =>
    refine iff_of_true (handleCompletion_exact qid hvalid.accounted ?_ hexact) trivial
    intro hsome
    rcases hlegal with hmem | hnone
    · exact pending_pos hmem
    · simp [hnone] at hsome

/-- Throughout a run, the stored priorities are exact and `next` goes by the
actual sums, if and only if every removal concerns a query that does not count
or that is alone in all entries that list it. -/
theorem priorities_exact_iff (operations : List Operation)
    (hrun : Run.Admissible perform Legal {} operations) : (∀ done rest, operations = done ++ rest →
      (done.foldl perform {}).queue.PrioritiesExact ∧
        (done.foldl perform {}).queue.NextHasMaximalSum) ↔
      Run.Admissible perform KeepsSums {} operations := by
  have hstep : ∀ (run : QueueRun) operation, run.Valid ∧ run.queue.Sorted →
      run.Legal operation → (run.perform operation).Valid ∧
        (run.perform operation).queue.Sorted :=
    fun run operation hinv hlegal =>
      ⟨perform_valid run operation hinv.1 hlegal, perform_sorted run operation hinv.2⟩
  refine Run.forall_prefix_iff (fun run : QueueRun =>
    run.queue.PrioritiesExact ∧ run.queue.NextHasMaximalSum) hstep ?_
    ⟨valid_empty, List.Pairwise.nil⟩ ?_ hrun
  · rintro run operation ⟨hvalid, hsorted⟩ hlegal ⟨hexact, -⟩
    rw [← perform_exact_iff run operation hvalid hlegal hexact]
    refine ⟨And.left, fun hafter => ⟨hafter, ?_⟩⟩
    exact nextHasMaximalSum (perform_sorted run operation hsorted) hafter
  · exact ⟨by decide, by decide⟩

/-- The priorities stay exact in every state of the sample run. -/
theorem priorities_exact_sample : Run.Admissible perform Legal {} sampleOperations ∧
      ∀ done rest, sampleOperations = done ++ rest → (done.foldl perform {}).queue.PrioritiesExact ∧
          (done.foldl perform {}).queue.NextHasMaximalSum :=
  ⟨by decide, (priorities_exact_iff sampleOperations (by decide)).mpr (by decide)⟩

/-- A high priority query is removed from the partition that it shares with a
low priority one, while a normal query waits for another partition. -/
def staleOperations : List Operation := [
  .insert .insertion (sampleContexts 1 1) ⟨1⟩ 1 1 (sampleCandidates [11]),
  .insert .insertion (sampleContexts 2 100) ⟨2⟩ 1 1 (sampleCandidates [11]),
  .insert .insertion (sampleContexts 3 25) ⟨3⟩ 1 1 (sampleCandidates [12]),
  .removeQuery 2 ]

/-- The shared partition keeps the priority of both queries and is handed out
before the partition of the normal query. -/
theorem removed_priority_counts : Run.Admissible perform Legal {} staleOperations ∧
      (staleOperations.foldl perform {}).queue.partitions.map (fun entry =>
        (entry.partition, entry.priority, entry.prioritySum
          (staleOperations.foldl perform {}).queue.queries)) = [(12, 25, 25), (11, 101, 1)] ∧
      ¬(staleOperations.foldl perform {}).queue.PrioritiesExact ∧
      ¬(staleOperations.foldl perform {}).queue.NextHasMaximalSum :=
  ⟨by decide, by decide, by decide, by decide⟩

end Vast.QueueRun
