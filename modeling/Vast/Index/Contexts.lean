import Vast.Queue.Batches

/-! # Contexts for queued partitions

Every entry of the queue has the schema of its partition, and each query that
it lists has a context for that schema. This section also collects when a queue
that has nothing to offer stays that way.
-/

namespace Vast.QueryQueue

open Foundation List Option Entry

variable {queue : QueryQueue} {schemaOf : Uuid → VastType} {after : QueryQueue}

/-- Every entry has the schema of its partition, and the queries it lists have
a context for that schema. -/
def Fitting (schemaOf : Uuid → VastType) (queue : QueryQueue) : Prop :=
  ∀ entry ∈ queue.entries, entry.schema = schemaOf entry.partition ∧
    ∀ qid ∈ entry.queries, ∀ query, queue.queries qid = some query →
      (query.queryContextsPerType.find entry.schema).isSome

/-- The condition survives when entries lose queries and queries keep their
contexts. -/
theorem Fitting.mono (hfitting : queue.Fitting schemaOf)
    (hents : ∀ entry ∈ after.entries, ∃ origin ∈ queue.entries,
      entry.partition = origin.partition ∧ entry.schema = origin.schema ∧
        ∀ qid ∈ entry.queries, qid ∈ origin.queries)
    (hqueries : ∀ qid query, after.queries qid = some query → ∃ before,
      queue.queries qid = some before ∧
        query.queryContextsPerType = before.queryContextsPerType) : after.Fitting schemaOf := by
  intro entry hentry
  obtain ⟨origin, horigin, hpart, hschema, hsubset⟩ := hents entry hentry
  obtain ⟨hschema_eq, hctxs⟩ := hfitting origin horigin
  refine ⟨by rw [hschema, hpart, hschema_eq], ?_⟩
  intro qid hqid query hquery
  obtain ⟨before, hbefore, heq⟩ := hqueries qid query hquery
  rw [heq, hschema]
  exact hctxs qid (hsubset qid hqid) before hbefore

theorem Trims.fitting (htrims : Trims queue after) (hfitting : queue.Fitting schemaOf) :
    after.Fitting schemaOf := by
  refine hfitting.mono ?_ ?_
  · intro kept hkept
    rcases mem_append.mp hkept with hactive | hparked
    · obtain ⟨entry, hentry, horigin⟩ := htrims.partitions.origin kept hactive
      exact ⟨entry, mem_append_left _ hentry, horigin⟩
    · obtain ⟨entry, hentry, horigin⟩ := htrims.inactivePartitions.origin kept hparked
      exact ⟨entry, mem_append_right _ hentry, horigin⟩
  · intro qid query hquery
    obtain ⟨before, hbefore, hctxs, -⟩ := htrims.queries qid query hquery
    exact ⟨before, hbefore, hctxs⟩

theorem activate_fitting (std : PrioritySort) (qid : Uuid) (numPartitions : UInt32)
    (hfitting : queue.Fitting schemaOf) :
    (queue.activate std qid numPartitions).2.Fitting schemaOf := by
  refine hfitting.mono ?_ ?_
  · intro entry hentry
    have hmem := (activate_entries_perm std queue qid numPartitions).mem_iff.mp hentry
    exact ⟨entry, hmem, rfl, rfl, fun _ => id⟩
  · intro other query hquery
    rw [activate_queries] at hquery
    split at hquery
    next heq =>
      obtain ⟨before, hbefore, rfl⟩ := map_eq_some_iff.mp hquery
      exact ⟨before, heq ▸ hbefore, rfl⟩
    · exact ⟨query, hquery, rfl⟩

section

variable (hnodup : ∀ entry ∈ queue.entries, entry.queries.Nodup)

include hnodup

theorem next_fitting (hfitting : queue.Fitting schemaOf) : queue.next.2.Fitting schemaOf := by
  refine hfitting.mono (fun entry hentry => ?_) fun qid query hquery => ?_
  swap
  · rw [next_queries hnodup] at hquery
    split at hquery
    · obtain ⟨before, hbefore, rfl⟩ := map_eq_some_iff.mp hquery
      exact ⟨before, hbefore, rfl⟩
    · exact ⟨query, hquery, rfl⟩
  have hparked : ∀ origin : Entry, origin.inactive queue.queries = some entry →
      entry.partition = origin.partition ∧ entry.schema = origin.schema ∧
        ∀ qid ∈ entry.queries, qid ∈ origin.queries := by
    intro origin hsplit
    obtain ⟨hpart, hschema, hqueries⟩ := inactive_some hsplit
    refine ⟨hpart, hschema, ?_⟩
    intro qid hqid
    rw [hqueries] at hqid
    exact mem_of_mem_filter hqid
  have hout := next_outcome queue
  generalize queue.next = outcome at hout hentry
  cases hout with
  | idle =>
    simp only [entries, nil_append, mem_append] at hentry
    rcases hentry with hmem | hmem
    · exact ⟨entry, mem_append_right _ hmem, rfl, rfl, fun _ => id⟩
    · obtain ⟨origin, horigin, hsplit⟩ := mem_filterMap.mp hmem
      exact ⟨origin, mem_append_left _ (mem_reverse.mp horigin), hparked origin hsplit⟩
  | taken rest taken skipped hparts =>
    simp only [entries, mem_append] at hentry
    rcases hentry with hmem | hmem | hmem
    · exact ⟨entry, by simp [entries, hparts, hmem], rfl, rfl, fun _ => id⟩
    · exact ⟨entry, mem_append_right _ hmem, rfl, rfl, fun _ => id⟩
    · obtain ⟨origin, horigin, hsplit⟩ := mem_filterMap.mp hmem
      refine ⟨origin, mem_append_left _ ?_, hparked origin hsplit⟩
      rw [hparts]
      exact mem_append_right _ (mem_reverse.mp horigin)

theorem next_contexts {active : Entry}
    (hfitting : queue.Fitting schemaOf) (hnext : queue.next.1 = some active) :
    active.queries ≠ [] ∧ active.queries.Nodup ∧ ∀ qid ∈ active.queries,
      ∃ query, queue.next.2.queries qid = some query ∧
        (query.queryContextsPerType.find active.schema).isSome := by
  have hafter := next_queries hnodup
  have hout := next_outcome queue
  generalize queue.next = outcome at hout hnext hafter
  cases hout with
  | idle => cases hnext
  | taken rest entry skipped hparts hskipped hrunnable =>
    cases hnext
    have hentry : entry ∈ queue.entries := by simp [entries, hparts]
    refine ⟨?_, (hnodup entry hentry).filter _, ?_⟩
    · intro hempty
      exact (active_queries_isEmpty queue.queries entry).mp (by simp [hempty]) hrunnable
    · intro qid hqid
      obtain ⟨hlisted, hrun⟩ := mem_active_queries.mp hqid
      rw [hafter, if_pos ⟨_, rfl, hqid⟩]
      cases hquery : queue.queries qid with
      | none => simp [runnable, hquery] at hrun
      | some query => exact ⟨_, rfl, (hfitting entry hentry).2 qid hlisted query hquery⟩

end

theorem insert_fitting (std : PrioritySort) {state : QueryState} {candidates : CatalogLookupResult}
    {inflight : Uuid → Nat} (hacc : Accounted queue.queries queue.entries inflight)
    (hschema : ∀ candidate ∈ candidates.candidates, candidate.1 = schemaOf candidate.2.uuid ∧
        (state.queryContextsPerType.find candidate.1).isSome) (hfitting : queue.Fitting schemaOf) :
    (queue.insert std state candidates).2.Fitting schemaOf := by
  rcases insert_cases std state candidates hacc.partitions_nodup with
    hsame | ⟨-, hunknown, hqueries, hperm⟩
  · rw [hsame]
    exact hfitting
  intro entry hentry
  rw [hqueries]
  refine foldl_addCandidate_forall (fun entry => entry.schema = schemaOf entry.partition ∧
    ∀ qid ∈ entry.queries, ∀ query, Function.update queue.queries _ _ qid = some query →
      (query.queryContextsPerType.find entry.schema).isSome) ?_ ?_ ?_ entry
    (hperm.mem_iff.mp hentry)
  · intro origin horigin
    refine ⟨(hfitting origin horigin).1, fun other hother query hquery => ?_⟩
    have hne : other ≠ state.queryContextsPerType.begin.id := by
      rintro rfl
      have hknown := hacc.known origin horigin _ hother
      simp [hunknown] at hknown
    rw [Function.update_of_ne hne] at hquery
    exact (hfitting origin horigin).2 other hother query hquery
  · intro candidate hcand added hpid hsingle hadded_schema _
    obtain ⟨hcandidate_schema, hctx⟩ := hschema candidate hcand
    refine ⟨by rw [hadded_schema, hpid, hcandidate_schema], fun other hother query hquery => ?_⟩
    rw [hsingle, mem_singleton] at hother
    rw [hother, Function.update_self, some.injEq] at hquery
    rw [hadded_schema, ← hquery]
    exact hctx
  · -- A known partition has the schema that the candidate is listed under.
    rintro candidate hcand origin horigin_pid ⟨horigin_schema, hctxs⟩
    obtain ⟨hcandidate_schema, hctx⟩ := hschema candidate hcand
    refine ⟨horigin_schema, fun other hother query hquery => ?_⟩
    rcases mem_append.mp hother with hold | hnew
    · exact hctxs other hold query hquery
    · rw [mem_singleton.mp hnew, Function.update_self, some.injEq] at hquery
      change (query.queryContextsPerType.find origin.schema).isSome = true
      rw [← hquery, horigin_schema, horigin_pid, ← hcandidate_schema]
      exact hctx

theorem Trims.next_none (htrims : Trims queue after) (hnone : queue.next.1 = none) :
    after.next.1 = none := by
  rw [next_eq_none_iff] at hnone ⊢
  rintro kept hkept ⟨qid, hqid, hrun⟩
  obtain ⟨entry, hentry, -, -, hqueries⟩ := htrims.partitions.origin kept hkept
  exact hnone entry hentry ⟨qid, hqueries qid hqid, htrims.runnable hrun⟩

end Vast.QueryQueue
