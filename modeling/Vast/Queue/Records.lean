import Vast.Queue.Entries

/-! # Records of the queries

How the operations of the queue change what it knows about each query.
-/

namespace Vast.QueryQueue

open Foundation KeyedList Option List

variable {queue : QueryQueue} {qid other : Uuid} {std : PrioritySort} {state : QueryState}

theorem insert_queries_of_some (std : PrioritySort) (state : QueryState)
    (candidates : CatalogLookupResult) {found : QueryState}
    (hfound : queue.queries qid = some found) :
    (queue.insert std state candidates).2.queries qid = some found := by
  rcases insert_eq_or std queue state candidates with ⟨-, _, hreject⟩ | ⟨⟨-, -, hunknown⟩, hinsert⟩
  · rw [hreject]
    exact hfound
  · have hne : qid ≠ state.queryContextsPerType.begin.id := by
      rintro rfl
      simp [hunknown] at hfound
    simp [hinsert, hne, hfound]

theorem insert_queries_of_ne (std : PrioritySort) (state : QueryState)
    (candidates : CatalogLookupResult) (hne : qid ≠ state.queryContextsPerType.begin.id) :
    (queue.insert std state candidates).2.queries qid = queue.queries qid := by
  rcases insert_eq_or std queue state candidates with ⟨-, _, hreject⟩ | ⟨-, hinsert⟩
  · rw [hreject]
  · simp [hinsert, hne]

theorem insert_queries_none {candidates : CatalogLookupResult}
    (hnone : (queue.insert std state candidates).2.queries qid = none) :
    queue.queries qid = none := by
  cases hfound : queue.queries qid with
  | none => rfl
  | some found => simp [insert_queries_of_some std state candidates hfound] at hnone

theorem activate_queries (std : PrioritySort) (qid other : Uuid) (numPartitions : UInt32) :
    (queue.activate std qid numPartitions).2.queries other =
      if other = qid then (queue.queries qid).map fun state => { state with
        requestedPartitions := state.requestedPartitions + numPartitions }
      else queue.queries other := by
  cases hstate : queue.queries qid with
  | none =>
    simp only [activate, hstate, map_none]
    split
    next heq => rw [heq, hstate]
    · rfl
  | some state => simp [activate, hstate, Function.update_apply]

theorem activate_queries_none {numPartitions : UInt32}
    (hnone : (queue.activate std qid numPartitions).2.queries other = none) :
    queue.queries other = none := by
  rw [activate_queries] at hnone
  split at hnone
  next heq =>
    rw [heq]
    exact map_eq_none_iff.mp hnone
  · exact hnone

theorem removeQuery_queries (queue : QueryQueue) (qid other : Uuid) :
    (queue.removeQuery qid).2.queries other =
      if other = qid then none else queue.queries other := by
  cases hstate : queue.queries qid with
  | none =>
    simp only [removeQuery, hstate]
    split
    next heq => rw [heq, hstate]
    · rfl
  | some state => simp [removeQuery, hstate, Function.update_apply]

theorem next_queries (hnodup : ∀ entry ∈ queue.entries, entry.queries.Nodup) (qid : Uuid) :
    queue.next.2.queries qid =
      if ∃ active ∈ queue.next.1, qid ∈ active.queries then
        (queue.queries qid).map fun state => { state with
          scheduledPartitions := state.scheduledPartitions + 1 }
      else queue.queries qid := by
  have hout := next_outcome queue
  generalize queue.next = outcome at hout ⊢
  cases hout with
  | idle => simp
  | taken rest entry skipped hparts =>
    have hids : (entry.active queue.queries).queries.Nodup :=
      (hnodup entry (by simp [entries, hparts])).filter _
    simp only [foldl_schedule hids]
    simp

theorem mem_next_runnable {active : Entry} (hactive : active ∈ queue.next.1)
    (hmem : qid ∈ active.queries) : runnable queue.queries qid = true ∧
      ∃ entry ∈ queue.partitions, qid ∈ entry.queries := by
  have hout := next_outcome queue
  generalize queue.next = outcome at hout hactive
  cases hout with
  | idle => simp at hactive
  | taken rest entry skipped hparts =>
    cases hactive
    obtain ⟨hlisted, hrun⟩ := Entry.mem_active_queries.mp hmem
    exact ⟨hrun, entry, by simp [hparts], hlisted⟩

theorem next_queries_none (hnodup : ∀ entry ∈ queue.entries, entry.queries.Nodup)
    (hnone : queue.next.2.queries qid = none) : queue.queries qid = none := by
  rw [next_queries hnodup] at hnone
  split at hnone
  · exact map_eq_none_iff.mp hnone
  · exact hnone

theorem handleCompletion_some (hstate : queue.queries qid = some state) :
    (queue.handleCompletion qid).1 =
        (if state.completedPartitions + 1 = state.requestedPartitions then some state.client
          else none) ∧
      (queue.handleCompletion qid).2.queries qid =
        (if state.completedPartitions + 1 = state.candidatePartitions then none
          else some { state with completedPartitions := state.completedPartitions + 1 }) := by
  simp only [handleCompletion, hstate]
  split <;> simp

theorem handleCompletion_queries_of_ne (hne : other ≠ qid) :
    (queue.handleCompletion qid).2.queries other = queue.queries other := by
  cases hstate : queue.queries qid with
  | none => simp [handleCompletion, hstate]
  | some state =>
    simp only [handleCompletion, hstate]
    split <;> simp [hne]

theorem handleCompletion_queries_none
    (hnone : (queue.handleCompletion qid).2.queries other = none) :
    queue.queries other = none ∨ (other = qid ∧ ∃ state, queue.queries qid = some state ∧
      state.completedPartitions + 1 = state.candidatePartitions) := by
  by_cases heq : other = qid
  · subst heq
    cases hstate : queue.queries other with
    | none => exact Or.inl rfl
    | some state =>
      refine Or.inr ⟨rfl, state, rfl, ?_⟩
      rw [(handleCompletion_some hstate).2] at hnone
      by_contra hlast
      rw [if_neg hlast] at hnone
      cases hnone
  · rw [handleCompletion_queries_of_ne heq] at hnone
    exact Or.inl hnone

/-! ## Operations that take away -/

/-- Entries leave a list or lose queries. -/
structure Trimmed (after before : List Entry) : Prop where
  origin : ∀ kept ∈ after, ∃ entry ∈ before, kept.partition = entry.partition ∧
    kept.schema = entry.schema ∧ ∀ qid ∈ kept.queries, qid ∈ entry.queries
  priorities : (after.map Entry.priority).Sublist (before.map Entry.priority)

theorem Trimmed.refl (entries : List Entry) : Trimmed entries entries :=
  ⟨fun kept hkept => ⟨kept, hkept, rfl, rfl, fun _ => id⟩, Sublist.refl _⟩

theorem trimmed_removeQuery (qid : Uuid) (entries : List Entry) :
    Trimmed (entries.filterMap (Entry.removeQuery qid)) entries where
  origin := by
    intro kept hkept
    obtain ⟨entry, hentry, hremove⟩ := mem_filterMap.mp hkept
    rw [Entry.removeQuery_some hremove]
    exact ⟨entry, hentry, rfl, rfl, fun _ => mem_of_mem_erase⟩
  priorities := by
    apply map_filterMap_sublist
    intro entry kept hremove
    rw [Entry.removeQuery_some hremove]

theorem trimmed_erase (entries : List Entry) (index : Nat) :
    Trimmed (entries.modify index fun entry => { entry with erased := true }) entries where
  origin := by
    intro kept hkept
    have hmem := mem_map_of_mem (f := fun entry : Entry =>
      (entry.partition, entry.schema, entry.queries)) hkept
    rw [map_modify] at hmem
    · obtain ⟨entry, hentry, heq⟩ := mem_map.mp hmem
      simp only [Prod.mk.injEq] at heq
      exact ⟨entry, hentry, heq.1.symm, heq.2.1.symm, fun qid hqid => heq.2.2 ▸ hqid⟩
    · exact fun _ => rfl
  priorities := by
    rw [map_modify]
    exact fun _ => rfl

/-- Entries and queries are taken away. The other queries keep their contexts and do not
ask for more. -/
structure Trims (queue after : QueryQueue) : Prop where
  partitions : Trimmed after.partitions queue.partitions
  inactivePartitions : Trimmed after.inactivePartitions queue.inactivePartitions
  queries : ∀ qid query, after.queries qid = some query → ∃ before,
    queue.queries qid = some before ∧
      query.queryContextsPerType = before.queryContextsPerType ∧
      query.requestedPartitions = before.requestedPartitions ∧
      query.scheduledPartitions = before.scheduledPartitions

section

variable (queue : QueryQueue)

theorem Trims.refl : Trims queue queue :=
  ⟨.refl _, .refl _, fun _ query hquery => ⟨query, hquery, rfl, rfl, rfl⟩⟩

theorem trims_removeQuery (qid : Uuid) : Trims queue (queue.removeQuery qid).2 := by
  have hqueries := removeQuery_queries queue qid
  cases hstate : queue.queries qid with
  | none =>
    simp only [removeQuery, hstate]
    exact .refl queue
  | some state =>
    simp only [removeQuery, hstate] at hqueries ⊢
    refine ⟨trimmed_removeQuery qid _, trimmed_removeQuery qid _, fun other query hquery => ?_⟩
    have hquery := (hqueries other).symm.trans hquery
    split at hquery
    · cases hquery
    · exact ⟨query, hquery, rfl, rfl, rfl⟩

theorem trims_markPartitionErased (pid : Uuid) : Trims queue (queue.markPartitionErased pid).2 := by
  simp only [markPartitionErased]
  split
  · exact { Trims.refl queue with partitions := trimmed_erase _ _ }
  · split
    · exact { Trims.refl queue with inactivePartitions := trimmed_erase _ _ }
    · exact .refl queue

theorem handleCompletion_partitions (qid : Uuid) :
    (queue.handleCompletion qid).2.partitions = queue.partitions ∧
      (queue.handleCompletion qid).2.inactivePartitions = queue.inactivePartitions := by
  cases hstate : queue.queries qid with
  | none => simp [handleCompletion, hstate]
  | some state =>
    simp only [handleCompletion, hstate]
    split <;> exact ⟨rfl, rfl⟩

theorem trims_handleCompletion (qid : Uuid) : Trims queue (queue.handleCompletion qid).2 := by
  obtain ⟨hparts, hinactive⟩ := handleCompletion_partitions queue qid
  refine ⟨hparts ▸ .refl _, hinactive ▸ .refl _, fun other query hquery => ?_⟩
  by_cases heq : other = qid
  · subst heq
    cases hstate : queue.queries other with
    | none => simp [handleCompletion, hstate] at hquery
    | some state =>
      rw [(handleCompletion_some hstate).2] at hquery
      split at hquery
      · cases hquery
      · cases hquery
        exact ⟨state, rfl, rfl, rfl, rfl⟩
  · rw [handleCompletion_queries_of_ne heq] at hquery
    exact ⟨query, hquery, rfl, rfl, rfl⟩

end

theorem Trims.runnable {after : QueryQueue} (htrims : Trims queue after)
    (hrun : runnable after.queries qid = true) : runnable queue.queries qid = true := by
  cases hquery : after.queries qid with
  | none => simp [QueryQueue.runnable, hquery] at hrun
  | some query =>
    obtain ⟨before, hbefore, -, hreq, hsched⟩ := htrims.queries qid query hquery
    simp only [QueryQueue.runnable, hquery, hreq, hsched] at hrun
    simpa [QueryQueue.runnable, hbefore] using hrun

end Vast.QueryQueue
