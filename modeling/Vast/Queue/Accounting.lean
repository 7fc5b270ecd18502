import Vast.Queue.Entries

/-! # Accounting of the query queue

The counters of a query agree with the queue: every candidate partition was
either scheduled or is still queued, and every scheduled partition was either
completed or is in flight. Each operation keeps these equations, the
distinctness of the queued partitions, and the absence of dangling query ids.
-/

namespace Vast.QueryQueue

open Foundation List Entry

theorem toNat_succ {count bound : UInt32} (hlt : count.toNat < bound.toNat) :
    (count + 1).toNat = count.toNat + 1 := by
  have hbound := bound.toNat_lt
  rw [UInt32.toNat_add, show (1 : UInt32).toNat = 1 from rfl]
  omega

/-- The bookkeeping invariant of known queries and queued entries, relative to
the number of scheduled partitions of each query whose completion was not
reported yet. -/
structure Accounted (queries : Uuid → Option QueryState) (entries : List Entry)
    (inflight : Uuid → Nat) : Prop where
  partitions_nodup : (entries.map Entry.partition).Nodup
  known : ∀ entry ∈ entries, ∀ qid ∈ entry.queries, (queries qid).isSome
  queries_nodup : ∀ entry ∈ entries, entry.queries.Nodup
  candidates_eq : ∀ qid state, queries qid = some state →
    state.candidatePartitions.toNat = state.scheduledPartitions.toNat + queued entries qid
  scheduled_eq : ∀ qid state, queries qid = some state →
    state.scheduledPartitions.toNat = state.completedPartitions.toNat + inflight qid

theorem accounted_empty : Accounted (fun _ => none) [] fun _ => 0 where
  partitions_nodup := nodup_nil
  known := by simp
  queries_nodup := by simp
  candidates_eq := by simp
  scheduled_eq := by simp

section Preservation

variable {queue : QueryQueue} {queries : Uuid → Option QueryState} {entries : List Entry}
  {inflight : Uuid → Nat} {qid : Uuid} {state : QueryState}

theorem Accounted.of_perm {reordered : List Entry} (hacc : Accounted queries entries inflight)
    (hperm : reordered.Perm entries) : Accounted queries reordered inflight where
  __ := hacc
  partitions_nodup := (hperm.map _).nodup_iff.mpr hacc.partitions_nodup
  known := fun entry hentry => hacc.known entry (hperm.mem_iff.mp hentry)
  queries_nodup := fun entry hentry => hacc.queries_nodup entry (hperm.mem_iff.mp hentry)
  candidates_eq := by
    intro qid state hstate
    rw [queued_perm hperm]
    exact hacc.candidates_eq qid state hstate

theorem Accounted.congr_inflight {other : Uuid → Nat} (hacc : Accounted queries entries inflight)
    (hother : ∀ qid, (queries qid).isSome → other qid = inflight qid) :
    Accounted queries entries other where
  __ := hacc
  scheduled_eq := by
    intro qid state hstate
    rw [hother qid (by simp [hstate])]
    exact hacc.scheduled_eq qid state hstate

/-- A query that no entry mentions is added, changed, or removed without
touching the entries. -/
theorem Accounted.update_query (hacc : Accounted queries entries inflight)
    {replacement : Option QueryState} {count : Nat}
    (hknown : replacement.isSome ∨ queued entries qid = 0)
    (hcands : ∀ state, replacement = some state → state.candidatePartitions.toNat =
      state.scheduledPartitions.toNat + queued entries qid)
    (hsched : ∀ state, replacement = some state → state.scheduledPartitions.toNat =
      state.completedPartitions.toNat + count) :
    Accounted (Function.update queries qid replacement) entries
      (Function.update inflight qid count) where
  partitions_nodup := hacc.partitions_nodup
  known := by
    intro entry hentry other hother
    by_cases heq : other = qid
    · subst heq
      rcases hknown with hsome | hzero
      · simpa using hsome
      · exact absurd hother (queued_eq_zero.mp hzero entry hentry)
    · simpa [heq] using hacc.known entry hentry other hother
  queries_nodup := hacc.queries_nodup
  candidates_eq := by
    intro other state hstate
    by_cases heq : other = qid
    · subst heq
      exact hcands state (by simpa using hstate)
    · exact hacc.candidates_eq other state (by simpa [heq] using hstate)
  scheduled_eq := by
    intro other state hstate
    by_cases heq : other = qid
    · subst heq
      simpa using hsched state (by simpa using hstate)
    · simpa [heq] using hacc.scheduled_eq other state (by simpa [heq] using hstate)

theorem activate_entries_perm (std : PrioritySort) (queue : QueryQueue) (qid : Uuid)
    (numPartitions : UInt32) :
    (queue.activate std qid numPartitions).2.entries.Perm queue.entries := by
  unfold activate
  cases queue.queries qid with
  | none => exact Perm.refl _
  | some state =>
    refine Perm.trans ((std.perm _).append_right _) ?_
    rw [append_assoc, partition_eq_filter_filter]
    exact Perm.append_left _ (filter_append_perm _ _)

section

variable (hacc : Accounted queue.queries queue.entries inflight)

include hacc

theorem insert_accounted (std : PrioritySort) {candidates : CatalogLookupResult}
    (hdist : (candidates.candidates.map fun candidate => candidate.2.uuid).Nodup)
    (hsched : state.scheduledPartitions = 0) (hcompl : state.completedPartitions = 0)
    (hinflight : inflight state.queryContextsPerType.begin.id = 0) :
    Accounted (queue.insert std state candidates).2.queries
      (queue.insert std state candidates).2.entries inflight := by
  rcases insert_cases std state candidates hacc.partitions_nodup with
    hsame | ⟨hsize, hunknown, hqueries, hperm⟩
  · rw [hsame]
    exact hacc
  refine Accounted.of_perm ?_ hperm
  rw [hqueries]
  generalize state.queryContextsPerType.begin.id = qid at *
  have hfree : ∀ entry ∈ queue.entries, qid ∉ entry.queries := by
    intro entry hentry hmem
    have hknown := hacc.known entry hentry qid hmem
    simp [hunknown] at hknown
  have hadded := added_foldl qid state.priority candidates.candidates
    hacc.partitions_nodup hdist fun entry hentry _ _ _ => hfree entry hentry
  constructor
  · exact hadded.nodup
  · intro entry hentry other hother
    rcases hadded.queries_subset entry hentry other hother with rfl | ⟨origin, horigin, hmem⟩
    · simp
    · have hne : other ≠ qid := fun heq => hfree origin horigin (heq ▸ hmem)
      simpa [hne] using hacc.known origin horigin other hmem
  · exact hadded.queries_nodup hacc.queries_nodup
  · intro other found hfound
    by_cases heq : other = qid
    · subst heq
      have hzero := queued_eq_zero.mpr hfree
      obtain rfl : state = found := by simpa using hfound
      rw [hsize, hadded.queued_self, hsched, hzero]
      simp
    · rw [hadded.queued_other other heq]
      exact hacc.candidates_eq other found (by simpa [heq] using hfound)
  · intro other found hfound
    by_cases heq : other = qid
    · subst heq
      obtain rfl : state = found := by simpa using hfound
      simp [hsched, hcompl, hinflight]
    · simpa using hacc.scheduled_eq other found (by simpa [heq] using hfound)

theorem activate_accounted (std : PrioritySort) (qid : Uuid) (numPartitions : UInt32) :
    Accounted (queue.activate std qid numPartitions).2.queries
      (queue.activate std qid numPartitions).2.entries inflight := by
  refine Accounted.of_perm ?_ (activate_entries_perm std queue qid numPartitions)
  cases hstate : queue.queries qid with
  | none =>
    simp only [activate, hstate]
    exact hacc
  | some state =>
    simp only [activate, hstate]
    rw [← Function.update_eq_self qid inflight]
    refine hacc.update_query (Or.inl rfl) ?_ ?_
    · rintro _ ⟨rfl⟩
      exact hacc.candidates_eq qid state hstate
    · rintro _ ⟨rfl⟩
      exact hacc.scheduled_eq qid state hstate

theorem removeQuery_accounted (qid : Uuid) :
    Accounted (queue.removeQuery qid).2.queries (queue.removeQuery qid).2.entries inflight := by
  cases hstate : queue.queries qid with
  | none =>
    simp only [removeQuery, hstate]
    exact hacc
  | some state =>
    simp only [removeQuery, hstate, entries, ← filterMap_append]
    change Accounted (Function.update queue.queries qid none)
      (queue.entries.filterMap (Entry.removeQuery qid)) inflight
    have horigin : ∀ kept ∈ queue.entries.filterMap (Entry.removeQuery qid),
        ∃ entry ∈ queue.entries, kept.queries = entry.queries.erase qid := by
      intro kept hkept
      obtain ⟨entry, hentry, hremove⟩ := mem_filterMap.mp hkept
      exact ⟨entry, hentry, by rw [removeQuery_some hremove]⟩
    constructor
    · refine hacc.partitions_nodup.sublist (KeyedList.map_filterMap_sublist ?_ _)
      intro entry kept hremove
      rw [removeQuery_some hremove]
    · intro kept hkept other hother
      obtain ⟨entry, hentry, hqueries⟩ := horigin kept hkept
      rw [hqueries, (hacc.queries_nodup entry hentry).mem_erase_iff] at hother
      simpa [hother.1] using hacc.known entry hentry other hother.2
    · intro kept hkept
      obtain ⟨entry, hentry, hqueries⟩ := horigin kept hkept
      rw [hqueries]
      exact (hacc.queries_nodup entry hentry).erase _
    · intro other found hfound
      have hne : other ≠ qid := by
        rintro rfl
        simp at hfound
      rw [queued_filterMap_removeQuery hne]
      exact hacc.candidates_eq other found (by simpa [hne] using hfound)
    · intro other found hfound
      have hne : other ≠ qid := by
        rintro rfl
        simp at hfound
      exact hacc.scheduled_eq other found (by simpa [hne] using hfound)

theorem markPartitionErased_accounted (pid : Uuid) :
    Accounted (queue.markPartitionErased pid).2.queries
      (queue.markPartitionErased pid).2.entries inflight := by
  rw [markPartitionErased_queries, markPartitionErased_entries queue pid hacc.partitions_nodup]
  have horigin : ∀ marked ∈ queue.entries.map (fun entry =>
      if entry.partition = pid then { entry with erased := true } else entry),
      ∃ entry ∈ queue.entries, marked.queries = entry.queries := by
    intro marked hmarked
    obtain ⟨entry, hentry, rfl⟩ := mem_map.mp hmarked
    refine ⟨entry, hentry, ?_⟩
    split <;> rfl
  constructor
  · rw [map_map, map_congr_left (g := Entry.partition)]
    · exact hacc.partitions_nodup
    · intro entry _
      simp only [Function.comp_apply]
      split <;> rfl
  · intro marked hmarked
    obtain ⟨entry, hentry, hqueries⟩ := horigin marked hmarked
    rw [hqueries]
    exact hacc.known entry hentry
  · intro marked hmarked
    obtain ⟨entry, hentry, hqueries⟩ := horigin marked hmarked
    rw [hqueries]
    exact hacc.queries_nodup entry hentry
  · intro qid state hstate
    rw [hacc.candidates_eq qid state hstate, queued, queued, countP_map]
    congr 1
    refine countP_congr fun entry _ => ?_
    simp only [Function.comp_apply]
    split <;> rfl
  · exact hacc.scheduled_eq

end

/-- The number of in-flight partitions after an entry was handed out. -/
def dispatched (inflight : Uuid → Nat) (active : Option Entry) : Uuid → Nat :=
  match active with
  | none => inflight
  | some entry => fun qid => inflight qid + if qid ∈ entry.queries then 1 else 0

/-- Parking entries drops the runnable queries from them and nothing else. -/
theorem Accounted.park {kept parked : List Entry}
    (hacc : Accounted queries (kept ++ parked) inflight) :
    ((kept ++ parked.filterMap (Entry.inactive queries)).map Entry.partition).Nodup ∧
      (∀ entry ∈ kept ++ parked.filterMap (Entry.inactive queries),
        entry.queries.Nodup ∧ ∀ qid ∈ entry.queries, (queries qid).isSome) ∧
      ∀ qid, (queries qid).isSome → queued (kept ++ parked.filterMap (Entry.inactive queries)) qid =
          queued kept qid + if runnable queries qid then 0 else queued parked qid := by
  refine ⟨?_, ?_, ?_⟩
  · refine hacc.partitions_nodup.sublist ?_
    rw [map_append, map_append]
    refine (KeyedList.map_filterMap_sublist ?_ _).append_left _
    intro entry split hsplit
    exact (inactive_some hsplit).1
  · intro entry hentry
    rcases mem_append.mp hentry with hkept | hparked
    · have hmem := mem_append_left parked hkept
      exact ⟨hacc.queries_nodup entry hmem, hacc.known entry hmem⟩
    · obtain ⟨origin, horigin, hsplit⟩ := mem_filterMap.mp hparked
      have hmem := mem_append_right kept horigin
      rw [(inactive_some hsplit).2.2]
      refine ⟨(hacc.queries_nodup origin hmem).filter _, ?_⟩
      intro qid hqid
      exact hacc.known origin hmem qid (mem_of_mem_filter hqid)
  · intro qid hknown
    rw [queued_append, queued_filterMap_inactive hknown]

theorem next_accounted (hacc : Accounted queue.queries queue.entries inflight) :
    Accounted queue.next.2.queries queue.next.2.entries (dispatched inflight queue.next.1) := by
  have hout := next_outcome queue
  generalize queue.next = outcome at hout ⊢
  cases hout with
  | idle hidle =>
    -- Nothing is runnable, so parking keeps every query in its entries.
    have hperm : (queue.inactivePartitions ++ queue.partitions.reverse).Perm queue.entries :=
      perm_append_comm.trans ((reverse_perm _).append_right _)
    obtain ⟨hnodup, hqueries, hqueued⟩ := (hacc.of_perm hperm).park
    refine ⟨hnodup, fun entry hentry => (hqueries entry hentry).2,
      fun entry hentry => (hqueries entry hentry).1, ?_, hacc.scheduled_eq⟩
    intro qid state (hstate : queue.queries qid = some state)
    rw [entries, nil_append, hqueued qid (by simp [hstate]),
      hacc.candidates_eq qid state hstate, ← queued_perm hperm, queued_append]
    split
    next hrun =>
      rw [queued_perm (reverse_perm _), queued_of_not_runnable hidle hrun]
    · rfl
  | taken rest entry skipped hparts hskipped hrun =>
    have hperm : (rest ++ queue.inactivePartitions ++ (entry :: skipped).reverse).Perm
        queue.entries := by
      rw [entries, hparts, append_assoc, append_assoc]
      refine Perm.append_left _ (perm_append_comm.trans ?_)
      exact (reverse_perm _).append_right _
    have hmem : entry ∈ queue.entries := by simp [entries, hparts]
    have hids : (entry.active queue.queries).queries.Nodup :=
      (hacc.queries_nodup entry hmem).filter _
    obtain ⟨hnodup, hqueries, -⟩ := (hacc.of_perm hperm).park
    simp only [entries, ← append_assoc]
    have hknown : ∀ qid, ((entry.active queue.queries).queries.foldl schedule
        queue.queries qid).isSome = (queue.queries qid).isSome := by
      intro qid
      rw [foldl_schedule hids]
      split <;> simp
    -- A query that is handed out has one more partition scheduled.
    have hcounts : ∀ qid state, (entry.active queue.queries).queries.foldl schedule
        queue.queries qid = some state → ∃ before, queue.queries qid = some before ∧
          state.candidatePartitions = before.candidatePartitions ∧
          state.completedPartitions = before.completedPartitions ∧
          state.scheduledPartitions.toNat = before.scheduledPartitions.toNat +
            if qid ∈ (entry.active queue.queries).queries then 1 else 0 := by
      intro qid state hstate
      rw [foldl_schedule hids] at hstate
      split at hstate
      next hin =>
        obtain ⟨before, hbefore, rfl⟩ := Option.map_eq_some_iff.mp hstate
        have hqueued := queued_pos.mpr ⟨entry, hmem, (mem_active_queries.mp hin).1⟩
        have hlt : before.scheduledPartitions.toNat < before.candidatePartitions.toNat := by
          have hcands := hacc.candidates_eq qid before hbefore
          omega
        exact ⟨before, hbefore, rfl, rfl, by rw [if_pos hin, toNat_succ hlt]⟩
      next hout => exact ⟨state, hstate, rfl, rfl, by rw [if_neg hout, Nat.add_zero]⟩
    refine ⟨hnodup, ?_, fun other hother => (hqueries other hother).1, ?_, ?_⟩
    · intro other hother qid hqid
      rw [hknown]
      exact (hqueries other hother).2 qid hqid
    · intro qid state hstate
      obtain ⟨before, hbefore, hcands, -, hsched⟩ := hcounts qid state hstate
      rw [hcands, hacc.candidates_eq qid before hbefore, hsched, ← queued_perm hperm,
        queued_split hskipped (by simp [hbefore]), Nat.add_assoc]
    · intro qid state hstate
      obtain ⟨before, hbefore, -, hcompleted, hsched⟩ := hcounts qid state hstate
      rw [hsched, hacc.scheduled_eq qid before hbefore, hcompleted, Nat.add_assoc]
      rfl

/-- When the last candidate completes, no entry lists the query any more and
its only in-flight partition is the completed one. -/
theorem Accounted.last_completion (hacc : Accounted queries entries inflight)
    (hstate : queries qid = some state) (hinflight : 0 < inflight qid)
    (hlast : state.completedPartitions + 1 = state.candidatePartitions) :
    queued entries qid = 0 ∧ inflight qid = 1 := by
  have hcands := hacc.candidates_eq qid state hstate
  have hsched := hacc.scheduled_eq qid state hstate
  have hlt : state.completedPartitions.toNat < state.scheduledPartitions.toNat := by omega
  have hsucc := toNat_succ hlt
  rw [hlast] at hsucc
  omega

theorem handleCompletion_accounted (qid : Uuid)
    (hacc : Accounted queue.queries queue.entries inflight)
    (hinflight : (queue.queries qid).isSome → 0 < inflight qid) :
    Accounted (queue.handleCompletion qid).2.queries (queue.handleCompletion qid).2.entries
      (Function.update inflight qid (inflight qid - 1)) := by
  cases hstate : queue.queries qid with
  | none =>
    simp only [handleCompletion, hstate]
    refine hacc.congr_inflight fun other hother => ?_
    have hne : other ≠ qid := by
      rintro rfl
      simp [hstate] at hother
    simp [hne]
  | some state =>
    have hpos := hinflight (by simp [hstate])
    have hcands := hacc.candidates_eq qid state hstate
    have hsched := hacc.scheduled_eq qid state hstate
    have hlt : state.completedPartitions.toNat < state.scheduledPartitions.toNat := by omega
    simp only [handleCompletion, hstate]
    by_cases hlast : state.completedPartitions + 1 = state.candidatePartitions
    · rw [if_pos hlast]
      have hzero := (hacc.last_completion hstate hpos hlast).1
      exact hacc.update_query (Or.inr hzero) (by simp) (by simp)
    · rw [if_neg hlast]
      refine hacc.update_query (Or.inl rfl) ?_ ?_
      · rintro _ ⟨rfl⟩
        exact hcands
      · rintro _ ⟨rfl⟩
        simp only [toNat_succ hlt]
        omega

end Preservation

end Vast.QueryQueue
