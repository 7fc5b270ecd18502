import Vast.Foundation.KeyedList
import Vast.Queue.QueryQueue

/-! # Entries of the query queue

What the operations do to the queued entries, regardless of whether an entry
is active or inactive. Inserting a query is described by an update of one
combined list, and `next` by the entries it skips, splits, and leaves alone.
-/

namespace Vast.QueryQueue

open Foundation List KeyedList Bool Entry

def entries (queue : QueryQueue) : List Entry :=
  queue.partitions ++ queue.inactivePartitions

def queued (entries : List Entry) (qid : Uuid) : Nat :=
  entries.countP fun entry => decide (qid ∈ entry.queries)

theorem queued_append (left right : List Entry) (qid : Uuid) :
    queued (left ++ right) qid = queued left qid + queued right qid :=
  countP_append

variable {left right : List Entry}

theorem queued_perm (hperm : left.Perm right) (qid : Uuid) : queued left qid = queued right qid :=
  hperm.countP_eq _

variable {entries : List Entry} {qid : Uuid}

theorem queued_eq_zero : queued entries qid = 0 ↔ ∀ entry ∈ entries, qid ∉ entry.queries := by
  simp [queued]

theorem queued_pos : 0 < queued entries qid ↔ ∃ entry ∈ entries, qid ∈ entry.queries := by
  simp [queued]

/-! ## Inserting a query -/

/-- What adding one candidate does to the queued entries, whichever of the two
lists they are in. -/
def addCandidate (qid : Uuid) (priority : UInt64) (entries : List Entry)
    (candidate : VastType × PartitionInfo) : List Entry :=
  if entries.any fun entry => decide (entry.partition = candidate.2.uuid) then
    entries.map fun entry =>
      if entry.partition = candidate.2.uuid then entry.addQuery qid priority else entry
  else
    entries ++ [{
      partition := candidate.2.uuid
      schema := candidate.1
      priority := priority
      queries := [qid]
      erased := false }]

theorem addCandidate_perm (hperm : left.Perm right) (qid : Uuid) (priority : UInt64)
    (candidate : VastType × PartitionInfo) : (addCandidate qid priority left candidate).Perm
      (addCandidate qid priority right candidate) := by
  unfold addCandidate
  rw [hperm.any_eq]
  split
  · exact hperm.map _
  · exact hperm.append_right _

theorem insertCandidate_perm (qid : Uuid) (priority : UInt64) (lists : List Entry × List Entry)
    (candidate : VastType × PartitionInfo)
    (hnodup : ((lists.1 ++ lists.2).map Entry.partition).Nodup) :
    ((insertCandidate qid priority lists candidate).1 ++
        (insertCandidate qid priority lists candidate).2).Perm
      (addCandidate qid priority (lists.1 ++ lists.2) candidate) := by
  obtain ⟨active, inactive⟩ := lists
  have ⟨hactive, hinactive, _⟩ := nodup_append.mp (map_append ▸ hnodup)
  simp only [insertCandidate, addCandidate, any_append]
  by_cases hany : active.any fun entry => decide (entry.partition = candidate.2.uuid)
  · -- The partition is active, so no inactive entry has its id.
    obtain ⟨entry, hentry, hpid⟩ := any_eq_true.mp hany
    have hne := forall_ne_of_nodup_append hnodup hentry
    rw [of_decide_eq_true hpid] at hne
    simp only [hany, map_append, modify_findIdx_eq_map hactive, map_update_of_forall_ne _ hne]
    exact Perm.refl _
  · have hne : ∀ entry ∈ active, entry.partition ≠ candidate.2.uuid := by simpa using hany
    rw [not_eq_true] at hany
    cases hfind : inactive.find? fun entry => decide (entry.partition = candidate.2.uuid) with
    | none =>
      have hnone : (inactive.any fun entry => decide (entry.partition = candidate.2.uuid)) =
          false := by
        simpa using hfind
      simp only [hany, hnone, false_eq_true, if_false]
      rw [append_assoc, append_assoc]
      exact Perm.append_left _ perm_append_comm
    | some entry =>
      -- The entry moves from the inactive to the active list.
      have hpid : entry.partition = candidate.2.uuid := by
        simpa using find?_some hfind
      have hsome : (inactive.any fun entry => decide (entry.partition = candidate.2.uuid)) =
          true :=
        any_eq_true.mpr ⟨entry, mem_of_find?_eq_some hfind, by simpa using hpid⟩
      have hperm := perm_cons_eraseP hfind
      have herase : ∀ other ∈ inactive.eraseP
          (fun entry => decide (entry.partition = candidate.2.uuid)),
          other.partition ≠ candidate.2.uuid := by
        have hkeys := (hperm.map Entry.partition).nodup_iff.mp hinactive
        rw [map_cons, nodup_cons] at hkeys
        intro other hother hother_pid
        exact hkeys.1 (mem_map.mpr ⟨other, hother, hother_pid.trans hpid.symm⟩)
      simp only [hany, hsome, false_eq_true, if_false, map_append,
        map_update_of_forall_ne _ hne, append_assoc]
      refine Perm.append_left _ ?_
      refine Perm.trans ?_ (hperm.map _).symm
      simp only [map_cons, hpid, map_update_of_forall_ne _ herase]
      exact Perm.refl _

/-- The effect of adding candidates for a query, as far as the accounting is
concerned. -/
structure Added (qid : Uuid) (before after : List Entry) (count : Nat) : Prop where
  nodup : (after.map Entry.partition).Nodup
  queries_nodup : (∀ entry ∈ before, entry.queries.Nodup) →
    ∀ entry ∈ after, entry.queries.Nodup
  queries_subset : ∀ entry ∈ after, ∀ other ∈ entry.queries,
    other = qid ∨ ∃ origin ∈ before, other ∈ origin.queries
  queued_self : queued after qid = queued before qid + count
  queued_other : ∀ other, other ≠ qid → queued after other = queued before other

variable {priority : UInt64} {entry : Entry}

theorem mem_addCandidate {candidate : VastType × PartitionInfo}
    (hentry : entry ∈ addCandidate qid priority entries candidate) : entry ∈ entries ∨
      (entry.partition = candidate.2.uuid ∧
        ((entry.queries = [qid] ∧ entry.schema = candidate.1 ∧ entry.priority = priority) ∨
          ∃ origin ∈ entries, origin.partition = candidate.2.uuid ∧
            entry = origin.addQuery qid priority)) := by
  unfold addCandidate at hentry
  split at hentry
  · obtain ⟨origin, horigin, rfl⟩ := mem_map.mp hentry
    by_cases hpid : origin.partition = candidate.2.uuid
    · right
      simp only [hpid]
      exact ⟨hpid, Or.inr ⟨origin, horigin, hpid, rfl⟩⟩
    · left
      simpa [hpid] using horigin
  · rcases mem_append.mp hentry with hmem | hmem
    · exact Or.inl hmem
    · right
      rw [mem_singleton.mp hmem]
      exact ⟨rfl, Or.inl ⟨rfl, rfl, rfl⟩⟩

/-- What holds of the entries before and is kept by adding a candidate holds of
the entries after all candidates were added. -/
theorem foldl_addCandidate_forall (property : Entry → Prop)
    {candidates : List (VastType × PartitionInfo)} (hbase : ∀ entry ∈ entries, property entry)
    (hnew : ∀ candidate ∈ candidates, ∀ entry : Entry, entry.partition = candidate.2.uuid →
      entry.queries = [qid] → entry.schema = candidate.1 → entry.priority = priority →
        property entry)
    (hadd : ∀ candidate ∈ candidates, ∀ entry : Entry, entry.partition = candidate.2.uuid →
      property entry → property (entry.addQuery qid priority)) :
    ∀ entry ∈ candidates.foldl (addCandidate qid priority) entries, property entry := by
  induction candidates generalizing entries with
  | nil => exact hbase
  | cons head tail ih =>
    refine ih ?_ (fun candidate hmem => hnew candidate (mem_cons_of_mem _ hmem))
      (fun candidate hmem => hadd candidate (mem_cons_of_mem _ hmem))
    intro entry hentry
    rcases mem_addCandidate hentry with
      hmem | ⟨hpid, ⟨hsingle, hschema, hstored⟩ | ⟨origin, horigin, horigin_pid, rfl⟩⟩
    · exact hbase entry hmem
    · exact hnew head mem_cons_self entry hpid hsingle hschema hstored
    · exact hadd head mem_cons_self origin horigin_pid (hbase origin horigin)

variable {qid other : Uuid}

theorem addCandidate_queued_other (hne : other ≠ qid) (priority : UInt64)
    (candidate : VastType × PartitionInfo) :
    queued (addCandidate qid priority entries candidate) other = queued entries other := by
  unfold addCandidate
  split
  · rw [queued, countP_map]
    refine countP_congr fun entry _ => ?_
    simp only [Function.comp_apply]
    split <;> simp [addQuery, hne]
  · simp [queued, hne]

section

variable (hnodup : (entries.map Entry.partition).Nodup) (qid : Uuid) (priority : UInt64)
  (candidate : VastType × PartitionInfo)

include hnodup

theorem addCandidate_nodup :
    ((addCandidate qid priority entries candidate).map Entry.partition).Nodup := by
  unfold addCandidate
  split
  · have hkeys : Entry.partition ∘ (fun entry =>
        if entry.partition = candidate.2.uuid then entry.addQuery qid priority else entry) =
        Entry.partition := by
      funext entry
      simp only [Function.comp_apply]
      split <;> rfl
    rw [map_map, hkeys]
    exact hnodup
  next hany =>
    rw [map_append, nodup_append]
    refine ⟨hnodup, nodup_singleton _, ?_⟩
    intro left hleft right hright heq
    obtain ⟨entry, hentry, rfl⟩ := mem_map.mp hleft
    simp only [map_cons, map_nil, mem_singleton] at hright
    exact hany (any_eq_true.mpr ⟨entry, hentry, by simp [heq, hright]⟩)

variable (hfresh : ∀ entry ∈ entries, entry.partition = candidate.2.uuid → qid ∉ entry.queries)

include hfresh

theorem addCandidate_queued_self :
    queued (addCandidate qid priority entries candidate) qid = queued entries qid + 1 := by
  unfold addCandidate
  split
  next hany =>
    obtain ⟨entry, hentry, hpid⟩ := any_eq_true.mp hany
    have hone := countP_key_eq_one hnodup hentry
    rw [of_decide_eq_true hpid] at hone
    rw [queued, countP_map, queued, ← hone]
    -- An entry counts afterwards if it counted before or is the one entry of the candidate.
    clear hone hany hentry hpid entry hnodup
    induction entries with
    | nil => rfl
    | cons head tail ih =>
      have htail := ih fun entry hentry => hfresh entry (mem_cons_of_mem _ hentry)
      have hhead := hfresh head mem_cons_self
      simp only [countP_cons, Function.comp_apply]
      by_cases hpid : head.partition = candidate.2.uuid
      · have hmem : qid ∈ (head.addQuery qid priority).queries := by simp [addQuery]
        simp only [hpid, if_true, hmem, hhead hpid, decide_false, false_eq_true, if_false]
        omega
      · simp only [hpid, if_false, decide_false, false_eq_true]
        omega
  · simp [queued]

theorem added_addCandidate :
    Added qid entries (addCandidate qid priority entries candidate) 1 where
  nodup := addCandidate_nodup hnodup qid priority candidate
  queries_nodup := by
    intro hqueries entry hentry
    rcases mem_addCandidate hentry with
      hmem | ⟨-, ⟨hsingle, -, -⟩ | ⟨origin, horigin, hpid, rfl⟩⟩
    · exact hqueries entry hmem
    · rw [hsingle]
      exact nodup_singleton _
    · refine nodup_append.mpr ⟨hqueries origin horigin, nodup_singleton _, ?_⟩
      intro left hleft right hright heq
      rw [mem_singleton.mp hright] at heq
      exact hfresh origin horigin hpid (heq ▸ hleft)
  queries_subset := by
    intro entry hentry other hother
    rcases mem_addCandidate hentry with
      hmem | ⟨-, ⟨hsingle, -, -⟩ | ⟨origin, horigin, -, rfl⟩⟩
    · exact Or.inr ⟨entry, hmem, hother⟩
    · rw [hsingle] at hother
      exact Or.inl (mem_singleton.mp hother)
    · rcases mem_append.mp hother with hmem | hmem
      · exact Or.inr ⟨origin, horigin, hmem⟩
      · exact Or.inl (mem_singleton.mp hmem)
  queued_self := addCandidate_queued_self hnodup qid priority candidate hfresh
  queued_other := fun _ hne => addCandidate_queued_other hne priority candidate

end

theorem Added.trans {first second third : List Entry} {left right : Nat}
    (hleft : Added qid first second left) (hright : Added qid second third right) :
    Added qid first third (left + right) where
  nodup := hright.nodup
  queries_nodup := fun hqueries => hright.queries_nodup (hleft.queries_nodup hqueries)
  queries_subset := by
    intro entry hentry other hother
    rcases hright.queries_subset entry hentry other hother with heq | ⟨origin, horigin, hmem⟩
    · exact Or.inl heq
    · exact hleft.queries_subset origin horigin other hmem
  queued_self := by
    rw [hright.queued_self, hleft.queued_self]
    omega
  queued_other := fun other hne =>
    (hright.queued_other other hne).trans (hleft.queued_other other hne)

/-- The candidates of one query have distinct ids, so each of them adds the
query to one more entry. -/
theorem added_foldl (qid : Uuid) (priority : UInt64) (candidates : List (VastType × PartitionInfo))
    (hnodup : (entries.map Entry.partition).Nodup)
    (hdist : (candidates.map fun candidate => candidate.2.uuid).Nodup)
    (hfresh : ∀ entry ∈ entries, ∀ candidate ∈ candidates,
      entry.partition = candidate.2.uuid → qid ∉ entry.queries) :
    Added qid entries (candidates.foldl (addCandidate qid priority) entries) candidates.length := by
  induction candidates generalizing entries with
  | nil =>
    exact ⟨hnodup, id, fun entry hentry other hother => Or.inr ⟨entry, hentry, hother⟩,
      rfl, fun _ _ => rfl⟩
  | cons head tail ih =>
    obtain ⟨hhead, htail⟩ := nodup_cons.mp hdist
    have hfirst := added_addCandidate hnodup qid priority head
      fun entry hentry => hfresh entry hentry head mem_cons_self
    rw [length_cons, Nat.add_comm]
    refine hfirst.trans (ih hfirst.nodup htail ?_)
    intro entry hentry candidate hcand hpid
    rcases mem_addCandidate hentry with hmem | ⟨heq, -⟩
    · exact hfresh entry hmem candidate (mem_cons_of_mem _ hcand) hpid
    · exfalso
      exact hhead (mem_map.mpr ⟨candidate, hcand, hpid.symm.trans heq⟩)

theorem foldl_insertCandidate_perm (candidates : List (VastType × PartitionInfo))
    (lists : List Entry × List Entry) (hperm : (lists.1 ++ lists.2).Perm entries)
    (hnodup : (entries.map Entry.partition).Nodup) :
    ((candidates.foldl (insertCandidate qid priority) lists).1 ++
        (candidates.foldl (insertCandidate qid priority) lists).2).Perm
      (candidates.foldl (addCandidate qid priority) entries) := by
  induction candidates generalizing lists entries with
  | nil => exact hperm
  | cons head tail ih =>
    refine ih _ ?_ (addCandidate_nodup hnodup qid priority head)
    have hlists := (hperm.map Entry.partition).nodup_iff.mpr hnodup
    exact (insertCandidate_perm qid priority lists head hlists).trans
      (addCandidate_perm hperm qid priority head)

/-- The tests of an insertion: the lookup has a schema and as many partitions as the
query says, and the query is not known. -/
def Passes (queue : QueryQueue) (state : QueryState) (candidates : CatalogLookupResult) : Prop :=
  candidates.candidateInfos ≠ [] ∧ state.candidatePartitions.toNat = candidates.size ∧
    queue.queries state.queryContextsPerType.begin.id = none

theorem insert_eq_or (std : PrioritySort) (queue : QueryQueue) (state : QueryState)
    (candidates : CatalogLookupResult) :
    (¬queue.Passes state candidates ∧
        ∃ error, queue.insert std state candidates = (some error, queue)) ∨
      (queue.Passes state candidates ∧ queue.insert std state candidates = (none, {
        queries := Function.update queue.queries state.queryContextsPerType.begin.id (some state)
        partitions := std.sort (candidates.candidates.foldl
          (insertCandidate state.queryContextsPerType.begin.id state.priority)
          (queue.partitions, queue.inactivePartitions)).1
        inactivePartitions := (candidates.candidates.foldl
          (insertCandidate state.queryContextsPerType.begin.id state.priority)
          (queue.partitions, queue.inactivePartitions)).2 })) := by
  unfold insert
  split
  next hempty => exact Or.inl ⟨fun hpasses => hpasses.1 (isEmpty_iff.mp hempty), _, rfl⟩
  next hempty =>
    split
    next hsize => exact Or.inl ⟨fun hpasses => hsize hpasses.2.1, _, rfl⟩
    next hsize =>
      cases hquery : queue.queries state.queryContextsPerType.begin.id with
      | some _ =>
        refine Or.inl ⟨fun hpasses => ?_, _, by simp only [hquery]; rfl⟩
        cases hquery.symm.trans hpasses.2.2
      | none =>
        have hinfos : candidates.candidateInfos ≠ [] := fun hnil => hempty (isEmpty_iff.mpr hnil)
        exact Or.inr ⟨⟨hinfos, not_not.mp hsize, hquery⟩, by simp only [hquery]⟩

variable {queue : QueryQueue}

/-- An insertion is rejected, or it adds an unknown query to the queue and to
the entries of its candidates. -/
theorem insert_cases (std : PrioritySort) (state : QueryState) (candidates : CatalogLookupResult)
    (hnodup : (queue.entries.map Entry.partition).Nodup) :
    (queue.insert std state candidates).2 = queue ∨
      (state.candidatePartitions.toNat = candidates.candidates.length ∧
        queue.queries state.queryContextsPerType.begin.id = none ∧
        (queue.insert std state candidates).2.queries =
          Function.update queue.queries state.queryContextsPerType.begin.id (some state) ∧
        (queue.insert std state candidates).2.entries.Perm (candidates.candidates.foldl
            (addCandidate state.queryContextsPerType.begin.id state.priority) queue.entries)) := by
  rcases insert_eq_or std queue state candidates with
    ⟨-, _, hreject⟩ | ⟨⟨-, hsize, hunknown⟩, hinsert⟩
  · exact Or.inl (congrArg Prod.snd hreject)
  · right
    rw [hinsert, CatalogLookupResult.length_candidates]
    refine ⟨hsize, hunknown, rfl, ((std.perm _).append_right _).trans ?_⟩
    exact foldl_insertCandidate_perm _ _ (Perm.refl _) hnodup

/-! ## Changing single entries -/

section

variable (queue : QueryQueue)

theorem markPartitionErased_queries (pid : Uuid) :
    (queue.markPartitionErased pid).2.queries = queue.queries := by
  simp only [markPartitionErased]
  split
  · rfl
  · split <;> rfl

theorem markPartitionErased_entries (pid : Uuid)
    (hnodup : (queue.entries.map Entry.partition).Nodup) :
    (queue.markPartitionErased pid).2.entries = queue.entries.map fun entry =>
      if entry.partition = pid then { entry with erased := true } else entry := by
  rw [entries] at hnodup
  have ⟨hactive, hinactive, _⟩ := nodup_append.mp (map_append ▸ hnodup)
  simp only [entries, map_append, markPartitionErased]
  by_cases hany : queue.partitions.any fun entry => decide (entry.partition = pid)
  · obtain ⟨entry, hentry, hpid⟩ := any_eq_true.mp hany
    have hne := forall_ne_of_nodup_append hnodup hentry
    rw [of_decide_eq_true hpid] at hne
    simp [hany, modify_findIdx_eq_map hactive, map_update_of_forall_ne _ hne]
  · have hne : ∀ entry ∈ queue.partitions, entry.partition ≠ pid := by simpa using hany
    simp only [hany, map_update_of_forall_ne _ hne]
    by_cases hanyInactive :
        queue.inactivePartitions.any fun entry => decide (entry.partition = pid)
    · simp [hanyInactive, modify_findIdx_eq_map hinactive]
    · have hneInactive : ∀ entry ∈ queue.inactivePartitions, entry.partition ≠ pid := by
        simpa using hanyInactive
      simp [hanyInactive, map_update_of_forall_ne _ hneInactive]

theorem Entry.removeQuery_some {entry kept : Entry} (hkept : entry.removeQuery qid = some kept) :
    kept = { entry with queries := entry.queries.erase qid } := by
  unfold removeQuery at hkept
  split at hkept
  · simp only at hkept
    split at hkept
    · cases hkept
    · exact (Option.some.inj hkept).symm
  next hmem =>
    rw [erase_of_not_mem hmem]
    exact (Option.some.inj hkept).symm

theorem Entry.removeQuery_none (hnone : entry.removeQuery qid = none) :
    entry.queries.erase qid = [] := by
  unfold removeQuery at hnone
  split at hnone
  · simp only at hnone
    split at hnone
    next hempty => exact isEmpty_iff.mp hempty
    · cases hnone
  · cases hnone

theorem queued_filterMap_removeQuery (hne : other ≠ qid) (entries : List Entry) :
    queued (entries.filterMap (Entry.removeQuery qid)) other = queued entries other := by
  rw [queued, countP_filterMap]
  refine countP_congr fun entry _ => ?_
  cases hremove : entry.removeQuery qid with
  | none =>
    have hgone : other ∉ entry.queries := by
      rw [← mem_erase_of_ne hne, removeQuery_none hremove]
      exact not_mem_nil
    simp [hgone]
  | some kept =>
    rw [removeQuery_some hremove]
    simp [mem_erase_of_ne hne]

/-! ## Taking the next partition -/

variable (queries : Uuid → Option QueryState)

def Entry.Runnable (entry : Entry) : Prop :=
  ∃ qid ∈ entry.queries, runnable queries qid = true

theorem Entry.active_queries_isEmpty (entry : Entry) :
    (entry.active queries).queries.isEmpty = true ↔ ¬entry.Runnable queries := by
  simp [active, Entry.Runnable]

theorem nextLoop_cases (remaining inactive : List Entry) :
    (nextLoop queries remaining inactive =
        (none, [], inactive ++ remaining.filterMap (Entry.inactive queries)) ∧
      ∀ entry ∈ remaining, ¬entry.Runnable queries) ∨
    ∃ skipped entry rest, remaining = skipped ++ entry :: rest ∧
      (∀ other ∈ skipped, ¬other.Runnable queries) ∧ entry.Runnable queries ∧
      nextLoop queries remaining inactive = (some (entry.active queries), rest,
          inactive ++ (skipped ++ [entry]).filterMap (Entry.inactive queries)) := by
  induction remaining generalizing inactive with
  | nil => exact Or.inl ⟨by simp [nextLoop], by simp⟩
  | cons head tail ih =>
    have happend : ∀ entries : List Entry,
        inactive ++ (head.inactive queries).toList ++
          entries.filterMap (Entry.inactive queries) =
        inactive ++ (head :: entries).filterMap (Entry.inactive queries) := by
      cases hhead : head.inactive queries <;> simp [hhead]
    by_cases hrun : head.Runnable queries
    · right
      refine ⟨[], head, tail, rfl, by simp, hrun, ?_⟩
      have hempty := (active_queries_isEmpty queries head).not.mpr (not_not.mpr hrun)
      rw [nextLoop, if_neg hempty, nil_append, ← happend []]
      simp
    · have hempty := (active_queries_isEmpty queries head).mpr hrun
      rw [nextLoop, if_pos hempty]
      rcases ih (inactive ++ (head.inactive queries).toList) with
        ⟨hloop, hidle⟩ | ⟨skipped, entry, rest, rfl, hskipped, hentry, hloop⟩
      · left
        rw [hloop, happend]
        exact ⟨rfl, forall_mem_cons.mpr ⟨hrun, hidle⟩⟩
      · right
        refine ⟨head :: skipped, entry, rest, rfl, forall_mem_cons.mpr ⟨hrun, hskipped⟩, hentry, ?_⟩
        rw [hloop, happend]
        rfl

/-- The outcomes of `next`: either no active entry can be scheduled and all of
them are parked, or the last entry that can be scheduled is split and the
entries behind it are parked. -/
inductive NextOutcome (queue : QueryQueue) : Option Entry × QueryQueue → Prop where
  | idle (hidle : ∀ entry ∈ queue.partitions, ¬entry.Runnable queue.queries) :
      NextOutcome queue (none, {
        queries := queue.queries
        partitions := []
        inactivePartitions := queue.inactivePartitions ++
          queue.partitions.reverse.filterMap (Entry.inactive queue.queries) })
  | taken (rest : List Entry) (entry : Entry) (skipped : List Entry)
      (hpartitions : queue.partitions = rest ++ entry :: skipped)
      (hskipped : ∀ other ∈ skipped, ¬other.Runnable queue.queries)
      (hrunnable : entry.Runnable queue.queries) :
      NextOutcome queue (some (entry.active queue.queries), {
        queries := (entry.active queue.queries).queries.foldl schedule queue.queries
        partitions := rest
        inactivePartitions := queue.inactivePartitions ++
          (entry :: skipped).reverse.filterMap (Entry.inactive queue.queries) })

theorem next_outcome : NextOutcome queue queue.next := by
  unfold next
  rcases nextLoop_cases queue.queries queue.partitions.reverse queue.inactivePartitions with
    ⟨hloop, hidle⟩ | ⟨skipped, entry, rest, hrem, hskipped, hrun, hloop⟩
  · rw [hloop]
    refine NextOutcome.idle fun entry hentry => hidle entry ?_
    exact mem_reverse.mpr hentry
  · have hparts : queue.partitions = rest.reverse ++ entry :: skipped.reverse := by
      rw [← reverse_reverse queue.partitions, hrem]
      simp
    have hout := NextOutcome.taken rest.reverse entry skipped.reverse hparts
      (fun other hother => hskipped other (mem_reverse.mp hother)) hrun
    rw [hloop]
    simpa using hout

theorem next_eq_none_iff :
    queue.next.1 = none ↔ ∀ entry ∈ queue.partitions, ¬entry.Runnable queue.queries := by
  have hout := next_outcome queue
  generalize queue.next = outcome at hout ⊢
  cases hout with
  | idle hidle => exact iff_of_true rfl hidle
  | taken rest entry skipped hparts _ hrun =>
    refine iff_of_false (by simp) fun hidle => hidle entry ?_ hrun
    simp [hparts]

end

theorem next_partitions_of_none (hnext : queue.next.1 = none) : queue.next.2.partitions = [] := by
  have hout := next_outcome queue
  generalize queue.next = outcome at hout hnext ⊢
  cases hout with
  | idle => rfl
  | taken => cases hnext

theorem next_length_lt {active : Entry} (hnext : queue.next.1 = some active) :
    queue.next.2.partitions.length < queue.partitions.length := by
  have hout := next_outcome queue
  generalize queue.next = outcome at hout hnext ⊢
  cases hout with
  | idle => cases hnext
  | taken rest entry skipped hparts => simp [hparts]

theorem foldl_schedule {ids : List Uuid} (hnodup : ids.Nodup)
    (queries : Uuid → Option QueryState) (qid : Uuid) :
    ids.foldl schedule queries qid = if qid ∈ ids then
      (queries qid).map fun state => { state with
        scheduledPartitions := state.scheduledPartitions + 1 }
      else queries qid := by
  have hschedule : ∀ (queries : Uuid → Option QueryState) (head : Uuid),
      schedule queries head = Function.update queries head ((queries head).map fun state =>
        { state with scheduledPartitions := state.scheduledPartitions + 1 }) := by
    intro queries head
    cases hhead : queries head with
    | none =>
      rw [Option.map_none, ← hhead, Function.update_eq_self]
      simp only [schedule, hhead]
    | some state => simp [schedule, hhead]
  induction ids generalizing queries with
  | nil => simp
  | cons head tail ih =>
    obtain ⟨hhead, htail⟩ := nodup_cons.mp hnodup
    rw [foldl_cons, ih htail, hschedule]
    by_cases heq : qid = head
    · subst heq
      simp [hhead]
    · simp [heq]

variable {queries : Uuid → Option QueryState}

theorem Entry.inactive_some {entry parked : Entry}
    (hparked : entry.inactive queries = some parked) :
    parked.partition = entry.partition ∧ parked.schema = entry.schema ∧ parked.queries =
      entry.queries.filter fun qid => !runnable queries qid && (queries qid).isSome := by
  unfold inactive at hparked
  simp only at hparked
  split at hparked
  · cases hparked
  · rw [← Option.some.inj hparked]
    refine ⟨rfl, rfl, ?_⟩
    rw [filter_filter]
    exact filter_congr fun qid _ => and_comm _ _

theorem queued_filterMap_inactive (hknown : (queries qid).isSome) (entries : List Entry) :
    queued (entries.filterMap (inactive queries)) qid =
      if runnable queries qid then 0 else queued entries qid := by
  rw [queued, countP_filterMap]
  have hcount : ∀ entry : Entry,
      ((entry.inactive queries).map fun parked => decide (qid ∈ parked.queries)).getD false =
        (!runnable queries qid && decide (qid ∈ entry.queries)) := by
    intro entry
    cases hparked : entry.inactive queries with
    | none =>
      have hempty : (entry.queries.filter fun qid => !runnable queries qid) = [] := by
        unfold inactive at hparked
        simp only at hparked
        split at hparked
        next h => exact isEmpty_iff.mp h
        · cases hparked
      have hmem : qid ∉ entry.queries.filter fun qid => !runnable queries qid := by
        rw [hempty]
        exact not_mem_nil
      cases hrun : runnable queries qid <;> simp_all
    | some parked =>
      rw [Option.map_some, (inactive_some hparked).2.2]
      cases hrun : runnable queries qid <;> simp [hrun, hknown]
  cases hrun : runnable queries qid with
  | false =>
    refine countP_congr fun entry _ => ?_
    rw [hcount entry, hrun]
    simp
  | true =>
    refine countP_eq_zero.mpr fun entry _ => ?_
    rw [hcount entry, hrun]
    simp

theorem queued_of_not_runnable {skipped : List Entry}
    (hskipped : ∀ entry ∈ skipped, ¬entry.Runnable queries)
    (hrun : runnable queries qid = true) : queued skipped qid = 0 :=
  queued_eq_zero.mpr fun entry hentry hmem => hskipped entry hentry ⟨qid, hmem, hrun⟩

theorem Entry.mem_active_queries : qid ∈ (entry.active queries).queries ↔
      qid ∈ entry.queries ∧ runnable queries qid = true :=
  mem_filter

/-- Splitting an entry and parking skipped ones takes the handed out queries
out of the queue, and no others. -/
theorem queued_split {kept skipped : List Entry}
    (hskipped : ∀ other ∈ skipped, ¬other.Runnable queries) (hknown : (queries qid).isSome) :
    queued (kept ++ (entry :: skipped).reverse) qid =
      (if qid ∈ (entry.active queries).queries then 1 else 0) +
        queued (kept ++ (entry :: skipped).reverse.filterMap (inactive queries)) qid := by
  rw [queued_append, queued_append, queued_filterMap_inactive hknown,
    queued_perm (reverse_perm (entry :: skipped))]
  cases hrun : runnable queries qid with
  | false =>
    have hmem : qid ∉ (entry.active queries).queries := by
      simp [mem_active_queries, hrun]
    simp [hmem]
  | true =>
    have hzero := queued_of_not_runnable hskipped hrun
    rw [← singleton_append, queued_append, hzero]
    by_cases hin : qid ∈ entry.queries <;>
      simp [queued, mem_active_queries, hrun, Nat.add_comm]

end Vast.QueryQueue
