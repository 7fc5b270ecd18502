import Vast.Queue.Entries

/-! # Inserting a query

A query is inserted for all candidates of a lookup or not at all. The test for
emptiness looks at the schemas of the lookup, which may all be without a
partition, and the lists are searched by partition.
-/

namespace Vast.QueryQueue

open Foundation List KeyedList CatalogLookupResult PrioritySort

abbrev entriesOf (entries : List Entry) (pid : Uuid) : List Entry :=
  KeyedList.group Entry.partition entries pid

/-- How often the entry that takes a query for a partition lists the query: the
first active entry of the partition, or else the first parked one. -/
def load (qid : Uuid) : List Entry → Nat
  | [] => 0
  | entry :: _ => entry.queries.count qid

/-! ## One candidate -/

section Candidate

variable {qid : Uuid} {priority : UInt64} {lists : List Entry × List Entry}
  {candidate : VastType × PartitionInfo}

theorem partition_addQuery (entry : Entry) :
    (entry.addQuery qid priority).partition = entry.partition := rfl

theorem entriesOf_insertCandidate_of_ne {pid : Uuid} (hne : pid ≠ candidate.2.uuid) :
    entriesOf (insertCandidate qid priority lists candidate).1 pid = entriesOf lists.1 pid ∧
      entriesOf (insertCandidate qid priority lists candidate).2 pid = entriesOf lists.2 pid := by
  simp only [insertCandidate, entriesOf]
  split
  · rw [group_modify_findIdx partition_addQuery, if_neg hne]
    exact ⟨rfl, rfl⟩
  · split
    next entry hfind =>
      have hpart : entry.partition = candidate.2.uuid := by
        simpa using find?_some hfind
      rw [group_eraseP, if_neg hne]
      simp [group, Entry.addQuery, hpart, hne.symm]
    · simp [group, hne.symm]

/-- The partition of the candidate has an active entry afterwards, which lists the
query once more. -/
theorem entriesOf_insertCandidate_self (qid : Uuid) (priority : UInt64)
    (lists : List Entry × List Entry) (candidate : VastType × PartitionInfo) :
    (entriesOf (insertCandidate qid priority lists candidate).1 candidate.2.uuid).length =
        max 1 (entriesOf lists.1 candidate.2.uuid).length ∧
      load qid (entriesOf (insertCandidate qid priority lists candidate).1 candidate.2.uuid) =
        load qid (entriesOf lists.1 candidate.2.uuid ++ entriesOf lists.2 candidate.2.uuid) +
          1 := by
  have hadd : ∀ entry : Entry, (entry.addQuery qid priority).queries.count qid =
      entry.queries.count qid + 1 := by
    simp [Entry.addQuery]
  have hgroup : ∀ entry : Entry, entry ∈ entriesOf lists.1 candidate.2.uuid ↔
      entry ∈ lists.1 ∧ entry.partition = candidate.2.uuid := by
    simp [group]
  simp only [insertCandidate]
  split
  next hany =>
    simp only [entriesOf] at hgroup ⊢
    rw [group_modify_findIdx partition_addQuery, if_pos rfl]
    obtain ⟨entry, hentry, hpart⟩ := any_eq_true.mp hany
    obtain ⟨first, rest, hcons⟩ := exists_cons_of_ne_nil
      (ne_nil_of_mem ((hgroup entry).mpr ⟨hentry, by simpa using hpart⟩))
    rw [hcons]
    exact ⟨by simp, hadd first⟩
  next hany =>
    have hnil : group Entry.partition lists.1 candidate.2.uuid = [] := by
      rw [eq_nil_iff_forall_not_mem]
      intro entry hentry
      obtain ⟨hmem, hpart⟩ := (hgroup entry).mp hentry
      exact hany (any_eq_true.mpr ⟨entry, hmem, by simpa using hpart⟩)
    split
    next entry hfind =>
      have hpart : entry.partition = candidate.2.uuid := by
        simpa using find?_some hfind
      have hhead :
          (group Entry.partition lists.2 candidate.2.uuid).head? = some entry := by
        rw [group, head?_filter, hfind]
      obtain ⟨rest, hcons⟩ := head?_eq_some_iff.mp hhead
      simp only [group_append, hnil, hcons]
      simp only [group, filter_cons, partition_addQuery, hpart]
      exact ⟨rfl, hadd entry⟩
    next hfind =>
      have hparked : group Entry.partition lists.2 candidate.2.uuid = [] := by
        rw [← head?_eq_none_iff, group, head?_filter, hfind]
      simp only [group_append, hnil, hparked]
      simp [group, load]

end Candidate

/-! ## All candidates -/

/-- The partitions of a lookup, in the order in which they are inserted. -/
def uuids (candidates : List (VastType × PartitionInfo)) : List Uuid :=
  candidates.map fun candidate => candidate.2.uuid

theorem load_append {qid : Uuid} {first : List Entry} (hne : first ≠ []) (second : List Entry) :
    load qid (first ++ second) = load qid first := by
  cases first with
  | nil => exact absurd rfl hne
  | cons _ _ => rfl

theorem entriesOf_foldl_of_not_mem (qid : Uuid) (priority : UInt64)
    (candidates : List (VastType × PartitionInfo)) (lists : List Entry × List Entry) (pid : Uuid)
    (hpid : pid ∉ uuids candidates) :
    entriesOf (candidates.foldl (insertCandidate qid priority) lists).1 pid =
      entriesOf lists.1 pid := by
  induction candidates generalizing lists with
  | nil => rfl
  | cons candidate rest ih =>
    have hne : pid ≠ candidate.2.uuid := fun heq => hpid (by simp [uuids, heq])
    have hrest : pid ∉ uuids rest := fun hmem => hpid (mem_cons_of_mem _ hmem)
    rw [foldl_cons, ih _ hrest, (entriesOf_insertCandidate_of_ne hne).1]

/-- Every candidate partition gets an active entry, if it has none, and the entry
lists the query as often as the partition occurs. -/
theorem entriesOf_foldl_of_mem (qid : Uuid) (priority : UInt64)
    (candidates : List (VastType × PartitionInfo)) (lists : List Entry × List Entry) (pid : Uuid)
    (hpid : pid ∈ uuids candidates) :
    (entriesOf (candidates.foldl (insertCandidate qid priority) lists).1 pid).length =
        max 1 (entriesOf lists.1 pid).length ∧
      load qid (entriesOf (candidates.foldl (insertCandidate qid priority) lists).1 pid) =
        load qid (entriesOf lists.1 pid ++ entriesOf lists.2 pid) +
          (uuids candidates).count pid := by
  induction candidates generalizing lists with
  | nil => simp [uuids] at hpid
  | cons candidate rest ih =>
    have hcount : (uuids (candidate :: rest)).count pid =
        (uuids rest).count pid + if candidate.2.uuid = pid then 1 else 0 := by
      simp [uuids, count_cons]
    rw [foldl_cons, hcount]
    by_cases heq : candidate.2.uuid = pid
    · subst heq
      obtain ⟨hlength, hload⟩ := entriesOf_insertCandidate_self qid priority lists candidate
      have hne : entriesOf (insertCandidate qid priority lists candidate).1 candidate.2.uuid ≠
          [] := by
        intro hnil
        rw [hnil] at hlength
        simp at hlength
        omega
      rw [if_pos rfl]
      by_cases hrest : candidate.2.uuid ∈ uuids rest
      · obtain ⟨hlength', hload'⟩ := ih (insertCandidate qid priority lists candidate) hrest
        rw [hload', load_append hne]
        omega
      · rw [entriesOf_foldl_of_not_mem _ _ _ _ _ hrest, count_eq_zero_of_not_mem hrest]
        omega
    · have hne : pid ≠ candidate.2.uuid := fun h => heq h.symm
      obtain ⟨hactive, hparked⟩ := entriesOf_insertCandidate_of_ne hne
      have hrest : pid ∈ uuids rest := (mem_cons.mp hpid).resolve_left hne
      obtain ⟨hlength, hload⟩ := ih (insertCandidate qid priority lists candidate) hrest
      rw [hlength, hload, hactive, hparked, if_neg heq]
      exact ⟨rfl, rfl⟩

/-! ## The whole insertion -/

/-- The lookup has no partition, or not as many as the query says, or the query is
known. -/
def Unacceptable (queue : QueryQueue) (state : QueryState) (candidates : CatalogLookupResult) :
    Prop :=
  candidates.candidates = [] ∨ state.candidatePartitions.toNat ≠ candidates.size ∨
    (queue.queries state.queryContextsPerType.begin.id).isSome = true

/-- The insertion fails without an effect, or queues the query once for every
candidate. -/
structure AllOrNothing (std : PrioritySort) (queue : QueryQueue) (state : QueryState)
    (candidates : CatalogLookupResult) : Prop where
  rejects : Unacceptable queue state candidates →
    ∃ error, queue.insert std state candidates = (some error, queue)
  accepts : ¬ Unacceptable queue state candidates →
    (queue.insert std state candidates).1 = none ∧
      ∀ pid ∈ uuids candidates.candidates, ∃ entry,
        entriesOf (queue.insert std state candidates).2.partitions pid = [entry] ∧
          entry.queries.count state.queryContextsPerType.begin.id = 1

/-- What the insertion does not check. A lookup without partitions must not come
with schemas if the query expects no partition; and otherwise partitions occur
once, at most one active entry has a partition, and no entry that is to take the
query lists it. -/
structure Insertable (queue : QueryQueue) (state : QueryState) (candidates : CatalogLookupResult) :
    Prop where
  nonempty : candidates.candidates = [] → candidates.candidateInfos = [] ∨
    state.candidatePartitions ≠ 0 ∨
      (queue.queries state.queryContextsPerType.begin.id).isSome = true
  fresh : ¬ Unacceptable queue state candidates →
    (uuids candidates.candidates).Nodup ∧ ∀ pid ∈ uuids candidates.candidates,
      (entriesOf queue.partitions pid).length ≤ 1 ∧
        load state.queryContextsPerType.begin.id
          (entriesOf queue.partitions pid ++ entriesOf queue.inactivePartitions pid) = 0

variable {queue : QueryQueue} {state : QueryState} {candidates : CatalogLookupResult}

variable (std : PrioritySort)

theorem insert_eq_none_iff :
    (queue.insert std state candidates).1 = none ↔ queue.Passes state candidates := by
  rcases insert_eq_or std queue state candidates with ⟨hfails, _, hreject⟩ | ⟨hpasses, hinsert⟩
  · simp [hreject, hfails]
  · simp [hinsert, hpasses]

theorem passes_of_not_unacceptable (hacceptable : ¬ Unacceptable queue state candidates) :
    queue.Passes state candidates := by
  rw [Unacceptable, not_or, not_or, not_not, Option.not_isSome_iff_eq_none] at hacceptable
  refine ⟨fun hinfos => hacceptable.1 ?_, hacceptable.2⟩
  rw [CatalogLookupResult.candidates, hinfos]
  rfl

theorem entriesOf_sort_eq_singleton_iff (entries : List Entry) (pid : Uuid) (entry : Entry) :
    entriesOf (std.sort entries) pid = [entry] ↔ entriesOf entries pid = [entry] := by
  have hperm : (entriesOf (std.sort entries) pid).Perm (entriesOf entries pid) :=
    (std.perm entries).filter _
  constructor
  · intro heq
    rw [heq] at hperm
    exact singleton_perm.mp hperm |>.symm
  · intro heq
    rw [heq] at hperm
    exact perm_singleton.mp hperm

theorem exists_singleton_iff {qid : Uuid} {entries : List Entry} :
    (∃ entry, entries = [entry] ∧ entry.queries.count qid = 1) ↔
      entries.length = 1 ∧ load qid entries = 1 := by
  constructor
  · rintro ⟨entry, rfl, hcount⟩
    exact ⟨rfl, hcount⟩
  · rintro ⟨hlen, hload⟩
    obtain ⟨entry, rfl⟩ := length_eq_one_iff.mp hlen
    exact ⟨entry, rfl, hload⟩

/-- What is asked of the active list, in terms of the lists before. -/
theorem entriesOf_insert_iff (hacceptable : ¬ Unacceptable queue state candidates) {pid : Uuid}
    (hpid : pid ∈ uuids candidates.candidates) :
    (∃ entry, entriesOf (queue.insert std state candidates).2.partitions pid = [entry] ∧
      entry.queries.count state.queryContextsPerType.begin.id = 1) ↔
    ((entriesOf queue.partitions pid).length ≤ 1 ∧
      load state.queryContextsPerType.begin.id
        (entriesOf queue.partitions pid ++ entriesOf queue.inactivePartitions pid) +
          (uuids candidates.candidates).count pid = 1) := by
  obtain ⟨hfails, -⟩ | ⟨-, hinsert⟩ := insert_eq_or std queue state candidates
  · exact absurd (passes_of_not_unacceptable hacceptable) hfails
  rw [hinsert]
  simp only [entriesOf_sort_eq_singleton_iff]
  rw [exists_singleton_iff]
  obtain ⟨hlength, hload⟩ := entriesOf_foldl_of_mem state.queryContextsPerType.begin.id
    state.priority candidates.candidates (queue.partitions, queue.inactivePartitions) pid hpid
  rw [hlength, hload]
  simp only
  omega

/-- Inserting a query is all or nothing exactly when the lookup and the lists are
as described. -/
theorem insert_allOrNothing_iff (queue : QueryQueue) (state : QueryState)
    (candidates : CatalogLookupResult) :
    AllOrNothing std queue state candidates ↔ Insertable queue state candidates := by
  constructor
  · rintro ⟨hrejects, haccepts⟩
    constructor
    · intro hnone
      by_contra hnot
      rw [not_or, not_or, not_not, Option.not_isSome_iff_eq_none] at hnot
      obtain ⟨error, herror⟩ := hrejects (Or.inl hnone)
      have hsize : state.candidatePartitions.toNat = candidates.size := by
        rw [hnot.2.1, ← length_candidates, hnone]
        rfl
      have hnone := (insert_eq_none_iff std).mpr ⟨hnot.1, hsize, hnot.2.2⟩
      rw [herror] at hnone
      cases hnone
    · intro hacceptable
      have hcounts := fun pid hpid =>
        (entriesOf_insert_iff std hacceptable hpid).mp ((haccepts hacceptable).2 pid hpid)
      have hpos : ∀ pid ∈ uuids candidates.candidates,
          0 < (uuids candidates.candidates).count pid := fun pid hpid => count_pos_iff.mpr hpid
      constructor
      · rw [nodup_iff_count_eq_one]
        intro pid hpid
        have := hcounts pid hpid
        have := hpos pid hpid
        omega
      · intro pid hpid
        have := hcounts pid hpid
        have := hpos pid hpid
        omega
  · rintro ⟨hnonempty, hfresh⟩
    constructor
    · intro hunacceptable
      obtain ⟨-, hreject⟩ | ⟨⟨hinfos, hsize, hunknown⟩, -⟩ :=
        insert_eq_or std queue state candidates
      · exact hreject
      exfalso
      simp only [Unacceptable, hunknown, hsize] at hunacceptable hnonempty
      have hnone : candidates.candidates = [] := by simpa using hunacceptable
      rw [← length_candidates, hnone] at hsize
      exact ((hnonempty hnone).resolve_left hinfos).elim
        (fun hpartitions => hpartitions (UInt32.toNat_inj.mp hsize)) (by simp)
    · intro hacceptable
      obtain ⟨hnodup, hentries⟩ := hfresh hacceptable
      constructor
      · exact (insert_eq_none_iff std).mpr (passes_of_not_unacceptable hacceptable)
      · intro pid hpid
        rw [entriesOf_insert_iff std hacceptable hpid]
        have hcount := nodup_iff_count_eq_one.mp hnodup pid hpid
        have := hentries pid hpid
        omega

def idleQuery : QueryState where
  queryContextsPerType := ⟨[(.none, ⟨1, .none, 100⟩)], by simp⟩
  client := ⟨0⟩
  candidatePartitions := 0
  requestedPartitions := 0

/-- A lookup of a catalog that knows a schema and has no candidate for it. -/
def schemaOnly : CatalogLookupResult :=
  ⟨[(.none, ⟨.none, []⟩)]⟩

/-- The query is stored, and no entry will ever complete it. -/
theorem idle_query_is_stored : Unacceptable {} idleQuery schemaOnly ∧
      (insert insertion {} idleQuery schemaOnly).1 = none ∧
      (insert insertion {} idleQuery schemaOnly).2.queries 1 = some idleQuery ∧
      (insert insertion {} idleQuery schemaOnly).2.entries = [] :=
  ⟨Or.inl rfl, rfl, rfl, rfl⟩

end Vast.QueryQueue
