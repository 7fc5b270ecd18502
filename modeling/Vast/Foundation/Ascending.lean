import Mathlib.Algebra.Order.Ring.Nat
import Mathlib.Data.List.Destutter
import Mathlib.Data.List.Nodup
import Mathlib.Data.List.TakeWhile

/-! # Ascending lists

Lists that ascend strictly in a key stand for sets and for maps. Intersection and
union go through both lists at once, and are right only on ascending lists.
-/

namespace Foundation

open List List.Pairwise

variable {α β κ : Type*} [LinearOrder κ] {head : α}

def Ascending (key : α → κ) (items : List α) : Prop :=
  items.Pairwise fun a b => key a < key b

instance (key : α → κ) (items : List α) : Decidable (Ascending key items) :=
  inferInstanceAs (Decidable (items.Pairwise _))

namespace Ascending

variable {key : α → κ} {items others : List α}

theorem tail (hasc : Ascending key (head :: items)) : Ascending key items :=
  (pairwise_cons.mp hasc).2

theorem lt_of_mem {item : α} (hasc : Ascending key (head :: items)) (hitem : item ∈ items) :
    key head < key item :=
  (pairwise_cons.mp hasc).1 item hitem

theorem filter (hasc : Ascending key items) (keep : α → Bool) : Ascending key (items.filter keep) :=
  Pairwise.filter keep hasc

theorem map {f : α → β} {key' : β → κ} (hkey : ∀ item, key' (f item) = key item)
    (hasc : Ascending key items) : Ascending key' (items.map f) := by
  rw [Ascending, pairwise_map]
  simp only [hkey]
  exact hasc

theorem nodup_keys (hasc : Ascending key items) : (items.map key).Nodup :=
  pairwise_map.mpr (hasc.imp ne_of_lt)

theorem eq_of_key_eq (hasc : Ascending key items) {a b : α} (ha : a ∈ items)
    (hb : b ∈ items) (hkey : key a = key b) : a = b :=
  inj_on_of_nodup_map hasc.nodup_keys ha hb hkey

theorem ext (hitems : Ascending key items) (hothers : Ascending key others)
    (hmem : ∀ item, item ∈ items ↔ item ∈ others) : items = others := by
  have hperm : items.Perm others :=
    (perm_ext_iff_of_nodup (Nodup.of_map key hitems.nodup_keys)
      (Nodup.of_map key hothers.nodup_keys)).mpr hmem
  have hantisymm : ∀ a b, a ∈ items → b ∈ others → key a < key b → key b < key a → a = b :=
    fun a b _ _ hab hba => absurd hab (not_lt_of_gt hba)
  exact hperm.eq_of_pairwise hantisymm hitems hothers

end Ascending

/-! ## Set operations -/

namespace Ascending

variable (key : α → κ) {bound : κ} {item : α} {f : α → β} {key' : β → κ}

/-- The items whose key occurs in the other list. The other list is skipped up to
the key at hand. -/
def intersect : List α → List α → List α
  | [], _ => []
  | item :: items, others =>
    match others.dropWhile fun other => decide (key other < key item) with
    | [] => []
    | other :: rest =>
      if key item < key other then intersect items (other :: rest)
      else item :: intersect items rest

/-- The intersection in one list. What is less than the other item at hand is erased. -/
def inplaceIntersect : List α → List α → List α
  | item :: items, other :: others =>
    if key item < key other then inplaceIntersect items (other :: others)
    else if key other < key item then inplaceIntersect (item :: items) others
    else item :: inplaceIntersect items others
  | [], _ => []
  | _ :: _, [] => []
termination_by items others => items.length + others.length

/-- Merge two lists; of equal keys the one of the first list comes first. -/
def merge : List α → List α → List α
  | [], others => others
  | item :: items, others =>
    (others.takeWhile fun other => decide (key other < key item)) ++
      item :: merge items (others.dropWhile fun other => decide (key other < key item))

/-- Keep the first of adjacent elements with the same key, after one with the
given key. -/
def uniqueAfter (last : κ) : List α → List α
  | [] => []
  | item :: items =>
    if key item = last then uniqueAfter last items else item :: uniqueAfter (key item) items

/-- Keep the first of adjacent elements with the same key. -/
def unique : List α → List α
  | [] => []
  | item :: items => item :: uniqueAfter key (key item) items

def unify (items others : List α) : List α :=
  unique key (merge key items others)

variable {key} {items others : List α}

theorem lt_of_mem_takeWhile
    (hitem : item ∈ others.takeWhile fun other => decide (key other < bound)) :
    key item < bound := by
  simpa using mem_takeWhile_imp hitem

theorem le_of_mem_dropWhile (hothers : Ascending key others)
    (hitem : item ∈ others.dropWhile fun other => decide (key other < bound)) :
    bound ≤ key item := by
  induction others with
  | nil => simp at hitem
  | cons head rest ih =>
    by_cases hhead : key head < bound
    · rw [dropWhile_cons_of_pos (by simpa using hhead)] at hitem
      exact ih hothers.tail hitem
    · rw [dropWhile_cons_of_neg (by simpa using hhead)] at hitem
      rcases mem_cons.mp hitem with rfl | hrest
      · exact not_lt.mp hhead
      · exact (not_lt.mp hhead).trans (hothers.lt_of_mem hrest).le

omit [LinearOrder κ] in
theorem mem_takeWhile_or_dropWhile (skip : α → Bool) (hitem : item ∈ others) :
    item ∈ others.takeWhile skip ∨ item ∈ others.dropWhile skip := by
  rw [← mem_append, takeWhile_append_dropWhile]
  exact hitem

section

variable (hothers : Ascending key others)

include hothers

theorem mem_dropWhile_iff : (item ∈ others.dropWhile fun other => decide (key other < bound)) ↔
      item ∈ others ∧ bound ≤ key item := by
  constructor
  · intro hitem
    exact ⟨(dropWhile_sublist _).subset hitem, le_of_mem_dropWhile hothers hitem⟩
  · rintro ⟨hitem, hle⟩
    rcases mem_takeWhile_or_dropWhile _ hitem with htaken | hleft
    · exact absurd (lt_of_mem_takeWhile htaken) (not_lt.mpr hle)
    · exact hleft

theorem mem_takeWhile_iff : (item ∈ others.takeWhile fun other => decide (key other < bound)) ↔
      item ∈ others ∧ key item < bound := by
  constructor
  · exact fun hitem => ⟨(takeWhile_sublist _).subset hitem, lt_of_mem_takeWhile hitem⟩
  · rintro ⟨hitem, hlt⟩
    rcases mem_takeWhile_or_dropWhile _ hitem with htaken | hleft
    · exact htaken
    · exact absurd hlt (not_lt.mpr (le_of_mem_dropWhile hothers hleft))

theorem dropWhile (skip : α → Bool) : Ascending key (others.dropWhile skip) :=
  sublist (dropWhile_sublist skip) hothers

/-- Skipping smaller keys does not hide a key. -/
theorem exists_mem_dropWhile_iff {wanted : κ} (hle : bound ≤ wanted) :
    (∃ other ∈ others.dropWhile fun other => decide (key other < bound), key other = wanted) ↔
      ∃ other ∈ others, key other = wanted := by
  constructor
  · rintro ⟨other, hother, hkey⟩
    exact ⟨other, ((mem_dropWhile_iff hothers).mp hother).1, hkey⟩
  · rintro ⟨other, hother, hkey⟩
    exact ⟨other, (mem_dropWhile_iff hothers).mpr ⟨hother, hkey ▸ hle⟩, hkey⟩

end

theorem le_of_mem_cons (hitems : Ascending key (head :: items)) (hitem : item ∈ head :: items) :
    key head ≤ key item := by
  rcases mem_cons.mp hitem with rfl | hrest
  · exact le_rfl
  · exact (hitems.lt_of_mem hrest).le

/-- On ascending lists, exactly the items whose key is in the other list are kept. -/
theorem intersect_eq_filter {present : α → Bool}
    (hpresent : ∀ item ∈ items, present item = true ↔ ∃ other ∈ others, key other = key item)
    (hitems : Ascending key items) (hothers : Ascending key others) :
    intersect key items others = items.filter present := by
  induction items generalizing others with
  | nil => rfl
  | cons head rest ih =>
    have hleft : ∀ item ∈ head :: rest, present item = true ↔ ∃ other ∈
        others.dropWhile fun other => decide (key other < key head), key other = key item := by
      intro item hitem
      rw [hpresent item hitem, hothers.exists_mem_dropWhile_iff (hitems.le_of_mem_cons hitem)]
    have hdropped := hothers.dropWhile fun other => decide (key other < key head)
    have hle : ∀ other ∈ others.dropWhile fun other => decide (key other < key head),
        key head ≤ key other := fun other => le_of_mem_dropWhile hothers
    rw [intersect]
    generalize (others.dropWhile fun other => decide (key other < key head)) = left at *
    cases left with
    | nil =>
      symm
      rw [filter_eq_nil_iff]
      intro item hitem
      simp [hleft item hitem]
    | cons first left =>
      obtain ⟨hhead, hrest⟩ := forall_mem_cons.mp hleft
      simp only
      split
      next hlt =>
        have habsent : ¬present head = true := by
          rw [hhead]
          rintro ⟨other, hother, hkey⟩
          exact (hlt.trans_le (hdropped.le_of_mem_cons hother)).ne' hkey
        rw [filter_cons_of_neg habsent, ih hrest hitems.tail hdropped]
      next hnot =>
        have hkey : key first = key head :=
          le_antisymm (not_lt.mp hnot) (hle first mem_cons_self)
        rw [filter_cons_of_pos (hhead.mpr ⟨first, mem_cons_self, hkey⟩),
          ih ?_ hitems.tail hdropped.tail]
        -- The key that is used up is not the one of a later item.
        intro item hitem
        rw [hrest item hitem]
        simp only [mem_cons, or_and_right, exists_or, exists_eq_left]
        exact or_iff_right (hkey.trans_ne (hitems.lt_of_mem hitem).ne)

theorem inplaceIntersect_eq (key : α → κ) (items others : List α) :
    inplaceIntersect key items others = intersect key items others := by
  fun_induction inplaceIntersect key items others with
  | case1 item items other others hlt ih =>
    rw [ih, intersect.eq_2, dropWhile_cons_of_neg (by simpa using hlt.le)]
    simp [hlt]
  | case2 item items other others hnot hlt ih =>
    rw [ih, intersect, intersect, dropWhile_cons_of_pos (by simpa using hlt)]
  | case3 item items other others hnot hge ih =>
    rw [ih, intersect, dropWhile_cons_of_neg (by simpa using hge)]
    simp [hnot]
  | case4 | case5 => rfl

/-- Selecting twice from one list selects by both. -/
theorem intersect_filter (hkey : ∀ item, key' (f item) = key item) (hitems : Ascending key items)
    (first second : α → Bool) :
    intersect key' ((items.filter first).map f) ((items.filter second).map f) =
      (items.filter fun item => first item && second item).map f := by
  rw [intersect_eq_filter (fun mapped _ => decide_eq_true_iff) ((hitems.filter first).map hkey)
    ((hitems.filter second).map hkey), filter_map, filter_filter]
  congr 1
  refine filter_congr fun item hitem => ?_
  rw [Bool.and_comm, Bool.eq_iff_iff, Bool.and_eq_true, Bool.and_eq_true, Function.comp_apply,
    decide_eq_true_eq]
  refine and_congr_right fun _ => ⟨?_, fun hsecond => ?_⟩
  · rintro ⟨other, hother, heq⟩
    obtain ⟨origin, horigin, rfl⟩ := mem_map.mp hother
    rw [mem_filter] at horigin
    rw [hkey, hkey] at heq
    exact hitems.eq_of_key_eq horigin.1 hitem heq ▸ horigin.2
  · exact ⟨f item, mem_map_of_mem (mem_filter.mpr ⟨hitem, hsecond⟩), rfl⟩

theorem merge_eq (key : α → κ) (items others : List α) :
    merge key items others = items.merge others fun a b => decide (key a ≤ key b) := by
  induction items generalizing others with
  | nil => rw [merge, nil_merge]
  | cons head rest ih =>
    induction others with
    | nil => rw [merge, ih, takeWhile_nil, dropWhile_nil, merge_right, merge_right, nil_append]
    | cons other others ihOthers =>
      rw [merge] at ihOthers ⊢
      rw [cons_merge_cons]
      by_cases hlt : key other < key head
      · simp [hlt, ihOthers]
      · simp [hlt, not_lt.mp hlt, ih]

theorem mem_merge : item ∈ merge key items others ↔ item ∈ items ∨ item ∈ others := by
  rw [merge_eq, List.mem_merge]

/-- Merging ascending lists leaves no key behind a greater one. -/
theorem pairwise_merge (hitems : Ascending key items) (hothers : Ascending key others) :
    (merge key items others).Pairwise fun a b => key a ≤ key b := by
  have hsorted (list : List α) (hlist : Ascending key list) :
      list.Pairwise fun a b => decide (key a ≤ key b) = true :=
    hlist.imp fun hlt => decide_eq_true hlt.le
  have hmerge := List.pairwise_merge (by simpa using fun _ _ _ => le_trans)
    (by simpa using fun a b => le_total (key a) (key b)) _ _ (hsorted items hitems)
    (hsorted others hothers)
  simpa [merge_eq] using hmerge

/-- Without greater keys before lesser ones, equal keys are adjacent. -/
theorem unique_eq_destutter (hitems : items.Pairwise fun a b => key a ≤ key b) :
    unique key items = items.destutter fun a b => key a < key b := by
  cases items with
  | nil => rfl
  | cons head rest =>
    rw [unique, destutter_cons']
    induction rest generalizing head with
    | nil => rfl
    | cons next rest ih =>
      obtain ⟨hhead, hrest⟩ := pairwise_cons.mp hitems
      rw [uniqueAfter, destutter'_cons]
      by_cases heq : key next = key head
      · rw [if_pos heq, if_neg heq.not_gt]
        exact ih head (sublist ((sublist_cons_self next rest).cons_cons head) hitems)
      · rw [if_neg heq, if_pos ((hhead next mem_cons_self).lt_of_ne' heq), ih next hrest]

theorem exists_mem_uniqueAfter (last : κ) (hitem : item ∈ items) :
    key item = last ∨ ∃ kept ∈ uniqueAfter key last items, key kept = key item := by
  induction items generalizing last with
  | nil => simp at hitem
  | cons head rest ih =>
    rw [uniqueAfter]
    split
    next heq =>
      rcases mem_cons.mp hitem with rfl | hrest
      · exact Or.inl heq
      · exact ih last hrest
    · rcases mem_cons.mp hitem with rfl | hrest
      · exact Or.inr ⟨item, mem_cons_self, rfl⟩
      · rcases ih (key head) hrest with heq | ⟨kept, hkept, hkey⟩
        · exact Or.inr ⟨head, mem_cons_self, heq.symm⟩
        · exact Or.inr ⟨kept, mem_cons_of_mem head hkept, hkey⟩

theorem ascending_unify (hitems : Ascending key items) (hothers : Ascending key others) :
    Ascending key (unify key items others) := by
  rw [unify, unique_eq_destutter (pairwise_merge hitems hothers), Ascending, ← pairwise_map]
  exact ((isChain_map key).mpr (isChain_destutter _ _)).pairwise

theorem mem_of_mem_unify (hitems : Ascending key items) (hothers : Ascending key others)
    (hitem : item ∈ unify key items others) : item ∈ items ∨ item ∈ others := by
  rw [unify, unique_eq_destutter (pairwise_merge hitems hothers)] at hitem
  exact mem_merge.mp ((destutter_sublist _ _).subset hitem)

theorem exists_mem_unify (key : α → κ) (hitem : item ∈ items ∨ item ∈ others) :
    ∃ kept ∈ unify key items others, key kept = key item := by
  have hmerged : item ∈ merge key items others ↔ _ := mem_merge
  rw [← hmerged] at hitem
  rw [unify]
  cases hmerge : merge key items others with
  | nil => simp [hmerge] at hitem
  | cons head rest =>
    rw [hmerge] at hitem
    rcases mem_cons.mp hitem with rfl | hrest
    · exact ⟨item, mem_cons_self, rfl⟩
    · rcases exists_mem_uniqueAfter (key head) hrest with heq | ⟨kept, hkept, hkey⟩
      · exact ⟨head, mem_cons_self, heq.symm⟩
      · exact ⟨kept, mem_cons_of_mem head hkept, hkey⟩

/-- Uniting two selections from one list selects by either. -/
theorem unify_filter (hkey : ∀ item, key' (f item) = key item) (hitems : Ascending key items)
    (first second : α → Bool) :
    unify key' ((items.filter first).map f) ((items.filter second).map f) =
      (items.filter fun item => first item || second item).map f := by
  have hfirst : Ascending key' ((items.filter first).map f) := (hitems.filter first).map hkey
  have hsecond : Ascending key' ((items.filter second).map f) := (hitems.filter second).map hkey
  have heither : Ascending key' ((items.filter fun item => first item || second item).map f) :=
    (hitems.filter _).map hkey
  have hmem : ∀ mapped, (mapped ∈ (items.filter first).map f ∨
      mapped ∈ (items.filter second).map f) ↔
        mapped ∈ (items.filter fun item => first item || second item).map f := by
    intro mapped
    rw [← mem_append, ← map_append, mem_map]
    simp [and_or_left]
  apply ext (ascending_unify hfirst hsecond) heither
  intro mapped
  rw [← hmem mapped]
  constructor
  · exact mem_of_mem_unify hfirst hsecond
  · intro hmapped
    obtain ⟨kept, hkept, heq⟩ := exists_mem_unify key' hmapped
    have hkept' := (hmem kept).mp (mem_of_mem_unify hfirst hsecond hkept)
    obtain rfl := heither.eq_of_key_eq hkept' ((hmem mapped).mp hmapped) heq
    exact hkept

end Ascending

/-! ## Maps -/

/-- A map as a vector of entries in the order of the keys. -/
structure FlatMap (κ β : Type*) [LinearOrder κ] where
  entries : List (κ × β)
  ascending : Ascending Prod.fst entries

namespace FlatMap

def insertEntry (key : κ) (value : β) : List (κ × β) → List (κ × β)
  | [] => [(key, value)]
  | entry :: entries =>
    if key < entry.1 then (key, value) :: entry :: entries
    else if entry.1 < key then entry :: insertEntry key value entries
    else (key, value) :: entries

variable {value : β} {entries : List (κ × β)} {entry : κ × β}

theorem key_mem_insertEntry {key : κ} (hentry : entry ∈ insertEntry key value entries) :
    entry = (key, value) ∨ entry ∈ entries := by
  induction entries with
  | nil => simpa [insertEntry] using hentry
  | cons head rest ih =>
    rw [insertEntry] at hentry
    split at hentry
    · exact mem_cons.mp hentry
    · split at hentry
      · rcases mem_cons.mp hentry with rfl | hrest
        · exact Or.inr mem_cons_self
        · exact (ih hrest).imp_right (mem_cons_of_mem head)
      · exact (mem_cons.mp hentry).imp_right (mem_cons_of_mem head)

theorem ascending_insertEntry (key : κ) (value : β) (hents : Ascending Prod.fst entries) :
    Ascending Prod.fst (insertEntry key value entries) := by
  induction entries with
  | nil => exact pairwise_singleton _ _
  | cons head rest ih =>
    rw [insertEntry]
    split
    next hlt =>
      refine pairwise_cons.mpr ⟨fun entry hentry => ?_, hents⟩
      rcases mem_cons.mp hentry with rfl | hrest
      · exact hlt
      · exact hlt.trans (hents.lt_of_mem hrest)
    next hge =>
      split
      next hlt =>
        refine pairwise_cons.mpr ⟨fun entry hentry => ?_, ih hents.tail⟩
        rcases key_mem_insertEntry hentry with rfl | hrest
        · exact hlt
        · exact hents.lt_of_mem hrest
      next hle =>
        have heq : head.1 = key := le_antisymm (not_lt.mp hge) (not_lt.mp hle)
        exact pairwise_cons.mpr ⟨fun entry hentry => heq ▸ hents.lt_of_mem hentry, hents.tail⟩

def empty : FlatMap κ β where
  entries := []
  ascending := List.Pairwise.nil

variable (map : FlatMap κ β)

def insert (key : κ) (value : β) : FlatMap κ β where
  entries := insertEntry key value map.entries
  ascending := ascending_insertEntry key value map.ascending

def erase (key : κ) : FlatMap κ β where
  entries := map.entries.filter fun entry => decide (entry.1 ≠ key)
  ascending := map.ascending.filter _

def ofList (entries : List (κ × β)) : FlatMap κ β :=
  entries.foldl (fun map entry => map.insert entry.1 entry.2) empty

theorem mem_of_mem_insert {map : FlatMap κ β} {key : κ}
    (hentry : entry ∈ (map.insert key value).entries) :
    entry = (key, value) ∨ entry ∈ map.entries :=
  key_mem_insertEntry hentry

theorem mem_of_mem_ofList (hentry : entry ∈ (ofList entries).entries) : entry ∈ entries := by
  have hfold : ∀ (entries : List (κ × β)) (map : FlatMap κ β),
      entry ∈ (entries.foldl (fun map entry => map.insert entry.1 entry.2) map).entries →
        entry ∈ entries ∨ entry ∈ map.entries := by
    intro entries
    induction entries with
    | nil => exact fun map hentry => Or.inr hentry
    | cons head rest ih =>
      intro map hentry
      rcases ih _ hentry with hrest | hmap
      · exact Or.inl (mem_cons_of_mem head hrest)
      · rcases mem_of_mem_insert hmap with rfl | hmap
        · exact Or.inl mem_cons_self
        · exact Or.inr hmap
  exact (hfold entries empty hentry).resolve_right (by simp [empty])

def contains (key : κ) : Bool :=
  map.entries.any fun entry => decide (entry.1 = key)

end FlatMap

end Foundation
