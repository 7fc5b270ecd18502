import Mathlib.Data.List.Nodup
import Mathlib.Data.List.Perm.Basic

/-! # Lists with distinct keys

A list whose elements carry pairwise distinct keys behaves like a finite map:
updating the first element with a key is a pointwise update, and removing
elements keeps the keys distinct.
-/

namespace Foundation.KeyedList

open List

variable {α β κ : Type*} [DecidableEq κ] {key : α → κ} {items : List α} {wanted : κ}
  {update : α → α} {item : α}

theorem map_update_of_forall_ne (update : α → α) (hne : ∀ item ∈ items, key item ≠ wanted) :
    (items.map fun item => if key item = wanted then update item else item) = items := by
  conv_rhs => rw [← map_id items]
  exact map_congr_left fun item hitem => by simp [hne item hitem]

theorem modify_findIdx_eq_map (hnodup : (items.map key).Nodup) (wanted : κ) (update : α → α) :
    items.modify (items.findIdx fun item => decide (key item = wanted)) update =
      items.map fun item => if key item = wanted then update item else item := by
  induction items with
  | nil => rfl
  | cons head tail ih =>
    obtain ⟨hhead, htail⟩ := nodup_cons.mp hnodup
    by_cases heq : key head = wanted
    · have hrest : ∀ item ∈ tail, key item ≠ wanted := by
        intro item hitem hkey
        exact hhead (heq ▸ hkey ▸ mem_map_of_mem hitem)
      simp [findIdx_cons, heq, map_update_of_forall_ne update hrest]
    · simp [findIdx_cons, heq, ih htail]

omit [DecidableEq κ] in
theorem map_modify (hkey : ∀ item, key (update item) = key item) (items : List α) (index : Nat) :
    (items.modify index update).map key = items.map key := by
  induction items generalizing index with
  | nil => cases index <;> rfl
  | cons head tail ih =>
    cases index with
    | zero => simp [hkey]
    | succ index => simp [ih]

theorem map_filterMap_sublist {γ : Type*} {key : α → γ} {key' : β → γ} {select : α → Option β}
    (hkey : ∀ item selected, select item = some selected → key' selected = key item)
    (items : List α) : ((items.filterMap select).map key').Sublist (items.map key) := by
  induction items with
  | nil => exact Sublist.refl _
  | cons head tail ih =>
    cases hsel : select head with
    | none =>
      rw [filterMap_cons_none hsel]
      exact ih.cons _
    | some selected =>
      rw [filterMap_cons_some hsel, map_cons, hkey head selected hsel]
      exact ih.cons_cons _

theorem countP_key_eq_one (hnodup : (items.map key).Nodup) (hitem : item ∈ items) :
    items.countP (fun other => decide (key other = key item)) = 1 := by
  have hcount : (items.map key).count (key item) = 1 :=
    count_eq_one_of_mem hnodup (mem_map_of_mem hitem)
  rw [count, countP_map] at hcount
  refine (countP_congr fun other _ => ?_).trans hcount
  simp

omit [DecidableEq κ] in
theorem perm_cons_eraseP {wanted : α → Bool} (hfind : items.find? wanted = some item) :
    items.Perm (item :: items.eraseP wanted) := by
  obtain ⟨hitem, before, after, rfl, hbefore⟩ := find?_eq_some_iff_append.mp hfind
  rw [eraseP_append_right _ (by simpa using hbefore), eraseP_cons_of_pos hitem]
  exact perm_middle

omit [DecidableEq κ] in
theorem forall_ne_of_nodup_append {front back : List α}
    (hnodup : ((front ++ back).map key).Nodup) (hitem : item ∈ front) :
    ∀ other ∈ back, key other ≠ key item := by
  rw [map_append, nodup_append'] at hnodup
  exact fun other hother heq => hnodup.2.2 (mem_map_of_mem hitem) (heq ▸ mem_map_of_mem hother)

/-! ## Groups -/

def group (key : α → κ) (items : List α) (wanted : κ) : List α :=
  items.filter fun item => decide (key item = wanted)

theorem group_append (key : α → κ) (first second : List α) (wanted : κ) :
    group key (first ++ second) wanted = group key first wanted ++ group key second wanted :=
  filter_append ..

theorem group_cons (key : α → κ) (item : α) (items : List α) (wanted : κ) :
    group key (item :: items) wanted =
      if key item = wanted then item :: group key items wanted else group key items wanted := by
  simp [group, filter_cons]

theorem group_map (hkey : ∀ item, key (update item) = key item) (items : List α) (wanted : κ) :
    group key (items.map update) wanted = (group key items wanted).map update := by
  rw [group, filter_map]
  exact congrArg (map update) (filter_congr fun item _ => by simp [hkey])

theorem mem_group : item ∈ group key items wanted ↔ item ∈ items ∧ key item = wanted := by
  rw [group, mem_filter, decide_eq_true_eq]

theorem group_of_not_mem (hwanted : wanted ∉ items.map key) : group key items wanted = [] := by
  rw [group, filter_eq_nil_iff]
  intro item hitem hkey
  exact hwanted (mem_map.mpr ⟨item, hitem, of_decide_eq_true hkey⟩)

theorem group_modify_findIdx (hkey : ∀ item, key (update item) = key item) (items : List α)
    (changed wanted : κ) :
    group key (items.modify (items.findIdx fun item => decide (key item = changed)) update) wanted =
      if wanted = changed then (group key items wanted).modifyHead update
      else group key items wanted := by
  unfold group
  induction items with
  | nil => simp
  | cons head tail ih =>
    by_cases hhead : key head = changed
    · simp only [findIdx_cons, hhead, decide_true, cond_true, modify_zero_cons, filter_cons, hkey]
      by_cases hwanted : wanted = changed
      · simp [hwanted]
      · have hne : changed ≠ wanted := fun heq => hwanted heq.symm
        simp [hwanted, hne]
    · simp only [findIdx_cons, hhead, decide_false, cond_false, modify_succ_cons, filter_cons, ih]
      by_cases hwanted : wanted = changed
      · simp [hwanted, hhead]
      · simp [hwanted]

theorem group_eraseP (key : α → κ) (items : List α) (removed wanted : κ) :
    group key (items.eraseP fun item => decide (key item = removed)) wanted =
      if wanted = removed then (group key items wanted).tail else group key items wanted := by
  unfold group
  induction items with
  | nil => simp
  | cons head tail ih =>
    by_cases hhead : key head = removed
    · simp only [hhead, decide_true, eraseP_cons_of_pos, filter_cons]
      by_cases hwanted : wanted = removed
      · simp [hwanted]
      · have hne : removed ≠ wanted := fun heq => hwanted heq.symm
        simp [hwanted, hne]
    · rw [eraseP_cons_of_neg (by simpa using hhead)]
      simp only [filter_cons, ih]
      by_cases hwanted : wanted = removed
      · simp [hwanted, hhead]
      · simp [hwanted]

omit [DecidableEq κ] in
/-- Two filters that look at the keys only keep the same keys if and only if they agree. -/
theorem map_filter_eq_iff {first second : α → Bool}
    (hfirst : ∀ a ∈ items, ∀ b ∈ items, key a = key b → first a = first b)
    (hsecond : ∀ a ∈ items, ∀ b ∈ items, key a = key b → second a = second b) :
    (items.filter first).map key = (items.filter second).map key ↔
      ∀ item ∈ items, first item = second item := by
  constructor
  · intro heq item hitem
    have hmem : key item ∈ (items.filter first).map key ↔
        key item ∈ (items.filter second).map key := by rw [heq]
    have hiff : ∀ {keep : α → Bool}, (∀ a ∈ items, ∀ b ∈ items, key a = key b → keep a = keep b) →
        (key item ∈ (items.filter keep).map key ↔ keep item = true) := by
      intro keep hkeep
      simp only [mem_map, mem_filter]
      constructor
      · rintro ⟨other, ⟨hother, hkept⟩, hkey⟩
        rw [← hkeep other hother item hitem hkey]
        exact hkept
      · exact fun hkept => ⟨item, ⟨hitem, hkept⟩, rfl⟩
    rw [hiff hfirst, hiff hsecond] at hmem
    exact Bool.eq_iff_iff.mpr hmem
  · intro hagree
    rw [filter_congr hagree]

end Foundation.KeyedList
