import Mathlib.Data.List.Basic

/-! # Maps as lists of entries

A map that is iterated over is a list of entries. The first entry of a key
counts, and what a map holds is said by `List.lookup`.
-/

namespace Foundation

open List

theorem mem_concat {α : Type*} {item last : α} {items : List α} :
    item ∈ items ++ [last] ↔ item ∈ items ∨ item = last := by
  rw [mem_append, mem_singleton]

theorem forall_mem_concat {α : Type*} {property : α → Prop} {items : List α} {last : α}
    (hitems : ∀ item ∈ items, property item) (hlast : property last) :
    ∀ item ∈ items ++ [last], property item :=
  forall_mem_append.mpr ⟨hitems, forall_mem_singleton.mpr hlast⟩

namespace AssocList

variable {κ β : Type*} [DecidableEq κ] {key : κ} {entries : List (κ × β)} {value : β}
  {entry : κ × β} {f : β → β} {property : κ × β → Prop}

/-- Insert an entry unless the key is present. -/
def emplace (key : κ) (value : β) (entries : List (κ × β)) : List (κ × β) :=
  match entries.lookup key with
  | some _ => entries
  | none => entries ++ [(key, value)]

def adjust (key : κ) (f : β → β) (entries : List (κ × β)) : List (κ × β) :=
  entries.map fun entry => if entry.1 = key then (entry.1, f entry.2) else entry

def erase (key : κ) (entries : List (κ × β)) : List (κ × β) :=
  entries.filter fun entry => entry.1 ≠ key

def mapValues (f : β → β) (entries : List (κ × β)) : List (κ × β) :=
  entries.map fun entry => (entry.1, f entry.2)

theorem lookup_cons_eq (key other : κ) (value : β) (entries : List (κ × β)) :
    ((key, value) :: entries).lookup other =
      if other = key then some value else entries.lookup other := by
  rw [lookup_cons]
  by_cases heq : other = key
  · simp [heq]
  · simp [heq, beq_false_of_ne heq]

theorem lookup_emplace (key other : κ) (value : β) (entries : List (κ × β)) :
    (emplace key value entries).lookup other =
      if other = key then some ((entries.lookup key).getD value) else entries.lookup other := by
  unfold emplace
  split
  next found hfound =>
    split
    next heq => rw [heq, hfound, Option.getD_some]
    · rfl
  next hnone =>
    rw [lookup_append, lookup_cons_eq]
    split
    next heq => simp [heq]
    · simp

theorem lookup_adjust (key other : κ) (f : β → β) (entries : List (κ × β)) :
    (adjust key f entries).lookup other =
      if other = key then (entries.lookup key).map f else entries.lookup other := by
  induction entries with
  | nil => simp [adjust]
  | cons entry entries ih =>
    obtain ⟨k, value⟩ := entry
    rw [adjust] at ih ⊢
    by_cases hkey : k = key
    · simp only [map_cons, hkey, if_true, lookup_cons_eq, ih]
      split <;> rfl
    · simp only [map_cons, if_neg hkey, lookup_cons_eq, ih]
      by_cases hother : other = key
      · simp [hother, Ne.symm hkey]
      · simp [hother]

theorem lookup_erase (key other : κ) (entries : List (κ × β)) :
    (erase key entries).lookup other = if other = key then none else entries.lookup other := by
  induction entries with
  | nil => simp [erase]
  | cons entry entries ih =>
    obtain ⟨k, value⟩ := entry
    rw [erase] at ih ⊢
    by_cases hkey : k = key
    · rw [filter_cons_of_neg (by simpa using hkey), ih, lookup_cons_eq, hkey]
      split <;> rfl
    · rw [filter_cons_of_pos (by simpa using hkey), lookup_cons_eq, lookup_cons_eq, ih]
      by_cases hother : other = k
      · simp [hother, hkey]
      · simp [hother]

theorem lookup_eraseP {removed : κ × β → Bool}
    (hkept : ∀ value, entries.lookup key = some value → removed (key, value) = false) :
    (entries.eraseP removed).lookup key = entries.lookup key := by
  induction entries with
  | nil => rfl
  | cons entry entries ih =>
    obtain ⟨k, value⟩ := entry
    rw [lookup_cons_eq] at hkept ⊢
    by_cases hkey : key = k
    · subst hkey
      rw [if_pos rfl] at hkept ⊢
      rw [eraseP_cons_of_neg (by simp [hkept value rfl]), lookup_cons_eq, if_pos rfl]
    · rw [if_neg hkey] at hkept ⊢
      by_cases hremoved : removed (k, value) = true
      · rw [eraseP_cons_of_pos hremoved]
      · rw [eraseP_cons_of_neg hremoved, lookup_cons_eq, if_neg hkey, ih hkept]

theorem lookup_mapValues (key : κ) (f : β → β) (entries : List (κ × β)) :
    (mapValues f entries).lookup key = (entries.lookup key).map f := by
  induction entries with
  | nil => rfl
  | cons entry entries ih =>
    rw [mapValues] at ih ⊢
    rw [map_cons, lookup_cons, lookup_cons]
    split
    · rfl
    · exact ih

theorem mem_of_lookup (hlookup : entries.lookup key = some value) : (key, value) ∈ entries := by
  obtain ⟨before, after, rfl, -⟩ := lookup_eq_some_iff.mp hlookup
  simp

theorem lookup_eq_none_iff_not_mem : entries.lookup key = none ↔ key ∉ entries.map Prod.fst := by
  rw [lookup_eq_none_iff, mem_map]
  grind

theorem mem_emplace (hentry : entry ∈ entries) : entry ∈ emplace key value entries := by
  unfold emplace
  split
  · exact hentry
  · exact mem_append_left _ hentry

theorem exists_mem_emplace (key : κ) (value : β) (entries : List (κ × β)) :
    ∃ present, (key, present) ∈ emplace key value entries := by
  unfold emplace
  split
  next present hpresent => exact ⟨present, mem_of_lookup hpresent⟩
  · exact ⟨value, by simp⟩

theorem keys_adjust (key : κ) (f : β → β) (entries : List (κ × β)) :
    (adjust key f entries).map Prod.fst = entries.map Prod.fst := by
  rw [adjust, map_map]
  apply map_congr_left
  intro entry _
  rw [Function.comp_apply, apply_ite Prod.fst, ite_self]

theorem mem_keys_emplace {key other : κ} : other ∈ (emplace key value entries).map Prod.fst ↔
      other ∈ entries.map Prod.fst ∨ other = key := by
  unfold emplace
  split
  next found hfound =>
    have hmem : key ∈ entries.map Prod.fst := mem_map_of_mem (mem_of_lookup hfound)
    exact ⟨Or.inl, fun hother => hother.elim id fun heq => heq ▸ hmem⟩
  · simp

theorem forall_mem_emplace (hold : ∀ entry ∈ entries, property entry)
    (hnew : key ∉ entries.map Prod.fst → property (key, value)) :
    ∀ entry ∈ emplace key value entries, property entry := by
  unfold emplace
  split
  · exact hold
  next hnone =>
    rw [forall_mem_append, forall_mem_singleton]
    exact ⟨hold, hnew (lookup_eq_none_iff_not_mem.mp hnone)⟩

theorem forall_mem_adjust (hkey : ∀ value, (key, value) ∈ entries → property (key, f value))
    (hother : ∀ entry ∈ entries, entry.1 ≠ key → property entry) :
    ∀ entry ∈ adjust key f entries, property entry := by
  rw [adjust, forall_mem_map]
  intro entry hentry
  split
  next heq => exact heq ▸ hkey entry.2 (heq ▸ hentry)
  next hne => exact hother entry hentry hne

theorem nodup_keys_emplace (key : κ) (value : β) (hnodup : (entries.map Prod.fst).Nodup) :
    ((emplace key value entries).map Prod.fst).Nodup := by
  unfold emplace
  split
  · exact hnodup
  next hnone =>
    have hkey := lookup_eq_none_iff_not_mem.mp hnone
    rw [map_append, nodup_append]
    exact ⟨hnodup, by simp, fun other hother last hlast heq => by grind⟩

end AssocList

end Foundation
