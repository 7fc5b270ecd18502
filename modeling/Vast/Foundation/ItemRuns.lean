import Mathlib.Data.List.Basic

/-! # Runs of items with a property

A cursor that moves along a list, alternately to the next item with a property and
to the next one without it, delimits the maximal intervals of positions whose items
have the property.
-/

namespace Foundation

open List Option

namespace ItemRuns

variable {α : Type*} {p : α → Bool} {items : List α} {start index : Nat}

/-- Whether the item of a position has the property. -/
def At (p : α → Bool) (items : List α) (index : Nat) : Prop :=
  ∃ item, items[index]? = some item ∧ p item = true

theorem At.lt_length (hat : At p items index) : index < items.length := by
  obtain ⟨item, hitem, -⟩ := hat
  exact (List.getElem?_eq_some_iff.mp hitem).1

theorem at_not_iff (hindex : index < items.length) :
    At (fun item => !p item) items index ↔ ¬At p items index := by
  simp [At, getElem?_eq_getElem hindex]

/-- The first position from a start on whose item has the property. -/
def next (p : α → Bool) (items : List α) (start : Nat) : Option Nat :=
  ((items.drop start).findIdx? p).map (start + ·)

theorem next_eq_none (hnext : next p items start = none) (hstart : start ≤ index) :
    ¬At p items index := by
  rw [next, map_eq_none_iff, findIdx?_eq_none_iff] at hnext
  rintro ⟨item, hitem, hp⟩
  have hmem : item ∈ items.drop start := by
    apply mem_of_getElem? (i := index - start)
    rw [getElem?_drop, Nat.add_sub_cancel' hstart, hitem]
  rw [hnext item hmem] at hp
  cases hp

theorem next_eq_some {found : Nat} (hnext : next p items start = some found) :
    start ≤ found ∧ At p items found ∧
      ∀ index, start ≤ index → index < found → ¬At p items index := by
  rw [next, map_eq_some_iff] at hnext
  obtain ⟨distance, hdistance, rfl⟩ := hnext
  obtain ⟨hlt, hp, hbefore⟩ := findIdx?_eq_some_iff_getElem.mp hdistance
  refine ⟨Nat.le_add_right _ _, ⟨_, ?_, hp⟩, ?_⟩
  · rw [← getElem?_drop, getElem?_eq_getElem hlt]
  · rintro index hstart hfound ⟨item, hitem, hitemp⟩
    have hnot := hbefore (index - start) (by omega)
    have hget : (items.drop start)[index - start]? = some item := by
      rw [getElem?_drop, Nat.add_sub_cancel' hstart, hitem]
    rw [getElem?_eq_getElem (by omega), some_inj] at hget
    rw [hget] at hnot
    exact hnot hitemp

/-- The runs from a cursor on. The last run ends with the list. -/
def runsFrom (p : α → Bool) (items : List α) : Nat → Option Nat → List (Nat × Nat)
  | 0, _ => []
  | _ + 1, none => []
  | fuel + 1, some first =>
    match next (fun item => !p item) items (first + 1) with
    | none => [(first, items.length)]
    | some last => (first, last) :: runsFrom p items fuel (next p items (last + 1))

/-- The maximal half-open intervals of positions whose items have the property. -/
def runs (p : α → Bool) (items : List α) : List (Nat × Nat) :=
  runsFrom p items items.length (next p items 0)

/-- Intervals in ascending order, with gaps between them, that hold exactly the positions
from a start on whose items have the property. -/
structure Delimits (p : α → Bool) (items : List α) (start : Nat) (runs : List (Nat × Nat)) :
    Prop where
  nonempty : ∀ run ∈ runs, run.1 < run.2
  ascending : runs.Pairwise fun earlier later => earlier.2 < later.1
  exact : ∀ index, start ≤ index → (At p items index ↔ ∃ run ∈ runs, run.1 ≤ index ∧ index < run.2)
  start_le : ∀ run ∈ runs, start ≤ run.1

theorem Delimits.nil (hnone : ∀ index, start ≤ index → ¬At p items index) :
    Delimits p items start [] where
  nonempty := by simp
  ascending := Pairwise.nil
  exact := fun index hindex => by simp [hnone index hindex]
  start_le := by simp

/-- A run in front of the runs after the item that ends it. -/
theorem Delimits.cons {first last : Nat} {rest : List (Nat × Nat)}
    (hrest : Delimits p items (last + 1) rest) (hstart : start ≤ first) (hfirst : first < last)
    (hbefore : ∀ index, start ≤ index → index < first → ¬At p items index)
    (hrun : ∀ index, first ≤ index → index < last → At p items index)
    (hlast : ¬At p items last) : Delimits p items start ((first, last) :: rest) where
  nonempty := forall_mem_cons.mpr ⟨hfirst, hrest.nonempty⟩
  ascending := pairwise_cons.mpr ⟨hrest.start_le, hrest.ascending⟩
  exact := by
    intro index hindex
    simp only [mem_cons, exists_eq_or_imp]
    -- The position is before the run, in it, its end, or behind it.
    rcases Nat.lt_or_ge index first with hlt | hge
    · refine iff_of_false (hbefore index hindex hlt) ?_
      rintro (hin | ⟨run, hmem, hle, -⟩)
      · omega
      · have := hrest.start_le run hmem
        omega
    · rcases Nat.lt_trichotomy index last with hin | rfl | hbehind
      · exact iff_of_true (hrun index hge hin) (Or.inl ⟨hge, hin⟩)
      · refine iff_of_false hlast ?_
        rintro (hin | ⟨run, hmem, hle, -⟩)
        · omega
        · have := hrest.start_le run hmem
          omega
      · rw [hrest.exact index hbehind, or_iff_right (by omega)]
  start_le := by
    refine forall_mem_cons.mpr ⟨hstart, fun run hmem => ?_⟩
    have := hrest.start_le run hmem
    omega

/-- With enough fuel, the loop finds all runs. -/
theorem delimits_runsFrom (fuel start : Nat) (hfuel : items.length ≤ start + fuel) :
    Delimits p items start (runsFrom p items fuel (next p items start)) := by
  induction fuel generalizing start with
  | zero =>
    exact Delimits.nil fun index hindex hat => by
      have := hat.lt_length
      omega
  | succ fuel ih =>
    cases hnext : next p items start with
    | none => exact Delimits.nil fun index => next_eq_none hnext
    | some first =>
      obtain ⟨hstart, hfirst, hbefore⟩ := next_eq_some hnext
      have hlen := hfirst.lt_length
      simp only [runsFrom]
      -- The run goes on until an item without the property or the end.
      have hrun : ∀ last, last ≤ items.length →
          (∀ index, first + 1 ≤ index → index < last → ¬At (fun item => !p item) items index) →
          ∀ index, first ≤ index → index < last → At p items index := by
        intro last hlast hnone index hge hlt
        rcases Nat.eq_or_lt_of_le hge with rfl | hgt
        · exact hfirst
        · have hnot := hnone index hgt hlt
          rwa [at_not_iff (by omega), not_not] at hnot
      cases hend : next (fun item => !p item) items (first + 1) with
      | none =>
        refine Delimits.cons (Delimits.nil fun index hindex hat => ?_) hstart hlen
          hbefore (hrun _ (Nat.le_refl _) fun index hindex _ => next_eq_none hend hindex)
          fun hat => Nat.lt_irrefl _ hat.lt_length
        have := hat.lt_length
        omega
      | some last =>
        obtain ⟨hgt, hlast, hbetween⟩ := next_eq_some hend
        refine Delimits.cons (ih (last + 1) (by omega)) hstart (by omega) hbefore
          (hrun last (Nat.le_of_lt hlast.lt_length) hbetween) ?_
        rwa [at_not_iff hlast.lt_length] at hlast

theorem delimits_runs (p : α → Bool) (items : List α) : Delimits p items 0 (runs p items) :=
  delimits_runsFrom _ _ (by omega)

end ItemRuns

end Foundation
