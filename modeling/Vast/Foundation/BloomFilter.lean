import Mathlib.Data.List.Basic

/-! # Bloom filters

A filter is a row of bits. An element sets the bits at its positions, and is
reported when all these bits are set. Bits are never cleared, so that a filter
has no false negatives, whatever the positions are.
-/

namespace Foundation.BloomFilter

open List

def mark (positions : List Nat) (bits : List Bool) : List Bool :=
  positions.foldl (fun bits position => bits.set position true) bits

def marked (positions : List Nat) (bits : List Bool) : Bool :=
  positions.all fun position => bits.getD position false

variable {bits : List Bool} {positions : List Nat}

@[simp]
theorem length_mark (positions : List Nat) (bits : List Bool) :
    (mark positions bits).length = bits.length := by
  induction positions generalizing bits with
  | nil => rfl
  | cons pos rest ih => rw [mark, foldl_cons, ← mark, ih, length_set]

theorem getD_mark (positions : List Nat) (bits : List Bool) {index : Nat}
    (hindex : index < bits.length) : (mark positions bits).getD index false =
      (bits.getD index false || decide (index ∈ positions)) := by
  induction positions generalizing bits with
  | nil => simp [mark]
  | cons pos rest ih =>
    rw [mark, foldl_cons, ← mark, ih _ (by rwa [length_set])]
    by_cases heq : index = pos
    · subst heq
      simp [hindex]
    · have hne : pos ≠ index := fun h => heq h.symm
      simp [getElem?_set_ne hne, heq]

theorem marked_iff :
    marked positions bits = true ↔ ∀ pos ∈ positions, bits.getD pos false = true := by
  simp [marked]

theorem marked_mark_of_marked {others : List Nat} (hbound : ∀ pos ∈ positions,
    pos < bits.length) (hmarked : marked positions bits = true) :
    marked positions (mark others bits) = true := by
  rw [marked_iff] at hmarked ⊢
  intro pos hpos
  rw [getD_mark others bits (hbound pos hpos), hmarked pos hpos, Bool.true_or]

theorem marked_mark_self (hbound : ∀ pos ∈ positions, pos < bits.length) :
    marked positions (mark positions bits) = true := by
  rw [marked_iff]
  intro pos hpos
  rw [getD_mark positions bits (hbound pos hpos), decide_eq_true hpos, Bool.or_true]

theorem marked_foldl_mark {α : Type*} (positionsOf : α → List Nat) {elements : List α}
    {element : α} (hbound : ∀ pos ∈ positionsOf element, pos < bits.length)
    (helem : element ∈ elements ∨ marked (positionsOf element) bits = true) :
    marked (positionsOf element)
      (elements.foldl (fun bits element => mark (positionsOf element) bits) bits) = true := by
  induction elements generalizing bits with
  | nil => exact helem.resolve_left not_mem_nil
  | cons head rest ih =>
    apply ih
    · rwa [length_mark]
    · rcases helem with hmem | hmarked
      · rcases mem_cons.mp hmem with rfl | hrest
        · exact Or.inr (marked_mark_self hbound)
        · exact Or.inl hrest
      · exact Or.inr (marked_mark_of_marked hbound hmarked)

end Foundation.BloomFilter
