import Mathlib.Data.List.Infix

/-! # Suffixes that start at a separator

A name is a sequence of components with a separator between them. A key selects
a name when it is a suffix that starts with a whole component, that is, at the
beginning of the name or directly after a separator.
-/

namespace Foundation

open List

variable {α : Type*}

section Mismatch

variable [DecidableEq α]

/-- What is left of two sequences from the first position on where they differ. -/
def mismatch : List α → List α → List α × List α
  | a :: as, b :: bs => if a = b then mismatch as bs else (a :: as, b :: bs)
  | as, bs => (as, bs)

theorem mismatch_append (common left right : List α) :
    mismatch (common ++ left) (common ++ right) = mismatch left right := by
  induction common with
  | nil => rfl
  | cons a common ih => simp [mismatch, ih]

theorem mismatch_nil_right (left : List α) : mismatch left [] = (left, []) := by
  cases left <;> rfl

/-- The parts before the mismatch are equal. -/
theorem exists_common_of_mismatch (left right : List α) :
    ∃ common, left = common ++ (mismatch left right).1 ∧
      right = common ++ (mismatch left right).2 := by
  induction left, right using mismatch.induct with
  | case1 as a bs ih =>
    obtain ⟨common, hleft, hright⟩ := ih
    refine ⟨a :: common, ?_, ?_⟩
    · simpa [mismatch] using hleft
    · simpa [mismatch] using hright
  | case2 a as b bs hne => exact ⟨[], by simp [mismatch, hne], by simp [mismatch, hne]⟩
  | case3 as bs hne =>
    refine ⟨[], ?_, ?_⟩ <;> cases as <;> cases bs <;>
      first | rfl | exact absurd rfl (hne _ _ _ _ rfl)

theorem mismatch_eq_nil_left_iff (left right rest : List α) :
    mismatch left right = ([], rest) ↔ right = left ++ rest := by
  constructor
  · intro heq
    obtain ⟨common, hleft, hright⟩ := exists_common_of_mismatch left right
    rw [heq] at hleft hright
    rw [append_nil] at hleft
    rw [hleft, hright]
  · rintro rfl
    have happend := mismatch_append left [] rest
    rwa [append_nil] at happend

theorem mismatch_eq_nil_right_iff (left right rest : List α) :
    mismatch left right = (rest, []) ↔ left = right ++ rest := by
  constructor
  · intro heq
    obtain ⟨common, hleft, hright⟩ := exists_common_of_mismatch left right
    rw [heq] at hleft hright
    rw [append_nil] at hright
    rw [hright, hleft]
  · rintro rfl
    have happend := mismatch_append right rest []
    rwa [append_nil, mismatch_nil_right] at happend

end Mismatch

/-- The part ends the whole, and starts at its beginning or directly after a
separator. -/
def SeparatedSuffix (sep : α) (part whole : List α) : Prop :=
  part = whole ∨ sep :: part <:+ whole

instance [DecidableEq α] (sep : α) (part whole : List α) :
    Decidable (SeparatedSuffix sep part whole) :=
  inferInstanceAs (Decidable (_ ∨ _))

namespace SeparatedSuffix

theorem refl (sep : α) (whole : List α) : SeparatedSuffix sep whole whole :=
  Or.inl rfl

theorem isSuffix {sep : α} {part whole : List α} (h : SeparatedSuffix sep part whole) :
    part <:+ whole := by
  rcases h with rfl | h
  · exact suffix_rfl
  · exact (suffix_cons sep part).trans h

/-- A suffix of two joined names either lies in the second one or ends the first
one and contains the second. -/
theorem append_iff (sep : α) (part first second : List α) :
    SeparatedSuffix sep part (first ++ sep :: second) ↔ SeparatedSuffix sep part second ∨
        ∃ ending, SeparatedSuffix sep ending first ∧ part = ending ++ sep :: second := by
  constructor
  · rintro (rfl | hsuffix)
    · exact Or.inr ⟨first, refl sep first, rfl⟩
    · obtain ⟨before, hbefore⟩ := hsuffix
      rcases append_eq_append_iff.mp hbefore with ⟨ending, rfl, heq⟩ | ⟨skipped, rfl, heq⟩
      · -- The separator before the part lies in the first name or is the joining one.
        cases ending with
        | nil =>
          obtain rfl : part = second := by simpa using heq
          exact Or.inl (refl sep part)
        | cons a ending =>
          obtain ⟨rfl, rfl⟩ : sep = a ∧ part = ending ++ sep :: second := by simpa using heq
          exact Or.inr ⟨ending, Or.inr (suffix_append before _), rfl⟩
      · cases skipped with
        | nil =>
          obtain rfl : second = part := by simpa using heq
          exact Or.inl (refl sep second)
        | cons a skipped =>
          obtain ⟨rfl, rfl⟩ : sep = a ∧ second = skipped ++ sep :: part := by simpa using heq
          exact Or.inl (Or.inr (suffix_append skipped _))
  · rintro ((rfl | hsuffix) | ⟨ending, (rfl | hsuffix), rfl⟩)
    · exact Or.inr (suffix_append first _)
    · exact Or.inr ((hsuffix.trans (suffix_cons sep second)).trans (suffix_append first _))
    · exact refl sep _
    · obtain ⟨before, rfl⟩ := hsuffix
      exact Or.inr ⟨before, by simp⟩

/-- The test by positions: the part stands at the end, and the position before it,
if any, holds a separator. -/
theorem iff_drop (sep : α) {part whole : List α} (hlen : part.length ≤ whole.length) :
    SeparatedSuffix sep part whole ↔ whole.drop (whole.length - part.length) = part ∧
        (whole.length - part.length = 0 ∨ whole[whole.length - part.length - 1]? = some sep) := by
  constructor
  · rintro (rfl | ⟨before, rfl⟩)
    · simp
    · have hposition : (before ++ sep :: part).length - part.length = before.length + 1 := by
        simp
        omega
      rw [hposition]
      exact ⟨by simp, Or.inr (by simp)⟩
  · rintro ⟨hdrop, hposition⟩
    rcases Nat.eq_zero_or_pos (whole.length - part.length) with hzero | hpos
    · rw [hzero] at hdrop
      exact Or.inl hdrop.symm
    · have hsep := hposition.resolve_left (by omega)
      obtain ⟨hlt, hget⟩ := List.getElem?_eq_some_iff.mp hsep
      -- Dropping one element less exposes the separator.
      have hcons := List.drop_eq_getElem_cons hlt
      rw [hget, Nat.sub_add_cancel hpos, hdrop] at hcons
      exact Or.inr (hcons ▸ drop_suffix _ whole)

end SeparatedSuffix

end Foundation
