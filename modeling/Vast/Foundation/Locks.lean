import Mathlib.Data.List.Basic

/-! # Items that are held exclusively

Holders take items that nobody holds, and give all of them back at once. What the
holders hold is noted in one list. The note contains what is held, and no item is
held twice.
-/

namespace Foundation

open List

/-- The items that a holder has taken, and whether it still holds them. -/
structure Holder (α : Type*) where
  items : List α
  holding : Bool

/-- The items that are held are noted, and held by one holder only. -/
structure Locked {α : Type*} (holders : List (Holder α)) (noted : List α) : Prop where
  noted_of_held : ∀ (position : Nat) (holder : Holder α), holders[position]? = some holder →
    holder.holding = true → ∀ item ∈ holder.items, item ∈ noted
  exclusive : ∀ (first second : Nat) (left right : Holder α), holders[first]? = some left →
    holders[second]? = some right → left.holding = true → right.holding = true →
    first ≠ second → ∀ item ∈ left.items, item ∉ right.items

namespace Locked

variable {α : Type*} {holders : List (Holder α)} {noted : List α}

theorem nil (noted : List α) : Locked [] noted where
  noted_of_held := fun _ _ hholder => by simp at hholder
  exclusive := fun _ _ _ _ hleft => by simp at hleft

theorem acquire (hlocked : Locked holders noted) {items : List α}
    (hfree : ∀ item ∈ items, item ∉ noted) :
    Locked (holders ++ [⟨items, true⟩]) (noted ++ items) := by
  have hcases : ∀ (pos : Nat) (holder : Holder α),
      (holders ++ [⟨items, true⟩])[pos]? = some holder →
      holders[pos]? = some holder ∨ pos = holders.length ∧ holder = ⟨items, true⟩ := by
    intro pos holder hholder
    rcases Nat.lt_trichotomy pos holders.length with hlt | heq | hgt
    · rw [getElem?_append_left hlt] at hholder
      exact Or.inl hholder
    · subst heq
      rw [getElem?_concat_length] at hholder
      exact Or.inr ⟨rfl, (Option.some.inj hholder).symm⟩
    · rw [getElem?_eq_none (by simp; omega)] at hholder
      cases hholder
  constructor
  · intro pos holder hholder hholding item hitem
    rcases hcases pos holder hholder with hold | ⟨-, rfl⟩
    · exact mem_append_left _ (hlocked.noted_of_held pos holder hold hholding item hitem)
    · exact mem_append_right _ hitem
  · intro first second left right hleft hright hleft_holding hright_holding hne item hitem hother
    rcases hcases first left hleft with hleft | ⟨hfirst, rfl⟩
    · rcases hcases second right hright with hright | ⟨-, rfl⟩
      · exact hlocked.exclusive first second left right hleft hright hleft_holding hright_holding
          hne item hitem hother
      · exact hfree item hother
          (hlocked.noted_of_held first left hleft hleft_holding item hitem)
    · rcases hcases second right hright with hright | ⟨hsecond, -⟩
      · exact hfree item hitem
          (hlocked.noted_of_held second right hright hright_holding item hother)
      · exact hne (hfirst.trans hsecond.symm)

/-- A holder that gives up, with or without a change of the note: what the others hold
stays noted. -/
theorem giveUp (hlocked : Locked holders noted) {pos : Nat} {holder : Holder α}
    (hholder : holders[pos]? = some holder) (hholding : holder.holding = true)
    {remaining : List α} (hrem : ∀ item ∈ noted, item ∉ holder.items → item ∈ remaining) :
    Locked (holders.modify pos fun holder => ⟨holder.items, false⟩) remaining := by
  have hcases : ∀ (other : Nat) (found : Holder α),
      (holders.modify pos fun holder => ⟨holder.items, false⟩)[other]? = some found →
      found.holding = true → other ≠ pos ∧ holders[other]? = some found := by
    intro other found hfound hfound_holding
    rw [getElem?_modify] at hfound
    obtain ⟨original, horiginal, rfl⟩ := Option.map_eq_some_iff.mp hfound
    by_cases heq : pos = other
    · simp [heq] at hfound_holding
    · exact ⟨fun h => heq h.symm, by simpa [heq] using horiginal⟩
  constructor
  · intro other found hfound hfound_holding item hitem
    obtain ⟨hne, hfound⟩ := hcases other found hfound hfound_holding
    refine hrem item
      (hlocked.noted_of_held other found hfound hfound_holding item hitem) ?_
    exact hlocked.exclusive other pos found holder hfound hholder hfound_holding hholding hne
      item hitem
  · intro first second left right hleft hright hleft_holding hright_holding
    exact hlocked.exclusive first second left right (hcases first left hleft hleft_holding).2
      (hcases second right hright hright_holding).2 hleft_holding hright_holding

end Locked

end Foundation
