import Vast.Foundation.Bitmap

/-! # Set bits within intervals

`select_with` walks through the set bits of a bitmap and through ascending intervals at
the same time. Either side catches up with the other one, so that neither bits between
the intervals nor intervals between the bits are looked at one by one.
-/

namespace Vast.SelectWith

open Foundation List

/-- The position of the first set bit from a position on. The range is done if there is
none. -/
def nextFrom (bits : Bitmap) (x : Nat) : Option Nat :=
  (List.range bits.length).find? fun i => decide (x ≤ i) && bits.test i

variable {bits : Bitmap} {α : Type} {x : Nat}

theorem nextFrom_eq_none_iff :
    nextFrom bits x = none ↔ ∀ i, x ≤ i → bits.test i = false := by
  simp only [nextFrom, find?_eq_none, mem_range]
  constructor
  · intro hnone i hle
    by_contra htest
    have htest : bits.test i = true := by simpa using htest
    exact hnone i (Bitmap.lt_length_of_test htest) (by simp [hle, htest])
  · intro hfalse i _
    by_cases hle : x ≤ i <;> simp [hle, hfalse i]

theorem nextFrom_eq_some_iff {y : Nat} : nextFrom bits x = some y ↔
      x ≤ y ∧ bits.test y = true ∧ ∀ i, x ≤ i → i < y → bits.test i = false := by
  simp only [nextFrom, find?_range_eq_some]
  have hlt : bits.test y = true → y < bits.length := Bitmap.lt_length_of_test
  grind

theorem length_dropWhile_lt {passed : α → Bool} {item : α} (rest : List α)
    (hpassed : passed item = true) :
    ((item :: rest).dropWhile passed).length < (item :: rest).length := by
  rw [dropWhile_cons_of_pos hpassed]
  exact Nat.lt_succ_of_le (dropWhile_sublist passed).length_le

/-- The elements whose intervals have a set bit, from a position of the range on. The
bounds of the intervals are given by `f`. -/
def selectWith {α : Type} (bits : Bitmap) (f : α → Nat × Nat) (x : Option Nat) (items : List α) :
    List α :=
  match x, items with
  | none, _ => []
  | some _, [] => []
  | some x, item :: rest =>
    -- The range catches up if it is behind.
    match _hcatch : if x < (f item).1 then nextFrom bits (f item).1 else some x with
    | none => []
    | some x =>
      if _hwithin : (f item).1 ≤ x ∧ x < (f item).2 then
        match _hnext : nextFrom bits (f item).2 with
        | none => [item]
        | some x =>
          item :: selectWith bits f (some x)
            ((item :: rest).dropWhile fun item => decide ((f item).2 ≤ x))
      else
        selectWith bits f (some x)
          ((item :: rest).dropWhile fun item => decide ((f item).2 ≤ x))
  termination_by items.length
  decreasing_by
    · exact length_dropWhile_lt rest (decide_eq_true (nextFrom_eq_some_iff.mp _hnext).1)
    · apply length_dropWhile_lt rest
      split at _hcatch
      next hbehind =>
        have hle := (nextFrom_eq_some_iff.mp _hcatch).1
        exact decide_eq_true (by omega)
      next hbehind =>
        cases _hcatch
        exact decide_eq_true (by omega)

/-! ## The selected intervals -/

def Hit (bits : Bitmap) (interval : Nat × Nat) : Prop :=
  ∃ i < interval.2, interval.1 ≤ i ∧ bits.test i = true

instance (bits : Bitmap) (interval : Nat × Nat) : Decidable (Hit bits interval) :=
  inferInstanceAs (Decidable (∃ i < interval.2, interval.1 ≤ i ∧ bits.test i = true))

theorem filter_dropWhile {passed kept : α → Bool} {items : List α}
    (hpassed : ∀ item ∈ items, passed item = true → kept item = false) :
    (items.dropWhile passed).filter kept = items.filter kept := by
  induction items with
  | nil => rfl
  | cons item rest ih =>
    rw [dropWhile_cons]
    split
    next hitem =>
      rw [ih fun other hother => hpassed other (mem_cons_of_mem _ hother),
        filter_cons_of_neg (by simp [hpassed item mem_cons_self hitem])]
    · rfl

theorem nextFrom_max {p : Nat} (hx : nextFrom bits p = some x) (first : Nat) :
    nextFrom bits (max p first) = if x < first then nextFrom bits first else some x := by
  rw [nextFrom_eq_some_iff] at hx
  split
  next hlt => rw [max_eq_right (by omega)]
  next hge =>
    rw [nextFrom_eq_some_iff]
    grind

/-- The elements whose intervals have a set bit from a position on. -/
def hitsFrom {α : Type} (bits : Bitmap) (f : α → Nat × Nat) (p : Nat) (items : List α) : List α :=
  items.filter fun item => decide (Hit bits (max p (f item).1, (f item).2))

section HitsFrom

variable {α : Type} {bits : Bitmap} {f : α → Nat × Nat} {p q : Nat} {items : List α}

theorem hitsFrom_eq_nil (hnone : nextFrom bits q = none)
    (hle : ∀ item ∈ items, q ≤ max p (f item).1) : hitsFrom bits f p items = [] := by
  rw [nextFrom_eq_none_iff] at hnone
  rw [hitsFrom, filter_eq_nil_iff]
  intro item hitem hhit
  obtain ⟨i, -, hi, htest⟩ := of_decide_eq_true hhit
  rw [hnone i ((hle item hitem).trans hi)] at htest
  cases htest

theorem hitsFrom_cons (item : α) : hitsFrom bits f p (item :: items) =
    if Hit bits (max p (f item).1, (f item).2) then item :: hitsFrom bits f p items
    else hitsFrom bits f p items := by
  simp [hitsFrom, filter_cons]

theorem hitsFrom_congr (hmax : ∀ item ∈ items, max q (f item).1 = max p (f item).1) :
    hitsFrom bits f q items = hitsFrom bits f p items :=
  filter_congr fun item hitem => by rw [hmax item hitem]

/-- Intervals that end before the next set bit are passed. -/
theorem hitsFrom_dropWhile (hx : nextFrom bits p = some x) :
    hitsFrom bits f p (items.dropWhile fun item => decide ((f item).2 ≤ x)) =
      hitsFrom bits f p items := by
  rw [nextFrom_eq_some_iff] at hx
  apply filter_dropWhile
  intro item _ hpassed
  have hend := of_decide_eq_true hpassed
  apply decide_eq_false
  rintro ⟨i, hlt, hle, htest⟩
  rw [hx.2.2 i (by omega) (by omega)] at htest
  cases htest

end HitsFrom

theorem selectWith_eq_hitsFrom (bits : Bitmap) (f : α → Nat × Nat) (items : List α) (p : Nat)
    (hproper : ∀ item ∈ items, (f item).1 ≤ (f item).2)
    (hsorted : items.Pairwise fun a b => (f a).2 ≤ (f b).1) :
    selectWith bits f (nextFrom bits p) items = hitsFrom bits f p items := by
  generalize hx : nextFrom bits p = x
  fun_induction selectWith bits f x items generalizing p with
  | case1 items => exact (hitsFrom_eq_nil hx fun _ _ => le_max_left _ _).symm
  | case2 => rfl
  | case3 x item rest hcatch =>
    rw [dite_eq_ite, ← nextFrom_max hx] at hcatch
    rw [pairwise_cons] at hsorted
    rw [hitsFrom_eq_nil hcatch]
    grind
  | case4 x item rest y hcatch hwithin hnone =>
    rw [dite_eq_ite, ← nextFrom_max hx, nextFrom_eq_some_iff] at hcatch
    rw [pairwise_cons] at hsorted
    have hhit : Hit bits (max p (f item).1, (f item).2) := ⟨y, hwithin.2, hcatch.1, hcatch.2.1⟩
    rw [hitsFrom_cons, if_pos hhit, hitsFrom_eq_nil hnone]
    exact fun other hother => (hsorted.1 other hother).trans (le_max_right _ _)
  | case5 x item rest y hcatch hwithin z hnext ih =>
    rw [dite_eq_ite, ← nextFrom_max hx, nextFrom_eq_some_iff] at hcatch
    have hsub := dropWhile_sublist (l := item :: rest) fun item => decide ((f item).2 ≤ z)
    rw [ih (f item).2 (fun other hother => hproper other (hsub.subset hother))
      (hsorted.sublist hsub) hnext, hitsFrom_dropWhile hnext]
    rw [pairwise_cons] at hsorted
    have hhit : Hit bits (max p (f item).1, (f item).2) := ⟨y, hwithin.2, hcatch.1, hcatch.2.1⟩
    have hpassed : ¬Hit bits (max (f item).2 (f item).1, (f item).2) := by
      rintro ⟨i, hlt, hle, -⟩
      omega
    rw [hitsFrom_cons, hitsFrom_cons, if_pos hhit, if_neg hpassed]
    congr 1
    apply hitsFrom_congr
    intro other hother
    have := hsorted.1 other hother
    omega
  | case6 x item rest y hcatch hwithin ih =>
    rw [dite_eq_ite, ← nextFrom_max hx] at hcatch
    have hsub := dropWhile_sublist (l := item :: rest) fun item => decide ((f item).2 ≤ y)
    rw [ih (max p (f item).1) (fun other hother => hproper other (hsub.subset hother))
      (hsorted.sublist hsub) hcatch, hitsFrom_dropWhile hcatch]
    rw [pairwise_cons] at hsorted
    apply hitsFrom_congr
    grind

end Vast.SelectWith
