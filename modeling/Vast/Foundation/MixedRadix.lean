import Mathlib.Algebra.BigOperators.Group.List.Basic
import Mathlib.Data.List.Lex

/-! # Mixed radix representations

A base is a list of components, least significant first. The digits of a number
determine it up to a multiple of the product of the components, and the order of
the residues is the lexicographic order of the digits.
-/

namespace Foundation.MixedRadix

def decompose : List Nat → Nat → List Nat
  | [], _ => []
  | b :: base, x => x % b :: decompose base (x / b)

theorem length_decompose (base : List Nat) (x : Nat) : (decompose base x).length = base.length := by
  induction base generalizing x with
  | nil => rfl
  | cons b base ih => rw [decompose, List.length_cons, List.length_cons, ih]

theorem mod_prod_cons (b : Nat) (base : List Nat) (x : Nat) :
    x % (b :: base).prod = x % b + b * (x / b % base.prod) := by
  rw [List.prod_cons, Nat.mod_mul]

variable {b : Nat} {base : List Nat} {x y : Nat}

theorem mod_prod_eq_iff (hb : 0 < b) : x % (b :: base).prod = y % (b :: base).prod ↔
      x % b = y % b ∧ x / b % base.prod = y / b % base.prod := by
  rw [mod_prod_cons, mod_prod_cons]
  constructor
  · intro heq
    have hdigit := congrArg (· % b) heq
    simp only [Nat.add_mul_mod_self_left, Nat.mod_mod] at hdigit
    rw [hdigit] at heq
    exact ⟨hdigit, Nat.eq_of_mul_eq_mul_left hb (Nat.add_left_cancel heq)⟩
  · rintro ⟨hdigit, hrest⟩
    rw [hdigit, hrest]

theorem mod_prod_lt_iff (hb : 0 < b) : x % (b :: base).prod < y % (b :: base).prod ↔
      x / b % base.prod < y / b % base.prod ∨
        (x / b % base.prod = y / b % base.prod ∧ x % b < y % b) := by
  rw [mod_prod_cons, mod_prod_cons]
  have hx := Nat.mod_lt x hb
  have hy := Nat.mod_lt y hb
  generalize x / b % base.prod = p
  generalize y / b % base.prod = q
  rcases Nat.lt_trichotomy p q with hlt | rfl | hgt
  · have hmul : b * (p + 1) ≤ b * q := Nat.mul_le_mul_left b hlt
    rw [Nat.mul_succ] at hmul
    exact iff_of_true (by omega) (Or.inl hlt)
  · constructor
    · exact fun h => Or.inr ⟨rfl, by omega⟩
    · rintro (h | ⟨-, h⟩) <;> omega
  · have hmul : b * (q + 1) ≤ b * p := Nat.mul_le_mul_left b hgt
    rw [Nat.mul_succ] at hmul
    constructor
    · omega
    · rintro (h | ⟨h, -⟩) <;> omega

theorem pred_mod_lt_iff {product n m : Nat} (hproduct : 0 < product) (hn : 0 < n) :
    (n - 1) % product < m % product ↔ 0 < n % product ∧ n % product ≤ m % product := by
  have hm := Nat.mod_lt m hproduct
  obtain ⟨k, rfl⟩ : ∃ k, n = k + 1 := ⟨n - 1, by omega⟩
  rw [Nat.add_sub_cancel]
  have hk := Nat.mod_lt k hproduct
  have hsucc : (k + 1) % product = (k % product + 1) % product := (Nat.mod_add_mod k product 1).symm
  rcases Nat.lt_or_ge (k % product + 1) product with hlt | hge
  · rw [hsucc, Nat.mod_eq_of_lt hlt]
    omega
  · have hwrap : k % product + 1 = product := Nat.le_antisymm hk hge
    rw [hsucc, hwrap, Nat.mod_self]
    omega

theorem forall₂_decompose (hbase : ∀ b ∈ base, 0 < b) (x : Nat) :
    List.Forall₂ (· < ·) (decompose base x) base := by
  induction base generalizing x with
  | nil => exact List.Forall₂.nil
  | cons b base ih =>
    obtain ⟨hb, hbase⟩ := List.forall_mem_cons.mp hbase
    exact List.Forall₂.cons (Nat.mod_lt x hb) (ih hbase (x / b))

theorem decompose_congr (hbase : ∀ b ∈ base, 0 < b) (heq : x % base.prod = y % base.prod) :
    decompose base x = decompose base y := by
  induction base generalizing x y with
  | nil => rfl
  | cons b base ih =>
    obtain ⟨hb, hbase⟩ := List.forall_mem_cons.mp hbase
    obtain ⟨hdigit, hrest⟩ := (mod_prod_eq_iff hb).mp heq
    rw [decompose, decompose, hdigit, ih hbase hrest]

theorem lex_append {xs ys : List Nat} (hlen : xs.length = ys.length)
    (hlt : List.Lex (· < ·) xs ys) (first second : List Nat) :
    List.Lex (· < ·) (xs ++ first) (ys ++ second) := by
  induction hlt with
  | nil => cases hlen
  | cons _ ih => exact List.Lex.cons (ih (Nat.succ.inj hlen))
  | rel hrel => exact List.Lex.rel hrel

/-- The order of numbers is the order of their digits from the most significant one on. -/
theorem reverse_decompose_lt (hbase : ∀ b ∈ base, 0 < b)
    (hlt : x % base.prod < y % base.prod) :
    (decompose base x).reverse < (decompose base y).reverse := by
  induction base generalizing x y with
  | nil => simp [Nat.mod_one] at hlt
  | cons b base ih =>
    obtain ⟨hb, hbase⟩ := List.forall_mem_cons.mp hbase
    rw [decompose, decompose, List.reverse_cons, List.reverse_cons]
    rcases (mod_prod_lt_iff hb).mp hlt with hrest | ⟨hrest, hdigit⟩
    · refine lex_append ?_ (ih hbase hrest) _ _
      rw [List.length_reverse, List.length_reverse, length_decompose, length_decompose]
    · rw [decompose_congr hbase hrest]
      exact List.Lex.append_left _ (List.Lex.rel hdigit) _

/-- The number that digits stand for, with the weight of the first one. -/
def weigh (m : Nat) : List Nat → List Nat → Nat
  | b :: base, digit :: digits => digit * m + weigh (m * b) base digits
  | _, _ => 0

theorem weigh_decompose (m : Nat) (base : List Nat) (x : Nat) :
    weigh m base (decompose base x) = m * (x % base.prod) := by
  induction base generalizing m x with
  | nil => simp [weigh, Nat.mod_one]
  | cons b base ih =>
    rw [decompose, weigh, ih, mod_prod_cons, Nat.mul_add, Nat.mul_assoc, Nat.mul_comm m (x % b)]

end Foundation.MixedRadix
