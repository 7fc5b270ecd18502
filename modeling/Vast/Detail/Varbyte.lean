import Mathlib.Algebra.Order.Ring.Nat

/-! # Variable byte coding

A number is written in groups of seven bits, the lowest ones first. The high bit is set in every
byte but the last.
-/

namespace Vast.Detail.Varbyte

open List

inductive Width where
  | one | two | four | eight

def Width.digits : Width → Nat
  | .one => 8
  | .two => 16
  | .four => 32
  | .eight => 64

def size (width : Width) (x : Nat) : Nat :=
  match width with
  | .eight =>
    if 2 ^ 63 ≤ x then 10
    else if 2 ^ 56 ≤ x then 9
    else if 2 ^ 49 ≤ x then 8
    else if 2 ^ 42 ≤ x then 7
    else if 2 ^ 35 ≤ x then 6
    else if 2 ^ 28 ≤ x then 5
    else if 2 ^ 21 ≤ x then 4
    else if 2 ^ 14 ≤ x then 3
    else if 2 ^ 7 ≤ x then 2 else 1
  | .four =>
    if 2 ^ 28 ≤ x then 5
    else if 2 ^ 21 ≤ x then 4
    else if 2 ^ 14 ≤ x then 3
    else if 2 ^ 7 ≤ x then 2 else 1
  | .two => if 2 ^ 14 ≤ x then 3 else if 2 ^ 7 ≤ x then 2 else 1
  | .one => if 2 ^ 7 ≤ x then 2 else 1

def maxSize (width : Width) : Nat :=
  if width.digits % 7 = 0 then width.digits / 7 else width.digits / 7 + 1

def encode (x : Nat) : List UInt8 :=
  if 0x7f < x then (x.toUInt8 &&& 0x7f ||| 0x80) :: encode (x >>> 7) else [x.toUInt8 &&& 0x7f]
termination_by x
decreasing_by
  rw [Nat.shiftRight_eq_div_pow]
  omega

/-- There is no result if the source ends, or for a shift that is wider than the type. -/
def decodeLoop (digits : Nat) : Nat → Nat → List UInt8 → Option (Nat × Nat)
  | _, _, [] => none
  | i, x, low7 :: source =>
    if max 32 digits ≤ 7 * i then none
    else
      let x := (x ||| (low7 &&& 0x7f).toNat <<< (7 * i)) % 2 ^ digits
      if low7 &&& 0x80 ≠ 0 then decodeLoop digits (i + 1) x source else some (x, i + 1)

/-- The value, and the number of bytes that are read. -/
def decode (width : Width) (source : List UInt8) : Option (Nat × Nat) :=
  decodeLoop width.digits 0 0 source

/-! ## Groups of seven bits -/

theorem group_eq (x : UInt8) : (x &&& 0x7f ||| 0x80) &&& 0x7f = x &&& 0x7f ∧
    (x &&& 0x7f ||| 0x80) &&& 0x80 ≠ 0 ∧ (x &&& 0x7f) &&& 0x7f = x &&& 0x7f ∧
      (x &&& 0x7f) &&& 0x80 = 0 ∧ (x &&& 0x7f).toNat = x.toNat % 128 := by
  obtain ⟨⟨x⟩⟩ := x
  revert x
  decide +kernel

theorem toNat_group (x : Nat) : (x.toUInt8 &&& 0x7f).toNat = x % 128 := by
  rw [(group_eq _).2.2.2.2, UInt8.toNat_ofNat']
  omega

theorem length_encode {k x : Nat} (hlow : k = 0 ∨ 2 ^ (7 * k) ≤ x)
    (hhigh : x < 2 ^ (7 * (k + 1))) : (encode x).length = k + 1 := by
  induction k generalizing x with
  | zero =>
    rw [encode, if_neg (by omega)]
    rfl
  | succ k ih =>
    have hpow : ∀ n, 2 ^ (7 * (n + 1)) = 2 ^ (7 * n) * 128 := fun n => Nat.pow_add 2 (7 * n) 7
    have hpos := Nat.two_pow_pos (7 * k)
    rw [hpow] at hlow hhigh
    rw [encode, if_pos (by omega), length_cons, ih]
    all_goals rw [Nat.shiftRight_eq_div_pow]; omega

theorem size_eq (width : Width) {x : Nat} (hx : x < 2 ^ width.digits) :
    (encode x).length = size width x ∧ size width x ≤ maxSize width := by
  cases width <;> simp only [size, Width.digits] at hx ⊢ <;> split_ifs <;>
    exact ⟨length_encode (by omega) (by omega), by decide⟩

theorem encode_ends (x : Nat) : ∃ init last, encode x = init ++ [last] ∧
    (∀ byte ∈ init, byte &&& 0x80 ≠ 0) ∧ last &&& 0x80 = 0 := by
  fun_induction encode x with
  | case1 x _ ih =>
    obtain ⟨init, last, heq, hinit, hlast⟩ := ih
    exact ⟨_ :: init, last, congrArg _ heq, forall_mem_cons.mpr ⟨(group_eq _).2.1, hinit⟩, hlast⟩
  | case2 x _ => exact ⟨[], _, rfl, forall_mem_nil _, (group_eq _).2.2.2.1⟩

/-- The lower groups are less than the weight of the next one, to which they are added. -/
theorem decodeLoop_group {digits i low x : Nat} (source : List UInt8) (hlow : low < 2 ^ (7 * i))
    (hfits : low + 2 ^ (7 * i) * x < 2 ^ digits) (hzero : x = 0 → i = 0) :
    decodeLoop digits i low ((x.toUInt8 &&& 0x7f ||| 0x80) :: source) =
        decodeLoop digits (i + 1) (low + 2 ^ (7 * i) * (x % 128)) source ∧
      decodeLoop digits i low ((x.toUInt8 &&& 0x7f) :: source) =
        some (low + 2 ^ (7 * i) * (x % 128), i + 1) := by
  have hshift : ¬ max 32 digits ≤ 7 * i := by
    intro hle
    have hpow := Nat.pow_le_pow_right Nat.two_pos (show digits ≤ 7 * i by omega)
    have := Nat.le_mul_of_pos_right (2 ^ (7 * i)) (show 0 < x by omega)
    omega
  have hle := Nat.mul_le_mul_left (2 ^ (7 * i)) (Nat.mod_le x 128)
  have hgroup : (low ||| (x % 128) <<< (7 * i)) % 2 ^ digits = low + 2 ^ (7 * i) * (x % 128) := by
    rw [Nat.or_comm, ← Nat.shiftLeft_add_eq_or_of_lt hlow, Nat.shiftLeft_eq, Nat.mul_comm,
      Nat.add_comm, Nat.mod_eq_of_lt (by omega)]
  obtain ⟨hmore, hset, hlast, hclear, -⟩ := group_eq x.toUInt8
  simp only [decodeLoop, hmore, hlast, hclear, toNat_group, hgroup, if_neg hshift, if_pos hset]
  exact ⟨trivial, rfl⟩

theorem decodeLoop_encode {digits x i low : Nat} (rest : List UInt8) (hlow : low < 2 ^ (7 * i))
    (hfits : low + 2 ^ (7 * i) * x < 2 ^ digits) (hzero : x = 0 → i = 0) :
    decodeLoop digits i low (encode x ++ rest) =
      some (low + 2 ^ (7 * i) * x, i + (encode x).length) := by
  fun_induction encode x generalizing i low with
  | case1 x hx ih =>
    have hpow : 2 ^ (7 * (i + 1)) = 2 ^ (7 * i) * 128 := Nat.pow_add 2 (7 * i) 7
    have hsum : low + 2 ^ (7 * i) * (x % 128) + 2 ^ (7 * (i + 1)) * (x >>> 7) =
        low + 2 ^ (7 * i) * x := by
      rw [hpow, Nat.shiftRight_eq_div_pow, Nat.mul_assoc, Nat.add_assoc, ← Nat.mul_add,
        Nat.mod_add_div]
    have hmul := Nat.mul_le_mul_left (2 ^ (7 * i)) (show x % 128 ≤ 127 by omega)
    rw [cons_append, (decodeLoop_group _ hlow hfits hzero).1, ih (by omega) (by omega) (by
      rw [Nat.shiftRight_eq_div_pow]
      omega), hsum, length_cons]
    simp
    omega
  | case2 x hx =>
    rw [cons_append, (decodeLoop_group _ hlow hfits hzero).2, Nat.mod_eq_of_lt (by omega)]
    rfl

/-- A value takes as many bytes as its size says, of which only the last has a clear high bit.
Decoding reads these bytes and no others. -/
theorem encode_decode (width : Width) (x : BitVec width.digits) (rest : List UInt8) :
    (encode x.toNat).length = size width x.toNat ∧ size width x.toNat ≤ maxSize width ∧
      (∃ init last, encode x.toNat = init ++ [last] ∧ (∀ byte ∈ init, byte &&& 0x80 ≠ 0) ∧
        last &&& 0x80 = 0) ∧
      decode width (encode x.toNat ++ rest) = some (x.toNat, size width x.toNat) := by
  obtain ⟨hlength, hle⟩ := size_eq width x.isLt
  refine ⟨hlength, hle, encode_ends x.toNat, ?_⟩
  rw [decode, decodeLoop_encode rest (by decide) (by simp [x.isLt]) (fun _ => rfl), hlength]
  simp

end Vast.Detail.Varbyte
