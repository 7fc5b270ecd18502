import Mathlib.Algebra.Order.Ring.Nat

/-! # Words

The blocks of bitmaps are words of 64 bits. A block of a compressed bitmap is a literal
or a marker, which counts the clean words of a run and the dirty words behind it. The
least significant bit of a literal comes first.
-/

namespace Vast

open BitVec

abbrev Block := BitVec 64

variable {i n : Nat}

namespace Word

def width : Nat := 64

def none : Block := 0#64

def all : Block := ~~~none

def uniform (bit : Bool) : Block :=
  if bit then all else none

def msb0 : Block := all >>> 1

def msb1 : Block := ~~~msb0

def lsb1 : Block := 1#64

def lsb0 : Block := ~~~lsb1

/-- The given number of least significant bits, but not all of them. -/
def lsbMask (i : Nat) : Block :=
  ~~~(all <<< i)

/-- The given number of least significant bits, at least one of them. -/
def lsbFill (i : Nat) : Block :=
  all >>> (width - i)

variable (x : Block)

def allOrNone : Bool :=
  (x + 1#64) &&& lsb0 ≤ 1#64

theorem getLsbD_all : all.getLsbD i = decide (i < 64) := by
  rw [show all = allOnes 64 by decide, getLsbD_allOnes]

theorem getLsbD_none : none.getLsbD i = false :=
  getLsbD_zero

theorem getLsbD_lsbMask :
    (lsbMask n).getLsbD i = (decide (i < 64) && decide (i < n)) := by
  simp only [lsbMask, getLsbD_not, getLsbD_shiftLeft, getLsbD_all]
  by_cases hi : i < 64 <;> by_cases hn : i < n <;> simp [hi, hn]
  omega

theorem getLsbD_lsbFill (hn : n ≤ 64) : (lsbFill n).getLsbD i = decide (i < n) := by
  simp only [lsbFill, getLsbD_ushiftRight, getLsbD_all, width, decide_eq_decide]
  omega

/-- The masks differ in the numbers that they are meant for. -/
theorem lsbMask_eq (hn : n ≤ 64) : lsbMask n = lsbFill n := by
  apply eq_of_getLsbD_eq
  intro i hi
  rw [getLsbD_lsbMask, getLsbD_lsbFill hn, decide_eq_true hi, Bool.true_and]

theorem and_lsb0 : x &&& lsb0 = (x >>> 1) <<< 1 := by
  apply eq_of_getLsbD_eq
  intro i hi
  simp only [lsb0, lsb1, getLsbD_and, getLsbD_not, getLsbD_shiftLeft, getLsbD_ushiftRight]
  rcases Nat.eq_zero_or_pos i with rfl | hpos
  · simp
  · rw [show 1 + (i - 1) = i by omega]
    simp [hi, Nat.ne_of_gt hpos]

theorem allOrNone_iff : allOrNone x = true ↔ x = none ∨ x = all := by
  have hall : x = all ↔ x.toNat = 2 ^ 64 - 1 := by
    rw [← toNat_inj]
    rfl
  have hnone : x = none ↔ x.toNat = 0 := by
    rw [← toNat_inj]
    rfl
  rw [allOrNone, and_lsb0, decide_eq_true_iff, le_def, toNat_shiftLeft,
    toNat_ushiftRight, toNat_add, hall, hnone, toNat_one (by decide)]
  omega

/-! ## Bits -/

def bits (n : Nat) : List Bool :=
  (List.range n).map x.getLsbD

/-- All bits behind the first ones are zero. -/
def Unused (n : Nat) : Prop :=
  ∀ i, n ≤ i → x.getLsbD i = false

section Bits

variable {x y z : Block} {n m : Nat}

@[simp]
theorem length_bits : (bits x n).length = n := by
  rw [bits, List.length_map, List.length_range]

theorem bits_congr (heq : ∀ i < n, x.getLsbD i = y.getLsbD i) : bits x n = bits y n := by
  apply List.map_congr_left
  intro i hi
  exact heq i (List.mem_range.mp hi)

theorem bits_eq_replicate {bit : Bool} (heq : ∀ i < n, x.getLsbD i = bit) :
    bits x n = List.replicate n bit := by
  apply List.eq_replicate_iff.mpr
  refine ⟨length_bits, ?_⟩
  intro other hother
  obtain ⟨i, hi, rfl⟩ := List.mem_map.mp hother
  exact heq i (List.mem_range.mp hi)

theorem bits_none : bits none n = List.replicate n false :=
  bits_eq_replicate fun _ _ => getLsbD_none

theorem bits_all (hn : n ≤ 64) : bits all n = List.replicate n true := by
  apply bits_eq_replicate
  intro i hi
  rw [getLsbD_all, decide_eq_true (Nat.lt_of_lt_of_le hi hn)]

theorem bits_uniform (bit : Bool) (hn : n ≤ 64) : bits (uniform bit) n = List.replicate n bit := by
  cases bit
  · exact bits_none
  · exact bits_all hn

theorem bits_lsbFill (hn : n ≤ 64) : bits (lsbFill n) n = List.replicate n true := by
  apply bits_eq_replicate
  intro i hi
  rw [getLsbD_lsbFill hn, decide_eq_true hi]

theorem bits_append (hfirst : ∀ i < n, z.getLsbD i = x.getLsbD i)
    (hsecond : ∀ i < m, z.getLsbD (n + i) = y.getLsbD i) :
    bits z (n + m) = bits x n ++ bits y m := by
  rw [bits, List.range_add, List.map_append, List.map_map]
  apply congrArg₂
  · exact bits_congr hfirst
  · apply List.map_congr_left
    intro i hi
    exact hsecond i (List.mem_range.mp hi)

theorem bits_or_shiftLeft (hx : Unused x n) (hle : n + m ≤ 64) :
    bits (x ||| (y <<< n)) (n + m) = bits x n ++ bits y m := by
  apply bits_append
  · intro i hi
    simp [hi]
  · intro i hi
    have hlt : n + i < 64 := by omega
    rw [getLsbD_or, hx (n + i) (Nat.le_add_right n i), getLsbD_shiftLeft]
    simp [hlt]

theorem Unused.or_shiftLeft (hx : Unused x n) (hy : Unused y m) :
    Unused (x ||| (y <<< n)) (n + m) := by
  intro i hi
  have hshift : y.getLsbD (i - n) = false := hy _ (by omega)
  simp [hx i (by omega), hshift]

theorem unused_none : Unused none n :=
  fun _ _ => getLsbD_none

theorem unused_lsbFill (hn : n ≤ 64) : Unused (lsbFill n) n := by
  intro i hi
  rw [getLsbD_lsbFill hn, decide_eq_false_iff_not]
  omega

theorem unused_full : Unused x 64 :=
  fun i hi => getLsbD_of_ge x i hi

theorem Unused.and_left (hy : Unused y n) : Unused (x &&& y) n := by
  intro i hi
  rw [getLsbD_and, hy i hi, Bool.and_false]

theorem bits_and_lsbFill (hn : n ≤ 64) : bits (x &&& lsbFill n) n = bits x n := by
  apply bits_congr
  intro i hi
  rw [getLsbD_and, getLsbD_lsbFill hn, decide_eq_true hi, Bool.and_true]

theorem bits_not (hn : n ≤ 64) : bits (~~~x) n = (bits x n).map (!·) := by
  rw [bits, bits, List.map_map]
  apply List.map_congr_left
  intro i hi
  have hlt : i < 64 := Nat.lt_of_lt_of_le (List.mem_range.mp hi) hn
  simp [hlt]

theorem bits_split (x : Block) (hle : n ≤ m) : bits x m = bits x n ++ bits (x >>> n) (m - n) := by
  obtain ⟨k, rfl⟩ := Nat.exists_eq_add_of_le hle
  rw [Nat.add_sub_cancel_left]
  apply bits_append
  · exact fun i _ => rfl
  · intro i _
    rw [getLsbD_ushiftRight]

theorem eq_of_bits_eq (hx : Unused x n) (hy : Unused y n) (hbits : bits x n = bits y n) :
    x = y := by
  apply eq_of_getLsbD_eq
  intro i _
  rcases Nat.lt_or_ge i n with hlt | hge
  · exact List.map_inj_left.mp hbits i (List.mem_range.mpr hlt)
  · rw [hx i hge, hy i hge]

end Bits

end Word

/-! ## Markers -/

namespace EwahWord

open Word BitVec

/-- The counter of dirty words is below this bit, the counter of clean words above. -/
def cleanDirtyDivide : Nat := width / 2 - 1

def markerDirtyMask : Block :=
  ~~~(all <<< cleanDirtyDivide)

def markerDirtyMax : Nat := markerDirtyMask.toNat

def markerCleanMask : Block :=
  ~~~(markerDirtyMask ||| msb1)

def markerCleanMax : Nat := (markerCleanMask >>> cleanDirtyDivide).toNat

variable (block : Block)

def markerType : Bool :=
  block &&& msb1 == msb1

def setMarkerType (type : Bool) : Block :=
  (block &&& ~~~msb1) ||| (if type then msb1 else 0#64)

def markerNumClean : Nat :=
  ((block &&& markerCleanMask) >>> cleanDirtyDivide).toNat

def setMarkerNumClean (n : Nat) : Block :=
  (block &&& ~~~markerCleanMask) ||| (BitVec.ofNat 64 n <<< cleanDirtyDivide)

def markerNumDirty : Nat :=
  (block &&& markerDirtyMask).toNat

def setMarkerNumDirty (n : Nat) : Block :=
  (block &&& ~~~markerDirtyMask) ||| BitVec.ofNat 64 n

def marker (type : Bool) (clean dirty : Nat) : Block :=
  BitVec.ofBool type ++ BitVec.ofNat 32 clean ++ BitVec.ofNat 31 dirty

theorem markerCleanMax_eq : markerCleanMax = 2 ^ 32 - 1 := by decide

theorem markerDirtyMax_eq : markerDirtyMax = 2 ^ 31 - 1 := by decide

theorem getLsbD_marker {type : Bool} {clean dirty : Nat} : (marker type clean dirty).getLsbD i =
      if i < 31 then dirty.testBit i
      else if i < 63 then clean.testBit (i - 31)
      else decide (i = 63) && type := by
  simp only [marker, getLsbD_append, getLsbD_ofNat]
  by_cases hdirty : i < 31
  · simp [hdirty]
  · by_cases hclean : i < 63
    · have hlt : i - 31 < 32 := by omega
      simp [hdirty, hclean, hlt]
    · have hge : ¬ i - 31 < 32 := by omega
      have heq : (i - 31 - 32 = 0) = (i = 63) := by
        rw [eq_iff_iff]
        omega
      simp [hdirty, hclean, hge, heq]

theorem getLsbD_msb1 : msb1.getLsbD i = decide (i = 63) := by
  simp only [msb1, msb0, getLsbD_not, getLsbD_ushiftRight, getLsbD_all]
  rw [← decide_not, ← Bool.decide_and, decide_eq_decide]
  omega

theorem getLsbD_markerDirtyMask : markerDirtyMask.getLsbD i = decide (i < 31) := by
  have hmask : markerDirtyMask = lsbMask 31 := rfl
  rw [hmask, getLsbD_lsbMask, ← Bool.decide_and, decide_eq_decide]
  omega

theorem getLsbD_markerCleanMask :
    markerCleanMask.getLsbD i = decide (31 ≤ i ∧ i < 63) := by
  simp only [markerCleanMask, getLsbD_not, getLsbD_or, getLsbD_markerDirtyMask, getLsbD_msb1]
  rw [← Bool.decide_or, ← decide_not, ← Bool.decide_and, decide_eq_decide]
  omega

theorem testBit_eq_false {k : Nat} (hlt : n < 2 ^ k) (hle : k ≤ i) : n.testBit i = false :=
  Nat.testBit_lt_two_pow (Nat.lt_of_lt_of_le hlt (Nat.pow_le_pow_right (by decide) hle))

section Marker

variable {type : Bool} {clean dirty : Nat}

theorem marker_zero : marker false 0 0 = 0#64 := by decide

theorem markerType_marker : markerType (marker type clean dirty) = type := by
  have hmsb : marker type clean dirty &&& msb1 = if type then msb1 else 0#64 := by
    apply eq_of_getLsbD_eq
    intro i _
    rw [getLsbD_and, getLsbD_marker]
    by_cases hi : i = 63
    · cases type <;> simp [hi]
    · cases type <;> simp [hi, getLsbD_msb1]
  rw [markerType, hmsb]
  cases type <;> decide

theorem markerNumClean_marker (hclean : clean ≤ markerCleanMax) :
    markerNumClean (marker type clean dirty) = clean := by
  rw [markerCleanMax_eq] at hclean
  have hshift : (marker type clean dirty &&& markerCleanMask) >>> cleanDirtyDivide =
      BitVec.ofNat 64 clean := by
    apply eq_of_getLsbD_eq
    intro i hi
    have hdivide : cleanDirtyDivide + i = 31 + i := rfl
    rw [getLsbD_ushiftRight, getLsbD_and, getLsbD_markerCleanMask,
      getLsbD_marker, getLsbD_ofNat, hdivide]
    by_cases hlt : i < 32
    · have h1 : ¬ 31 + i < 31 := by omega
      have h2 : 31 + i < 63 := by omega
      simp [h1, h2, hi]
    · have h2 : ¬ 31 + i < 63 := by omega
      have htest : clean.testBit i = false :=
        testBit_eq_false (by omega : clean < 2 ^ 32) (by omega)
      simp [h2, htest]
  rw [markerNumClean, hshift, toNat_ofNat, Nat.mod_eq_of_lt (by omega)]

theorem markerNumDirty_marker (hdirty : dirty ≤ markerDirtyMax) :
    markerNumDirty (marker type clean dirty) = dirty := by
  rw [markerDirtyMax_eq] at hdirty
  have hmask : marker type clean dirty &&& markerDirtyMask = BitVec.ofNat 64 dirty := by
    apply eq_of_getLsbD_eq
    intro i hi
    rw [getLsbD_and, getLsbD_markerDirtyMask, getLsbD_marker, getLsbD_ofNat]
    by_cases hlt : i < 31
    · simp [hlt, hi]
    · have htest : dirty.testBit i = false :=
        testBit_eq_false (by omega : dirty < 2 ^ 31) (by omega)
      simp [hlt, htest]
  rw [markerNumDirty, hmask, toNat_ofNat, Nat.mod_eq_of_lt (by omega)]

theorem setMarkerType_marker (bit : Bool) :
    setMarkerType (marker type clean dirty) bit = marker bit clean dirty := by
  apply eq_of_getLsbD_eq
  intro i hi
  have hbit : (if bit then msb1 else 0#64).getLsbD i = (decide (i = 63) && bit) := by
    cases bit <;> simp [getLsbD_msb1]
  rw [setMarkerType, getLsbD_or, hbit, getLsbD_and, getLsbD_not,
    getLsbD_msb1, getLsbD_marker, getLsbD_marker]
  by_cases h63 : i = 63
  · simp [h63]
  · simp [h63, hi]

theorem setMarkerNumClean_marker (hn : n ≤ markerCleanMax) :
    setMarkerNumClean (marker type clean dirty) n = marker type n dirty := by
  rw [markerCleanMax_eq] at hn
  apply eq_of_getLsbD_eq
  intro i hi
  have hdivide : cleanDirtyDivide = 31 := rfl
  rw [setMarkerNumClean, getLsbD_or, getLsbD_and, getLsbD_not, getLsbD_markerCleanMask,
    getLsbD_shiftLeft, getLsbD_ofNat, getLsbD_marker, getLsbD_marker, hdivide]
  by_cases h31 : i < 31
  · simp [h31, hi]
  · by_cases h63 : i < 63
    · have hlt : i - 31 < 64 := by omega
      simp [h31, h63, hi, hlt]
    · have htest : n.testBit (i - 31) = false :=
        testBit_eq_false (by omega : n < 2 ^ 32) (by omega)
      simp [h63, hi, htest]

theorem setMarkerNumDirty_marker (hn : n ≤ markerDirtyMax) :
    setMarkerNumDirty (marker type clean dirty) n = marker type clean n := by
  rw [markerDirtyMax_eq] at hn
  apply eq_of_getLsbD_eq
  intro i hi
  rw [setMarkerNumDirty, getLsbD_or, getLsbD_and, getLsbD_not,
    getLsbD_markerDirtyMask, getLsbD_ofNat, getLsbD_marker, getLsbD_marker]
  by_cases h31 : i < 31
  · simp [h31, hi]
  · have htest : n.testBit i = false :=
      testBit_eq_false (by omega : n < 2 ^ 31) (by omega)
    simp [h31, hi, htest]

theorem marker_xor_msb1 : marker type clean dirty ^^^ msb1 = marker (!type) clean dirty := by
  apply eq_of_getLsbD_eq
  intro i hi
  rw [getLsbD_xor, getLsbD_msb1, getLsbD_marker, getLsbD_marker]
  by_cases h63 : i = 63
  · simp [h63]
  · simp [h63]

end Marker

end EwahWord

end Vast
