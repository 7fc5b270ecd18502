import Vast.Bitmap.Word

/-! # Bit sequences

The ranges of bitmaps consist of sequences of bits that are given by a single word: the
first bits of a block, or a run of equal bits that is longer than a block.
-/

namespace Vast

open Word List

structure Bits where
  data : Block
  size : Nat
  deriving DecidableEq

namespace Bits

/-- The constructor masks the bits behind the sequence. -/
def make (x : Block) (n : Nat) : Bits where
  data := if n < width then x &&& lsbMask n else x
  size := n

def empty : Bits where
  data := 0#64
  size := 0

variable (xs : Bits)

def isEmpty : Bool :=
  xs.size = 0

def isRun : Bool :=
  width < xs.size

def slice (offset length : Nat) : Bits :=
  make (if xs.isRun then xs.data else xs.data >>> offset) length

def drop (n : Nat) : Bits :=
  if n < xs.size then xs.slice n (xs.size - n) else empty

def toList : List Bool :=
  if xs.isRun then List.replicate xs.size (xs.data != 0#64) else Word.bits xs.data xs.size

/-- A run consists of equal bits. -/
def Homogeneous : Prop :=
  64 < xs.size → ∃ bit, xs.data = uniform bit

variable {xs : Bits} {n : Nat} {x : Block}

theorem isRun_iff : xs.isRun = true ↔ 64 < xs.size :=
  decide_eq_true_iff

theorem isEmpty_iff : xs.isEmpty = true ↔ xs.size = 0 :=
  decide_eq_true_iff

theorem length_toList (xs : Bits) : xs.toList.length = xs.size := by
  rw [toList]
  split <;> simp

theorem not_isRun (hblock : xs.size ≤ 64) : ¬ xs.isRun = true := by
  rw [isRun_iff]
  exact Nat.not_lt.mpr hblock

theorem toList_of_block (hblock : xs.size ≤ 64) : xs.toList = bits xs.data xs.size := by
  rw [toList, if_neg (not_isRun hblock)]

theorem toList_make {n : Nat} (hn : n ≤ 64) : (make x n).toList = bits x n := by
  have hblock : (make x n).toList = bits (if n < width then x &&& lsbMask n else x) n :=
    toList_of_block hn
  rw [hblock]
  split
  · rw [lsbMask_eq hn]
    exact bits_and_lsbFill hn
  · rfl

theorem data_make_of_ge (hn : 64 ≤ n) : (make x n).data = x :=
  if_neg (Nat.not_lt.mpr hn)

theorem homogeneous_make (hx : 64 < n → ∃ bit, x = uniform bit) :
    Homogeneous (make x n) := by
  intro hrun
  have hn : 64 < n := hrun
  rw [data_make_of_ge (Nat.le_of_lt hn)]
  exact hx hn

theorem toList_of_run {bit : Bool} (hrun : 64 < xs.size) (hdata : xs.data = uniform bit) :
    xs.toList = replicate xs.size bit := by
  have hbit : (uniform bit != 0#64) = bit := by
    cases bit <;> decide
  rw [toList, if_pos (isRun_iff.mpr hrun), hdata, hbit]

theorem toList_make_uniform (bit : Bool) (n : Nat) :
    (make (uniform bit) n).toList = replicate n bit := by
  rcases Nat.lt_or_ge 64 n with hrun | hblock
  · exact toList_of_run hrun (data_make_of_ge (Nat.le_of_lt hrun))
  · rw [toList_make hblock, bits_uniform bit hblock]

/-- The first bits of a sequence are those of its word. -/
theorem toList_take (hxs : xs.Homogeneous) (hsize : n ≤ xs.size) (hn : n ≤ 64) :
    xs.toList.take n = bits xs.data n := by
  rcases Nat.lt_or_ge 64 xs.size with hrun | hblock
  · obtain ⟨bit, hdata⟩ := hxs hrun
    rw [toList_of_run hrun hdata, hdata, bits_uniform bit hn, take_replicate,
      Nat.min_eq_left hsize]
  · rw [toList_of_block hblock, bits_split xs.data hsize, take_left' length_bits]

/-! ## Removing bits -/

theorem drop_of_lt (hn : n < xs.size) :
    xs.drop n = make (if xs.isRun then xs.data else xs.data >>> n) (xs.size - n) := by
  rw [drop, if_pos hn, slice]

theorem drop_of_ge (hn : xs.size ≤ n) : xs.drop n = empty := by
  rw [drop, if_neg (Nat.not_lt.mpr hn)]

theorem homogeneous_drop (hxs : xs.Homogeneous) (n : Nat) : (xs.drop n).Homogeneous := by
  rcases Nat.lt_or_ge n xs.size with hlt | hge
  · rw [drop_of_lt hlt]
    apply homogeneous_make
    intro hrest
    have hrun : 64 < xs.size := Nat.lt_of_lt_of_le hrest (Nat.sub_le _ _)
    rw [if_pos (isRun_iff.mpr hrun)]
    exact hxs hrun
  · rw [drop_of_ge hge]
    intro hrun
    exact absurd hrun (by decide)

theorem toList_drop (hxs : xs.Homogeneous) (n : Nat) : (xs.drop n).toList = xs.toList.drop n := by
  rcases Nat.lt_or_ge n xs.size with hlt | hge
  · rw [drop_of_lt hlt]
    rcases Nat.lt_or_ge 64 xs.size with hrun | hblock
    · obtain ⟨bit, hdata⟩ := hxs hrun
      rw [if_pos (isRun_iff.mpr hrun), hdata, toList_make_uniform, toList_of_run hrun hdata,
        drop_replicate]
    · rw [if_neg (not_isRun hblock), toList_make (Nat.le_trans (Nat.sub_le _ _) hblock),
        toList_of_block hblock, bits_split xs.data (Nat.le_of_lt hlt), drop_left' length_bits]
  · rw [drop_of_ge hge, drop_eq_nil_of_le]
    · rfl
    · rw [length_toList]
      exact hge

end Bits

end Vast
