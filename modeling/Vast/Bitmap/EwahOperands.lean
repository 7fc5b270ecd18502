import Mathlib.Data.List.Sort
import Vast.Bitmap.EwahRange
import Vast.Bitmap.NaryEval

/-! # EWAH bitmaps as operands

A bitmap that is built by appending can be read again, so that the operations on ranges apply to
EWAH bitmaps, however the bits are divided into blocks and runs.
-/

namespace Vast

open Foundation List Bitmap Segments Chunk

namespace EwahBitmap

variable {bm : EwahBitmap} {bits : List Bool}

theorem yields_of_lt (hrep : Represents bm bits) (hlt : bits.length < 2 ^ 64) :
    Yields bm bits := by
  refine hrep.yields_iff.mpr ⟨?_, ?_⟩
  · rw [Nat.mod_eq_of_lt hlt, ← length_eq_zero_iff]
    exact Decidable.em _
  · rintro ⟨before, after, bit, -, -, rfl⟩
    rw [length_append, length_append, length_replicate] at hlt
    omega

theorem homogeneous_chunkBits (chunk : Chunk Block) : (chunkBits chunk).Homogeneous := by
  cases chunk with
  | run bit count => exact Bits.homogeneous_make fun _ => ⟨bit, rfl⟩
  | literal word => exact Bits.homogeneous_make fun hrun => absurd hrun (Nat.lt_irrefl 64)

theorem Represents.homogeneous (hrep : Represents bm bits) (hlt : bits.length < 2 ^ 64) :
    ∀ xs ∈ bm.bitRange, xs.Homogeneous := by
  rcases hrep with ⟨rfl, rfl⟩ | ⟨words, active, used, hholds, rfl⟩
  · exact fun xs hxs => nomatch hxs
  · have hlast := hholds.used_le
    have hpos := hholds.used_pos
    have hsize : bm.numBits ≠ 0 := by
      rw [length_append, length_wordBits, Word.length_bits] at hlt
      rw [hholds.numBits_eq, Nat.mod_eq_of_lt hlt]
      omega
    intro xs hxs
    rw [hholds.bitRange_eq hsize, sequences, hholds.usedBits_eq, mem_append, mem_map,
      mem_singleton] at hxs
    rcases hxs with ⟨chunk, -, rfl⟩ | rfl
    · exact homogeneous_chunkBits chunk
    · exact Bits.homogeneous_make fun hrun => absurd hrun (Nat.not_lt.mpr hlast)

/-- A bitmap as long as a machine word can count is an operand. -/
def operand (hrep : Represents bm bits) (hlt : bits.length < 2 ^ 64) : BitmapOperand where
  range := bm.bitRange
  size := bm.numBits
  isEmpty_eq_false := (yields_of_lt hrep hlt).2
  homogeneous := hrep.homogeneous hlt
  size_eq := by
    rw [(yields_of_lt hrep hlt).1]
    exact (resultType.size_eq hrep).trans (Nat.mod_eq_of_lt hlt)
  size_lt := lt_of_eq_of_lt (resultType.size_eq hrep) (Nat.mod_lt _ (by decide))

def bitmapType : BitmapType EwahBitmap where
  toResultType := resultType
  operand := operand
  contents_operand hrep hlt := (yields_of_lt hrep hlt).1

end EwahBitmap

/-- A queue that is sorted when an element is needed. -/
def SizeQueue.sorted {β : Type*} (size : β → Nat) : SizeQueue size where
  emplace queue element := element :: queue
  pop queue :=
    match queue.insertionSort (fun first second => size first ≤ size second) with
    | [] => none
    | top :: rest => some (top, rest)
  emplace_perm _ _ := Perm.refl _
  pop_nil := rfl
  pop_perm queue hne := by
    have hperm := perm_insertionSort (fun first second => size first ≤ size second) queue
    have : IsTrans β fun first second => size first ≤ size second := ⟨fun _ _ _ => Nat.le_trans⟩
    have : Std.Total fun first second => size first ≤ size second := ⟨fun _ _ => Nat.le_total ..⟩
    have hsorted := pairwise_insertionSort (fun first second => size first ≤ size second) queue
    cases hsort : queue.insertionSort (fun first second => size first ≤ size second) with
    | nil => exact absurd (hsort ▸ hperm).nil_eq.symm hne
    | cons top rest =>
      rw [hsort] at hperm hsorted
      exact ⟨top, rest, rfl, hperm, (pairwise_cons.mp hsorted).1⟩

namespace EwahBitmap

/-- Two hundred ones: a run and the last block. -/
def ones : SizedBitmap bitmapType where
  bitmap := empty.appendBits true 200
  bits := replicate 200 true
  represents := Represents.appendBits (Or.inl ⟨rfl, rfl⟩) true 200
  length_lt := by
    rw [length_replicate]
    decide

/-- A literal and a part of a block. -/
def literal : SizedBitmap bitmapType where
  bitmap := (empty.appendBlock 0xf0f0#64 64).appendBits false 40
  bits := Word.bits 0xf0f0#64 64 ++ replicate 40 false
  represents := (bitmapType.represents_appendBlock (Or.inl ⟨rfl, rfl⟩) _ (by decide)
    (by decide)).appendBits false 40
  length_lt := by simp [Word.length_bits]

def few : SizedBitmap bitmapType where
  bitmap := empty.appendBlock 0xff00#64 30
  bits := Word.bits 0xff00#64 30
  represents := bitmapType.represents_appendBlock (Or.inl ⟨rfl, rfl⟩) _ (by decide) (by decide)
  length_lt := by simp [Word.length_bits]

end EwahBitmap

open EwahBitmap in
/-- A run of several blocks meets a literal. -/
theorem run_meets_literal :
    ones.operand.range.map Bits.size = [192, 8] ∧ literal.operand.range.map Bits.size = [64, 40] ∧
      Computes resultType (binaryXor resultType ones.operand literal.operand) xor ones.operand
        literal.operand := by
  exact ⟨by decide, by decide,
    (binary_operations_compute resultType ones.operand literal.operand).2.2.1⟩

open EwahBitmap in
/-- The queue combines the two shorter bitmaps first, unlike the fold. -/
theorem shorter_bitmaps_first :
    [ones, literal, few].map SizedBitmap.size = [200, 104, 30] ∧
      (SizedBitmap.naryXor (.sorted _) [ones, literal, few]).operand.contents =
        ((ones.xor literal).xor few).operand.contents :=
  ⟨by decide, (SizedBitmap.nary_operations_eq_foldl (.sorted _) ones [literal, few]).2.2⟩

end Vast
