import Vast.Bitmap.BinaryEval
import Vast.Bitmap.EwahLayout

/-! # The contents of EWAH bitmaps

A bitmap holds a sequence of words and a last block that is used in part. The operations
append to this sequence or complement it, and they leave blocks that are a function of the
bits. The number of bits is only known up to the size of a machine word, but the words and
the used part of the last block do not depend on that.
-/

namespace Vast

open Foundation Word EwahWord List Nat Segments

namespace EwahBitmap

def wordBits (words : List Block) : List Bool :=
  words.flatMap fun word => Word.bits word 64

variable (bm : EwahBitmap)

/-- Words are integrated, and the last block is used in part. -/
structure Holds (words : List Block) (active : Block) (used : Nat) : Prop where
  used_pos : 0 < used
  used_le : used ≤ 64
  unused : Unused active used
  laid : Laid bm (Segments.compress coding words) [active]
  numBits_eq : bm.numBits = (words.length * 64 + used) % 2 ^ 64

/-- Words are integrated, and there is no last block yet. -/
structure Aligned (words : List Block) : Prop where
  laid : Laid bm (Segments.compress coding words) []
  numBits_eq : bm.numBits = words.length * 64 % 2 ^ 64

/-- A bitmap that is not empty has some bits. -/
def Stores (bits : List Bool) : Prop :=
  ∃ words active used, Holds bm words active used ∧
    bits = wordBits words ++ Word.bits active used

def Represents (bits : List Bool) : Prop :=
  (bm = empty ∧ bits = []) ∨ Stores bm bits

variable {bm : EwahBitmap} {words : List Block} {active : Block} {used : Nat} {block : Block}
  {n : Nat} {bits : List Bool}

theorem wordBits_append (first second : List Block) :
    wordBits (first ++ second) = wordBits first ++ wordBits second :=
  flatMap_append

theorem wordBits_concat (words : List Block) (word : Block) :
    wordBits (words ++ [word]) = wordBits words ++ Word.bits word 64 := by
  rw [wordBits_append, wordBits, wordBits, flatMap_singleton]

theorem wordBits_clean (bit : Bool) (count : Nat) :
    wordBits (replicate count (coding.clean bit)) = replicate (count * 64) bit := by
  have hclean : bits (coding.clean bit) 64 = replicate 64 bit := bits_uniform bit (le_refl 64)
  induction count with
  | zero => rfl
  | succ count ih =>
    rw [replicate_succ', wordBits_concat, ih, hclean, replicate_append_replicate, succ_mul]

theorem length_wordBits (words : List Block) : (wordBits words).length = words.length * 64 := by
  induction words with
  | nil => rfl
  | cons word words ih =>
    rw [wordBits, flatMap_cons, length_append, length_bits, ← wordBits, length_cons]
    omega

/-! ## Steps -/

theorem Holds.integrate (hholds : Holds bm words active 64) :
    Aligned bm.integrateLastBlock (words ++ [active]) := by
  constructor
  · rw [compress_append]
    exact hholds.laid.integrateLastBlock
  · rw [numBits_integrateLastBlock, hholds.numBits_eq, length_append, length_singleton,
      succ_mul]

theorem aligned_start : Aligned (empty.pushBack 0#64) [] := by
  refine ⟨⟨proper_empty, ?_, rfl⟩, rfl⟩
  exact congrArg (fun block => [block]) marker_zero.symm

theorem Aligned.push (haligned : Aligned bm words) (hpos : 0 < n) (hle : n ≤ 64)
    (hunused : Unused block n) : Holds ((bm.pushBack block).addSize n) words block n := by
  refine ⟨hpos, hle, hunused, (haligned.laid.pushBack block).addSize n, ?_⟩
  have hsize : ((bm.pushBack block).addSize n).numBits = (bm.numBits + n) % 2 ^ 64 := rfl
  rw [hsize, haligned.numBits_eq]
  omega

section

variable (hholds : Holds bm words active used)

include hholds

theorem Holds.blocks_ne : bm.blocks ≠ [] := by
  rw [hholds.laid.blocks_eq]
  simp

/-- The used part of the last block, which is zero if the block is full. -/
theorem Holds.mod_eq : bm.numBits % width = used % 64 := by
  have hwidth : width = 64 := rfl
  rw [hholds.numBits_eq, hwidth]
  omega

/-- More bits are put into the last block. -/
theorem Holds.extend {more : Block} (hle : used + n ≤ 64) (hmore : Unused more n) :
    Holds ((bm.setBack (bm.back ||| (more <<< used))).addSize n) words
      (active ||| (more <<< used)) (used + n) := by
  refine ⟨?_, hle, hholds.unused.or_shiftLeft hmore, ?_, ?_⟩
  · have hpos := hholds.used_pos
    omega
  · rw [hholds.laid.back_eq]
    exact (hholds.laid.setBack _).addSize n
  · have hsize : ((bm.setBack (bm.back ||| (more <<< used))).addSize n).numBits =
        (bm.numBits + n) % 2 ^ 64 := rfl
    rw [hsize, hholds.numBits_eq]
    omega

theorem Holds.bits_extend (more : Block) (hle : used + n ≤ 64) :
    Word.bits (active ||| (more <<< used)) (used + n) = Word.bits active used ++ Word.bits more n :=
  bits_or_shiftLeft hholds.unused hle

/-- Zeros need not be written. -/
theorem Holds.write_eq (bit : Bool) (block : Block) :
    (if bit then bm.setBack (bm.back ||| (block <<< used)) else bm) =
      bm.setBack (bm.back ||| ((if bit then block else Word.none) <<< used)) := by
  cases bit
  · have hzero : Word.none <<< used = 0#64 := BitVec.zero_shiftLeft used
    have hblocks := hholds.laid.blocks_eq
    rw [if_neg Bool.false_ne_true, if_neg Bool.false_ne_true, hholds.laid.back_eq, hzero,
      BitVec.or_zero]
    obtain ⟨blocks, lastMarker, numBits⟩ := bm
    subst hblocks
    rw [setBack, dropLast_concat]
  · rfl

end

/-! ## Appending -/

theorem Stores.of_push (haligned : Aligned bm words) (hpos : 0 < n) (hle : n ≤ 64)
    (hunused : Unused block n) :
    Stores ((bm.pushBack block).addSize n) (wordBits words ++ Word.bits block n) :=
  ⟨words, block, n, haligned.push hpos hle hunused, rfl⟩

theorem bits_fill (bit : Bool) (hle : n ≤ 64) :
    Word.bits (if bit then lsbFill n else Word.none) n = replicate n bit := by
  cases bit
  · exact bits_none
  · exact bits_lsbFill hle

theorem unused_fill (bit : Bool) (hle : n ≤ 64) :
    Unused (if bit then lsbFill n else none) n := by
  cases bit
  · exact unused_none
  · exact unused_lsbFill hle

/-- The bitmap ends with a block for the next bit. -/
theorem Stores.appendBit_aligned (haligned : Aligned bm words) (bit : Bool) :
    Stores ((if bit then (bm.pushBack none).setBack
        ((bm.pushBack none).back ||| (lsb1 <<< 0)) else bm.pushBack none).addSize 1)
      (wordBits words ++ [bit]) := by
  have hblock : (if bit then (bm.pushBack none).setBack
      ((bm.pushBack none).back ||| (lsb1 <<< 0)) else bm.pushBack none) =
      bm.pushBack (if bit then lsbFill 1 else none) := by
    cases bit
    · rfl
    · have hfill : Word.none ||| lsb1 = lsbFill 1 := by decide
      simp [setBack, pushBack, back, hfill]
  rw [hblock, show [bit] = replicate 1 bit from rfl, ← bits_fill bit (by decide : 1 ≤ 64)]
  exact Stores.of_push haligned (by decide) (by decide) (unused_fill bit (by decide))

theorem Represents.appendBit (hrep : Represents bm bits) (bit : Bool) :
    Stores (bm.appendBit bit) (bits ++ [bit]) := by
  rcases hrep with ⟨rfl, rfl⟩ | ⟨words, active, used, hholds, rfl⟩
  · exact Stores.appendBit_aligned aligned_start bit
  · have hmod := hholds.mod_eq
    simp only [appendBit, if_neg hholds.blocks_ne, hmod]
    by_cases hfull : used = 64
    · subst hfull
      rw [← wordBits_concat]
      exact Stores.appendBit_aligned hholds.integrate bit
    · have hlt : used < 64 := lt_of_le_of_ne hholds.used_le hfull
      have hpos := hholds.used_pos
      have hwrite : (if bit then bm.setBack (bm.back ||| (lsb1 <<< used)) else bm) = _ :=
        hholds.write_eq bit (lsbFill 1)
      rw [mod_eq_of_lt hlt, if_neg (ne_of_gt hpos), hwrite]
      refine ⟨words, _, used + 1, hholds.extend hlt (unused_fill bit (by decide)), ?_⟩
      rw [hholds.bits_extend _ hlt, bits_fill bit (by decide), append_assoc]
      rfl

/-- Equal bits at a block boundary. -/
theorem Stores.appendAligned (haligned : Aligned bm words) (bit : Bool) (hn : 0 < n) :
    Stores (bm.appendAligned bit n) (wordBits words ++ replicate n bit) := by
  have hwidth : width = 64 := rfl
  rw [EwahBitmap.appendAligned]
  split
  next hle =>
    rw [← bits_fill bit hle]
    exact Stores.of_push haligned hn hle (unused_fill bit hle)
  next hgt =>
    -- There are clean blocks, and at least one bit stays behind.
    obtain ⟨count, rest, hsplit, hcount, hpos, hle, heq⟩ : ∃ count rest,
        (if n % width = 0 then (n / width - 1, width) else (n / width, n % width)) =
          (count, rest) ∧ 0 < count ∧ 0 < rest ∧ rest ≤ 64 ∧ n = count * 64 + rest := by
      by_cases hzero : n % 64 = 0
      · exact ⟨n / 64 - 1, 64, if_pos hzero, by omega, by omega, by omega, by omega⟩
      · exact ⟨n / 64, n % 64, if_neg hzero, by omega, by omega, by omega, by omega⟩
    rw [hsplit]
    dsimp only
    rw [if_pos hpos]
    have hlaid := (haligned.laid.addSize n).appendCleanBlocks bit hcount
    rw [← compress_append] at hlaid
    refine ⟨words ++ replicate count (coding.clean bit),
      if bit then lsbFill rest else none, rest, ?_, ?_⟩
    · refine ⟨hpos, hle, unused_fill bit hle, hlaid.pushBack _, ?_⟩
      have hsize : (((bm.addSize n).appendCleanBlocks bit count).pushBack
          (if bit then lsbFill rest else none)).numBits = (bm.numBits + n) % 2 ^ 64 :=
        numBits_appendCleanBlocks (bm.addSize n) bit count
      rw [hsize, haligned.numBits_eq, length_append, length_replicate]
      omega
    · rw [wordBits_append, wordBits_clean, bits_fill bit hle, append_assoc,
        replicate_append_replicate, heq]

theorem Represents.appendBits (hrep : Represents bm bits) (bit : Bool) (n : Nat) :
    Represents (bm.appendBits bit n) (bits ++ replicate n bit) := by
  have hwidth : width = 64 := rfl
  rcases Nat.eq_zero_or_pos n with rfl | hn
  · rw [replicate_zero, append_nil]
    exact hrep
  · right
    rw [EwahBitmap.appendBits, if_neg (ne_of_gt hn)]
    rcases hrep with ⟨rfl, rfl⟩ | ⟨words, active, used, hholds, rfl⟩
    · exact Stores.appendAligned aligned_start bit hn
    · have hle := hholds.used_le
      have hused := hholds.used_pos
      have hmod := hholds.mod_eq
      simp only [if_neg hholds.blocks_ne, hmod]
      by_cases hfull : used = 64
      · subst hfull
        rw [← wordBits_concat]
        exact Stores.appendAligned hholds.integrate bit hn
      · have hlt : used < 64 := lt_of_le_of_ne hle hfull
        rw [mod_eq_of_lt hlt, if_pos hused]
        generalize hfill : min n (width - used) = fill
        have hsum : used + fill ≤ 64 := by omega
        have hfill_le : fill ≤ 64 := by omega
        have hextended := hholds.extend hsum (unused_fill bit hfill_le)
        have hcontents := hholds.bits_extend (if bit then lsbFill fill else Word.none) hsum
        rw [bits_fill bit hfill_le] at hcontents
        rw [lsbMask_eq hfill_le, hholds.write_eq]
        split
        next hdone =>
          have heq : fill = n := by omega
          subst heq
          exact ⟨words, _, used + fill, hextended, by rw [hcontents, append_assoc]⟩
        next hrest =>
          have heq : used + fill = 64 := by omega
          rw [heq] at hextended hcontents
          have hsplit : replicate n bit =
              replicate fill bit ++ replicate (n - fill) bit := by
            rw [replicate_append_replicate, Nat.add_sub_cancel' (by omega)]
          rw [hsplit, append_assoc, ← append_assoc _ (replicate fill bit),
            ← hcontents, ← append_assoc, ← wordBits_concat]
          exact Stores.appendAligned hextended.integrate bit (by omega)

theorem bits_take (value : Block) (hle : n ≤ 64) :
    Unused (value &&& lsbFill n) n ∧ Word.bits (value &&& lsbFill n) n = Word.bits value n :=
  ⟨Unused.and_left (unused_lsbFill hle), bits_and_lsbFill hle⟩

theorem Represents.appendBlock (hrep : Represents bm bits) (value : Block) (hpos : 0 < n)
    (hle : n ≤ 64) : Stores (bm.appendBlock value n) (bits ++ Word.bits value n) := by
  have hwidth : width = 64 := rfl
  rcases hrep with ⟨rfl, rfl⟩ | ⟨words, active, used, hholds, rfl⟩
  · obtain ⟨hunused, hbits⟩ := bits_take value hle
    rw [← hbits]
    exact Stores.of_push aligned_start hpos hle hunused
  · have hused := hholds.used_pos
    have hused_le := hholds.used_le
    have hmod := hholds.mod_eq
    simp only [appendBlock, if_neg hholds.blocks_ne, hmod]
    by_cases hfull : used = 64
    · subst hfull
      obtain ⟨hunused, hbits⟩ := bits_take value hle
      have hzero : bm.integrateLastBlock.numBits % width = 0 := by
        rw [numBits_integrateLastBlock, hmod]
      rw [if_pos rfl, if_pos hzero, ← wordBits_concat, ← hbits]
      exact Stores.of_push hholds.integrate hpos hle hunused
    · have hlt : used < 64 := lt_of_le_of_ne hused_le hfull
      rw [mod_eq_of_lt hlt, if_neg (ne_of_gt hused), hmod, mod_eq_of_lt hlt,
        if_neg (ne_of_gt hused)]
      split
      next hfits =>
        obtain ⟨hunused, hbits⟩ := bits_take value hle
        have hsum : used + n ≤ 64 := by omega
        refine ⟨words, _, used + n, hholds.extend hsum hunused, ?_⟩
        rw [hholds.bits_extend _ hsum, hbits, append_assoc]
      next hsplit =>
        -- The first bits finish the last block, and the others start a new one.
        generalize hrest : width - used = rest at hsplit ⊢
        have hsum : used + rest = 64 := by omega
        obtain ⟨hunused, hbits⟩ := bits_take value (show rest ≤ 64 by omega)
        obtain ⟨hunused', hbits'⟩ := bits_take (value >>> rest) (show n - rest ≤ 64 by omega)
        have hextended := hholds.extend (le_of_eq hsum) hunused
        rw [hsum] at hextended
        have hcontents := hholds.bits_extend (value &&& lsbFill rest) (le_of_eq hsum)
        rw [hsum, hbits] at hcontents
        rw [bits_split value (Nat.le_of_not_le hsplit), ← append_assoc,
          append_assoc (wordBits words), ← hcontents, ← wordBits_concat, ← hbits']
        exact Stores.of_push hextended.integrate (by omega) (by omega) hunused'

/-- EWAH bitmaps as results of operations on ranges. -/
def resultType : ResultType EwahBitmap where
  empty := empty
  appendBits := appendBits
  appendBlock := appendBlock
  size := numBits
  Represents := Represents
  represents_empty := Or.inl ⟨rfl, rfl⟩
  represents_appendBits hrep bit n := hrep.appendBits bit n
  represents_appendBlock hrep block _ hpos hle := Or.inr (hrep.appendBlock block hpos hle)
  size_eq := by
    rintro bm bits (⟨rfl, rfl⟩ | ⟨words, active, used, hholds, rfl⟩)
    · rfl
    · rw [hholds.numBits_eq, length_append, length_wordBits, length_bits]

theorem Represents.append (hrep : Represents bm bits) (other : EwahBitmap) :
    Represents (bm.append other) (bits ++ other.bitRange.flatMap Bits.toList) :=
  resultType.represents_foldl_append hrep other.bitRange

end EwahBitmap

end Vast
