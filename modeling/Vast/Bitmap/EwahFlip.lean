import Vast.Bitmap.EwahContents

/-! # Complements of EWAH bitmaps

The loop of `flip` passes over all blocks but the last one and keeps track of the next
marker. It complements the segments one by one. Its counter has 32 bits, so the loop does
not end if there are more blocks than that.
-/

namespace Vast

open Foundation Word EwahWord List Segments Nat

namespace EwahBitmap

/-- What the loop does to a list of blocks, given the distance of the next marker. -/
def flipBlocks : Nat → List Block → List Block
  | _, [] => []
  | 0, block :: blocks =>
    let flipped := if markerNumClean block > 0 then block ^^^ msb1 else block
    flipped :: flipBlocks (markerNumDirty flipped) blocks
  | distance + 1, block :: blocks => ~~~block :: flipBlocks distance blocks

/-! ## The loop -/

variable {before : List Block} {i : UInt32}

theorem flipBlock_eq (hi : i.toNat = before.length) (block : Block) (after : List Block)
    (distance : Nat) : flipBlock (before ++ block :: after) i (before.length + distance) =
      match distance with
      | 0 =>
        let flipped := if markerNumClean block > 0 then block ^^^ msb1 else block
        (before ++ flipped :: after, before.length + markerNumDirty flipped + 1)
      | distance + 1 => (before ++ ~~~block :: after, before.length + (distance + 1)) := by
  have hget : (before ++ block :: after).getD before.length 0#64 = block := by
    rw [getD_eq_getElem?_getD, getElem?_append_right (Nat.le_refl _), Nat.sub_self]
    rfl
  have hset : ∀ other, (before ++ block :: after).set before.length other =
      before ++ other :: after := by
    intro other
    rw [set_append_right _ _ (Nat.le_refl _), Nat.sub_self]
    rfl
  cases distance with
  | zero => simp only [flipBlock, hi, hget, hset, Nat.add_zero, if_true]
  | succ distance =>
    have hne : before.length ≠ before.length + (distance + 1) := by omega
    simp only [flipBlock, hi, hget, hset, hne, if_false]

/-- The loop ends if the counter does not overflow. -/
theorem flipLoop_eq {last : Block} (middle : List Block) (hi : i.toNat = before.length)
    (hlength : before.length + middle.length < 2 ^ 32) {fuel : Nat} (hfuel : middle.length < fuel)
    (distance : Nat) : flipLoop fuel (before ++ middle ++ [last]) i (before.length + distance) =
      some (before ++ flipBlocks distance middle ++ [last]) := by
  induction middle generalizing before i fuel distance with
  | nil =>
    obtain ⟨fuel, rfl⟩ : ∃ n, fuel = n + 1 := ⟨fuel - 1, by omega⟩
    have hdone : ¬ i.toNat < (before ++ [] ++ [last]).length - 1 := by
      simp [hi]
    rw [flipLoop, if_neg hdone]
    cases distance <;> rfl
  | cons block middle ih =>
    obtain ⟨fuel, rfl⟩ : ∃ n, fuel = n + 1 := ⟨fuel - 1, by simp at hfuel; omega⟩
    rw [length_cons] at hlength hfuel
    have hmore : i.toNat < (before ++ block :: middle ++ [last]).length - 1 := by
      simp [hi]
    have hnext : (i + 1).toNat = before.length + 1 := by
      rw [UInt32.toNat_add, hi, UInt32.toNat_one]
      exact mod_eq_of_lt (by omega)
    rw [flipLoop, if_pos hmore, append_assoc, cons_append,
      flipBlock_eq hi block (middle ++ [last]) distance]
    -- The block is moved to the front part.
    have hstep : ∀ (other : Block) (distance : Nat),
        flipLoop fuel (before ++ other :: (middle ++ [last])) (i + 1)
          (before.length + (distance + 1)) =
        some (before ++ other :: flipBlocks distance middle ++ [last]) := by
      intro other distance
      have hlength' : (before ++ [other]).length = before.length + 1 := by simp
      have hfuel' : middle.length < fuel := by omega
      have hrest := ih (hnext.trans hlength'.symm) (by omega) hfuel' distance
      rw [hlength', Nat.add_right_comm, Nat.add_assoc] at hrest
      simpa using hrest
    cases distance with
    | zero =>
      dsimp only
      rw [Nat.add_assoc, hstep]
      rfl
    | succ distance =>
      dsimp only
      rw [hstep]
      rfl

theorem flipLoop_start {middle : List Block} (hlength : middle.length < 2 ^ 32) (last : Block) :
    flipLoop (middle ++ [last]).length (middle ++ [last]) 0 0 =
      some (flipBlocks 0 middle ++ [last]) := by
  have hzero : (0 : UInt32).toNat = ([] : List Block).length := rfl
  exact flipLoop_eq middle hzero (by simpa using hlength) (by simp) 0

theorem length_flipBlock (blocks : List Block) (i : UInt32) (nextMarker : Nat) :
    (flipBlock blocks i nextMarker).1.length = blocks.length := by
  simp only [flipBlock]
  split <;> simp

/-- The loop does not end if the counter overflows. -/
theorem flipLoop_eq_none {blocks : List Block} (hlen : 2 ^ 32 < blocks.length) (fuel : Nat)
    (i : UInt32) (nextMarker : Nat) : flipLoop fuel blocks i nextMarker = Option.none := by
  induction fuel generalizing blocks i nextMarker with
  | zero => rfl
  | succ fuel ih =>
    have hmore : i.toNat < blocks.length - 1 := by
      have hlt := i.toNat_lt
      omega
    have hnext : 2 ^ 32 < (flipBlock blocks i nextMarker).1.length := by
      rw [length_flipBlock]
      exact hlen
    rw [flipLoop, if_pos hmore]
    exact ih hnext (i + 1) (flipBlock blocks i nextMarker).2

/-! ## Segments -/

theorem flipBlocks_literals (literals rest : List Block) :
    flipBlocks literals.length (literals ++ rest) = literals.map (~~~·) ++ flipBlocks 0 rest := by
  induction literals with
  | nil => rfl
  | cons literal literals ih =>
    rw [length_cons, cons_append, flipBlocks, ih, map_cons, cons_append]

theorem flipBlocks_encode {segment : Segment Block} (hbounded : segment.Bounded coding)
    (rest : List Block) : flipBlocks 0 (encode segment ++ rest) =
      encode (flipSegment (~~~·) segment) ++ flipBlocks 0 rest := by
  have hflipped : (if segment.run > 0 then
      marker segment.bit segment.run segment.literals.length ^^^ msb1
      else marker segment.bit segment.run segment.literals.length) =
      marker (if segment.run = 0 then segment.bit else !segment.bit) segment.run
        segment.literals.length := by
    by_cases hzero : segment.run = 0
    · rw [if_neg (by omega), if_pos hzero]
    · rw [if_pos (Nat.pos_of_ne_zero hzero), if_neg hzero, marker_xor_msb1]
  rw [encode, cons_append, flipBlocks, markerNumClean_marker hbounded.run_le, hflipped,
    markerNumDirty_marker hbounded.literals_le, flipBlocks_literals]
  simp [encode, flipSegment]

theorem flipBlocks_segments {segments : List (Segment Block)}
    (hbounded : ∀ segment ∈ segments, segment.Bounded coding) :
    flipBlocks 0 (segments.flatMap encode) =
      (segments.map (flipSegment (~~~·))).flatMap encode := by
  induction segments with
  | nil => rfl
  | cons segment segments ih =>
    obtain ⟨hfirst, hrest⟩ := forall_mem_cons.mp hbounded
    rw [flatMap_cons, flipBlocks_encode hfirst, ih hrest, map_cons, flatMap_cons]

theorem kind_not (word : Block) : coding.kind (~~~word) = (coding.kind word).map (!·) := by
  cases hkind : coding.kind word with
  | none =>
    rw [Option.map_none, Option.eq_none_iff_forall_ne_some]
    intro bit hflipped
    have hword : word = coding.clean (!bit) := by
      rw [← BitVec.not_not (b := word), coding.kind_eq_some.mp hflipped]
      cases bit <;> decide
    rw [coding.kind_eq_some.mpr hword] at hkind
    cases hkind
  | some bit =>
    rw [coding.kind_eq_some.mp hkind]
    cases bit <;> decide

/-! ## The bitmap -/

variable {bm : EwahBitmap} {words : List Block} {active : Block} {used : Nat} {bits : List Bool}

theorem wordBits_not (words : List Block) :
    wordBits (words.map (~~~·)) = (wordBits words).map (!·) := by
  induction words with
  | nil => rfl
  | cons word words ih =>
    simp only [wordBits, map_cons, flatMap_cons, map_append] at ih ⊢
    rw [ih, bits_not (le_refl 64)]

theorem Holds.flipLoop_eq (hholds : Holds bm words active used) (hlen : bm.blocks.length ≤ 2 ^ 32) :
    flipLoop bm.blocks.length bm.blocks 0 0 =
      some (layout (compress coding (words.map (~~~·))) ++ [active]) := by
  rw [hholds.laid.blocks_eq] at hlen ⊢
  have hlt : (layout (compress coding words)).length < 2 ^ 32 := by
    rw [length_append, length_singleton] at hlen
    omega
  have hflipped : flipBlocks 0 (layout (compress coding words)) =
      layout (compress coding (words.map (~~~·))) := by
    rw [← flip_compress kind_not, layout, flipBlocks_segments hholds.laid.proper.bounded]
    simp [layout, Segments.toList, Segments.flip]
  rw [flipLoop_start hlt, hflipped]

theorem position_flip (words : List Block) : position (compress coding (words.map (~~~·))) =
      position (compress coding words) := by
  have hencode : ∀ segment : Segment Block,
      (encode (flipSegment (~~~·) segment)).length = (encode segment).length := by
    simp [encode, flipSegment]
  rw [← flip_compress kind_not, position, position, Segments.flip, flatMap_map]
  simp [hencode]

/-- The last block is complemented without its unused bits. -/
theorem Holds.flipBack (hholds : Holds bm words active used) :
    ∃ active', Holds bm.flipBack words active' used ∧
      Word.bits active' used = (Word.bits active used).map (!·) := by
  have hpos := hholds.used_pos
  have hle := hholds.used_le
  have hmod : (bm.setBack (~~~active)).numBits % width = used % 64 := hholds.mod_eq
  have hback := hholds.laid.back_eq
  have hlaid := hholds.laid.setBack (~~~active)
  simp only [EwahBitmap.flipBack, hback, hmod]
  by_cases hfull : used = 64
  · subst hfull
    exact ⟨~~~active, ⟨hpos, hle, unused_full, hlaid, hholds.numBits_eq⟩, bits_not hle⟩
  · have hlt : used < 64 := lt_of_le_of_ne hle hfull
    obtain ⟨hunused, hbits⟩ := bits_take (~~~active) hle
    rw [mod_eq_of_lt hlt, if_pos hpos, hlaid.back_eq, lsbMask_eq hle]
    refine ⟨_, ⟨hpos, hle, hunused, hlaid.setBack _, hholds.numBits_eq⟩, ?_⟩
    rw [hbits, bits_not hle]

/-- The complement of a bitmap that has not too many blocks. -/
theorem Stores.flip (hstores : Stores bm bits) (hlen : bm.blocks.length ≤ 2 ^ 32) :
    ∃ flipped, bm.flip = some flipped ∧ Stores flipped (bits.map (!·)) := by
  obtain ⟨words, active, used, hholds, rfl⟩ := hstores
  have hflipped : Holds { bm with
      blocks := layout (compress coding (words.map (~~~·))) ++ [active] }
      (words.map (~~~·)) active used := by
    refine ⟨hholds.used_pos, hholds.used_le, hholds.unused, ⟨proper_compress _, rfl, ?_⟩, ?_⟩
    · rw [position_flip]
      exact hholds.laid.lastMarker_eq
    · rw [length_map]
      exact hholds.numBits_eq
  obtain ⟨active', hback, hbits⟩ := hflipped.flipBack
  refine ⟨_, ?_, words.map (~~~·), active', used, hback, ?_⟩
  · rw [flip, if_neg hholds.blocks_ne, hholds.flipLoop_eq hlen]
    rfl
  · rw [map_append, wordBits_not, hbits]

theorem Represents.flip (hrep : Represents bm bits) (hlen : bm.blocks.length ≤ 2 ^ 32) :
    ∃ flipped, bm.flip = some flipped ∧ Represents flipped (bits.map (!·)) := by
  rcases hrep with ⟨rfl, rfl⟩ | hstores
  · exact ⟨empty, rfl, Or.inl ⟨rfl, rfl⟩⟩
  · obtain ⟨flipped, hflip, hflipped⟩ := hstores.flip hlen
    exact ⟨flipped, hflip, Or.inr hflipped⟩

/-- The complement of a bitmap with too many blocks is never computed. -/
theorem flip_eq_none (hlen : 2 ^ 32 < bm.blocks.length) : bm.flip = Option.none := by
  have hne : bm.blocks ≠ [] := by
    intro hnil
    rw [hnil] at hlen
    exact absurd hlen (by decide)
  rw [flip, if_neg hne, flipLoop_eq_none hlen]
  rfl

end EwahBitmap

end Vast
