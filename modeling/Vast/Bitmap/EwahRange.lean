import Vast.Bitmap.EwahContents
import Vast.Foundation.Chunks

/-! # The range of an EWAH bitmap

The range yields the literals and the longest runs of the words, and the used part of the
last block. The length of a run is a machine word, so a run that is too long is cut. The
sequences are the bits of the bitmap if and only if there is no such run.
-/

namespace Vast

open Foundation Word EwahWord List Segments Chunk

namespace EwahBitmap

def chunkBits : Chunk Block → Bits
  | .run bit count => Bits.make (coding.clean bit) (count * 64 % 2 ^ 64)
  | .literal word => Bits.make word 64

def usedBits (size : Nat) : Nat :=
  if size % width = 0 then width else size % width

/-! ## Scanning -/

section Scan

variable {size fuel : Nat} {active : Block} {segments : List (Segment Block)}
  {literals : List Block} {blocks : List Block} {block : Block}

theorem scanAll_literal (numDirty : Nat) (literal : Block) (hblocks : blocks ≠ []) :
    scanAll size (fuel + 1) (numDirty + 1) (literal :: blocks) =
      Bits.make literal 64 :: scanAll size fuel numDirty blocks := by
  obtain ⟨next, blocks, rfl⟩ := exists_cons_of_ne_nil hblocks
  rfl

theorem scanAll_skip (hclean : markerNumClean block = 0) (hblocks : blocks ≠ []) :
    scanAll size (fuel + 1) 0 (block :: blocks) =
      scanAll size (fuel + 1) (markerNumDirty block) blocks := by
  obtain ⟨next, blocks, rfl⟩ := exists_cons_of_ne_nil hblocks
  rw [scanAll, scan, if_pos hclean, scanAll]

theorem scanAll_run (hclean : markerNumClean block ≠ 0) (hblocks : blocks ≠ []) :
    scanAll size (fuel + 1) 0 (block :: blocks) =
      let merged := mergeMarkers (markerType block) (markerNumClean block * 64)
        (markerNumDirty block) blocks
      Bits.make (coding.clean (markerType block)) merged.1 ::
        scanAll size fuel merged.2.1 merged.2.2 := by
  obtain ⟨next, blocks, rfl⟩ := exists_cons_of_ne_nil hblocks
  rw [scanAll, scan, if_neg hclean]
  rfl

theorem mergeMarkers_next (data : Bool) (length : Nat) (hblocks : blocks ≠ []) :
    mergeMarkers data length 0 (block :: blocks) =
      if markerType block != data then (length, 0, block :: blocks)
      else
        mergeMarkers data ((length + markerNumClean block * 64) % 2 ^ 64) (markerNumDirty block)
          blocks := by
  obtain ⟨next, blocks, rfl⟩ := exists_cons_of_ne_nil hblocks
  rfl

end Scan

/-! ## Segments -/

section Segments

variable (size : Nat) (active : Block) (segments : List (Segment Block)) {segment : Segment Block}

def blocksFrom : List Block :=
  segments.flatMap encode ++ [active]

def sequences (chunks : List (Chunk Block)) : List Bits :=
  chunks.map chunkBits ++ [Bits.make active (usedBits size)]

/-- At a marker the range yields the chunks of the words that are left. -/
def Scans : Prop :=
  ∀ fuel, (blocksFrom active segments).length ≤ fuel →
    scanAll size fuel 0 (blocksFrom active segments) =
      sequences size active (Chunk.split coding (segments.flatMap (Segment.words coding)))

/-- Behind a run and its literals the range joins the next runs and goes on. -/
def Merges : Prop :=
  ∀ (bit : Bool) (count : Nat) (literals : List Block) (fuel : Nat),
    (∀ word ∈ literals, coding.kind word = Option.none) →
    (literals ++ blocksFrom active segments).length ≤ fuel →
    let merged := mergeMarkers bit (count * 64 % 2 ^ 64) literals.length
      (literals ++ blocksFrom active segments)
    Bits.make (coding.clean bit) merged.1 :: scanAll size fuel merged.2.1 merged.2.2 =
      sequences size active (Chunk.pushRun bit count
        (Chunk.split coding (literals ++ segments.flatMap (Segment.words coding))))

variable {size active segments} {fuel : Nat}

theorem blocksFrom_ne_nil : blocksFrom active segments ≠ [] := by
  simp [blocksFrom]

theorem blocksFrom_cons (segment : Segment Block) : blocksFrom active (segment :: segments) =
      marker segment.bit segment.run segment.literals.length ::
        (segment.literals ++ blocksFrom active segments) := by
  simp [blocksFrom, encode]

theorem scans_nil : Scans size active [] := by
  intro fuel hfuel
  obtain ⟨fuel, rfl⟩ : ∃ n, fuel = n + 1 := ⟨fuel - 1, by simp [blocksFrom] at hfuel; omega⟩
  cases fuel <;> rfl

theorem Scans.literals (hscans : Scans size active segments) (literals : List Block)
    (hlits : ∀ word ∈ literals, coding.kind word = Option.none)
    (hfuel : (literals ++ blocksFrom active segments).length ≤ fuel) :
    scanAll size fuel literals.length (literals ++ blocksFrom active segments) =
      sequences size active
        (split coding (literals ++ segments.flatMap (Segment.words coding))) := by
  induction literals generalizing fuel with
  | nil => exact hscans fuel hfuel
  | cons literal literals ih =>
    obtain ⟨fuel, rfl⟩ : ∃ n, fuel = n + 1 := ⟨fuel - 1, by simp at hfuel; omega⟩
    have hrest : literals ++ blocksFrom active segments ≠ [] :=
      append_ne_nil_of_right_ne_nil _ blocksFrom_ne_nil
    have hfuel' : (literals ++ blocksFrom active segments).length ≤ fuel :=
      Nat.le_of_succ_le_succ hfuel
    rw [length_cons, cons_append, scanAll_literal _ _ hrest,
      ih (fun word hword => hlits word (mem_cons_of_mem _ hword)) hfuel',
      cons_append, split_literal (hlits literal mem_cons_self)]
    rfl

/-- A segment is read as a run that is joined with the next ones, or only as literals. -/
theorem Scans.cons (hscans : Scans size active segments) (hmerges : Merges size active segments)
    (hbounded : segment.Bounded coding) : Scans size active (segment :: segments) := by
  intro fuel hfuel
  obtain ⟨fuel, rfl⟩ : ∃ n, fuel = n + 1 := ⟨fuel - 1, by simp [blocksFrom] at hfuel; omega⟩
  have hclean : markerNumClean (marker segment.bit segment.run segment.literals.length) =
      segment.run := markerNumClean_marker hbounded.run_le
  have hdirty : markerNumDirty (marker segment.bit segment.run segment.literals.length) =
      segment.literals.length := markerNumDirty_marker hbounded.literals_le
  have hrest : segment.literals ++ blocksFrom active segments ≠ [] :=
    append_ne_nil_of_right_ne_nil _ blocksFrom_ne_nil
  rw [blocksFrom_cons] at hfuel
  rw [blocksFrom_cons, flatMap_cons, Segment.words, append_assoc]
  by_cases hzero : segment.run = 0
  · rw [scanAll_skip (hclean.trans hzero) hrest, hdirty, hzero]
    exact hscans.literals _ hbounded.kind_literals (Nat.le_of_succ_le hfuel)
  · have hpos : 0 < segment.run := Nat.pos_of_ne_zero hzero
    have hmod : segment.run * 64 = segment.run * 64 % 2 ^ 64 := by
      have hle : segment.run ≤ markerCleanMax := hbounded.run_le
      rw [markerCleanMax_eq] at hle
      omega
    have hne : markerNumClean (marker segment.bit segment.run segment.literals.length) ≠ 0 := by
      rw [hclean]
      exact hzero
    rw [scanAll_run hne hrest, hclean, hdirty, markerType_marker, split_replicate _ hpos, hmod]
    exact hmerges _ _ _ _ hbounded.kind_literals (Nat.le_of_succ_le_succ hfuel)

theorem Merges.of_literal (hscans : Scans size active segments) (bit : Bool) (count : Nat)
    (literal : Block) (literals : List Block)
    (hlits : ∀ word ∈ literal :: literals, coding.kind word = Option.none)
    (hfuel : (literal :: literals ++ blocksFrom active segments).length ≤ fuel) :
    let merged := mergeMarkers bit (count * 64 % 2 ^ 64) (literal :: literals).length
      (literal :: literals ++ blocksFrom active segments)
    Bits.make (coding.clean bit) merged.1 :: scanAll size fuel merged.2.1 merged.2.2 =
      sequences size active (pushRun bit count
        (split coding (literal :: literals ++ segments.flatMap (Segment.words coding)))) := by
  have hrest := hscans.literals _ hlits hfuel
  simp only [length_cons, mergeMarkers]
  rw [length_cons] at hrest
  rw [hrest, cons_append, split_literal (hlits literal mem_cons_self)]
  rfl

theorem merges_nil : Merges size active [] := by
  intro bit count literals fuel hlits hfuel
  cases literals with
  | nil =>
    have hlast : scanAll size fuel 0 (blocksFrom active []) = _ := scans_nil fuel hfuel
    have hblocks : blocksFrom active [] = [active] := rfl
    rw [hblocks] at hlast
    rw [length_nil, nil_append, hblocks]
    simp only [mergeMarkers]
    rw [hlast]
    rfl
  | cons literal literals =>
    exact Merges.of_literal scans_nil bit count literal literals hlits hfuel

/-- Words of another kind end a run. -/
theorem pushRun_split {bit : Bool} (hbounded : segment.Bounded coding)
    (hnonempty : segment.run ≠ 0 ∨ segment.literals ≠ []) (hbit : segment.bit ≠ bit) (count : Nat)
    (words : List Block) : pushRun bit count (split coding (segment.words coding ++ words)) =
      .run bit count :: split coding (segment.words coding ++ words) := by
  rw [Segment.words, append_assoc]
  by_cases hzero : segment.run = 0
  · obtain ⟨literal, literals, hlits⟩ :=
      exists_cons_of_ne_nil (hnonempty.resolve_left (not_not_intro hzero))
    have hkind : coding.kind literal = Option.none :=
      hbounded.kind_literals literal (hlits ▸ mem_cons_self)
    rw [hzero, hlits, replicate_zero, nil_append, cons_append, split_literal hkind]
    rfl
  · rw [split_replicate _ (Nat.pos_of_ne_zero hzero), pushRun_pushRun_of_ne hbit]

theorem Merges.cons (hscans : Scans size active segments) (hmerges : Merges size active segments)
    (hbounded : segment.Bounded coding) (hnonempty : segment.run ≠ 0 ∨ segment.literals ≠ []) :
    Merges size active (segment :: segments) := by
  intro bit count literals fuel hlits hfuel
  have hnext : Scans size active (segment :: segments) := hscans.cons hmerges hbounded
  cases literals with
  | nil =>
    have hrest : segment.literals ++ blocksFrom active segments ≠ [] :=
      append_ne_nil_of_right_ne_nil _ blocksFrom_ne_nil
    have hall := hnext fuel hfuel
    rw [length_nil, nil_append, nil_append]
    rw [blocksFrom_cons] at hall hfuel ⊢
    rw [mergeMarkers_next _ _ hrest, markerType_marker]
    by_cases hbit : segment.bit = bit
    · have hmod : (count * 64 % 2 ^ 64 + segment.run * 64) % 2 ^ 64 =
          (count + segment.run) * 64 % 2 ^ 64 := by omega
      rw [if_neg (by simp [hbit]), markerNumClean_marker hbounded.run_le,
        markerNumDirty_marker hbounded.literals_le, hmod]
      rw [flatMap_cons, Segment.words, hbit, append_assoc, pushRun_split_replicate]
      exact hmerges bit (count + segment.run) segment.literals fuel hbounded.kind_literals
        (Nat.le_of_succ_le hfuel)
    · rw [if_pos (by simp [hbit])]
      dsimp only
      rw [hall, flatMap_cons, pushRun_split hbounded hnonempty hbit]
      rfl
  | cons literal literals =>
    exact Merges.of_literal hnext bit count literal literals hlits hfuel

theorem scans_segments (hbounded : ∀ segment ∈ segments, segment.Bounded coding)
    (hnonempty : ∀ segment ∈ segments, segment.run ≠ 0 ∨ segment.literals ≠ []) :
    Scans size active segments ∧ Merges size active segments := by
  induction segments with
  | nil => exact ⟨scans_nil, merges_nil⟩
  | cons segment segments ih =>
    obtain ⟨hscans, hmerges⟩ := ih
      (fun next hnext => hbounded next (mem_cons_of_mem _ hnext))
      (fun next hnext => hnonempty next (mem_cons_of_mem _ hnext))
    have hsegment := hbounded segment mem_cons_self
    exact ⟨hscans.cons hmerges hsegment,
      Merges.cons hscans hmerges hsegment (hnonempty segment mem_cons_self)⟩

/-- Only the first segment may have no words. -/
theorem scans_proper {segments : Segments Block} (hproper : segments.Proper coding) :
    Scans size active segments.toList := by
  obtain ⟨first, rest, hlist⟩ : ∃ first rest, segments.toList = first :: rest :=
    exists_cons_of_ne_nil (by simp [toList])
  have hbounded := hproper.bounded
  have hnonempty := hproper.nonempty
  rw [hlist] at hbounded hnonempty ⊢
  obtain ⟨hscans, hmerges⟩ := scans_segments
    (fun next hnext => hbounded next (mem_cons_of_mem _ hnext)) hnonempty
  exact hscans.cons hmerges (hbounded first mem_cons_self)

end Segments

theorem flatMap_words_compress (words : List Block) :
    (compress coding words).toList.flatMap (Segment.words coding) = words :=
  words_compress words

section Range

variable {bm : EwahBitmap} {words : List Block} {active : Block} {used : Nat}

variable (hholds : Holds bm words active used)

include hholds

theorem Holds.blocks_eq : bm.blocks = blocksFrom active (compress coding words).toList :=
  hholds.laid.blocks_eq

theorem Holds.usedBits_eq : usedBits bm.numBits = used := by
  have hwidth : width = 64 := rfl
  have hpos := hholds.used_pos
  have hle := hholds.used_le
  rw [usedBits, hholds.mod_eq]
  split <;> omega

/-- The sequences of a bitmap. If the number of bits has overflowed to zero, a sequence
without bits comes first. -/
theorem Holds.scanAll_eq : scanAll bm.numBits bm.blocks.length 0 bm.blocks =
      sequences bm.numBits active (split coding words) := by
  rw [hholds.blocks_eq, scans_proper hholds.laid.proper _ (Nat.le_refl _), flatMap_words_compress]

theorem Holds.bitRange_eq (hsize : bm.numBits ≠ 0) :
    bm.bitRange = sequences bm.numBits active (split coding words) := by
  obtain ⟨block, blocks, hblocks⟩ := exists_cons_of_ne_nil hholds.blocks_ne
  have hscan := hholds.scanAll_eq
  rw [hblocks] at hscan
  rw [bitRange, hblocks]
  dsimp only
  rw [if_neg (by simpa [isEmpty] using hsize)]
  exact hscan

theorem Holds.empty_mem_bitRange (hsize : bm.numBits = 0) : Bits.empty ∈ bm.bitRange := by
  obtain ⟨block, blocks, hblocks⟩ := exists_cons_of_ne_nil hholds.blocks_ne
  rw [bitRange, hblocks]
  dsimp only
  rw [if_pos (by simpa [isEmpty] using hsize)]
  exact mem_cons_self

end Range

/-! ## Bits of sequences -/

theorem toList_clean (bit : Bool) (n : Nat) :
    (Bits.make (coding.clean bit) n).toList = replicate n bit :=
  Bits.toList_make_uniform bit n

/-- The bits that a range yields for chunks of words. -/
def yielded (chunks : List (Chunk Block)) : List Bool :=
  (chunks.map chunkBits).flatMap Bits.toList

theorem yielded_cons (chunk : Chunk Block) (chunks : List (Chunk Block)) :
    yielded (chunk :: chunks) = (chunkBits chunk).toList ++ yielded chunks := rfl

theorem wordBits_words_cons (chunk : Chunk Block) (chunks : List (Chunk Block)) :
    wordBits ((chunk :: chunks).flatMap (Chunk.words coding)) =
      wordBits (chunk.words coding) ++ wordBits (chunks.flatMap (Chunk.words coding)) := by
  rw [flatMap_cons, wordBits_append]

theorem toList_chunk {chunk : Chunk Block}
    (hshort : ∀ bit count, chunk = .run bit count → count * 64 < 2 ^ 64) :
    (chunkBits chunk).toList = wordBits (chunk.words coding) := by
  cases chunk with
  | run bit count =>
    rw [chunkBits, toList_clean, Chunk.words, wordBits_clean,
      Nat.mod_eq_of_lt (hshort bit count rfl)]
  | literal word =>
    rw [chunkBits, Bits.toList_make (Nat.le_refl 64), Chunk.words, wordBits, flatMap_singleton]

theorem length_toList_chunk (chunk : Chunk Block) :
    (chunkBits chunk).toList.length ≤ (wordBits (chunk.words coding)).length := by
  cases chunk with
  | run bit count =>
    rw [chunkBits, toList_clean, Chunk.words, wordBits_clean, length_replicate, length_replicate]
    exact Nat.mod_le _ _
  | literal word =>
    exact Nat.le_of_eq (congrArg length (toList_chunk (by simp)))

variable {chunks : List (Chunk Block)} {words : List Block}

/-- No bit is lost if no run is too long. -/
theorem yielded_eq (hshort : ∀ bit count, .run bit count ∈ chunks → count * 64 < 2 ^ 64) :
    yielded chunks = wordBits (chunks.flatMap (Chunk.words coding)) := by
  induction chunks with
  | nil => rfl
  | cons chunk chunks ih =>
    rw [yielded_cons, wordBits_words_cons,
      ih (fun bit count hmem => hshort bit count (mem_cons_of_mem _ hmem)), toList_chunk]
    intro bit count heq
    exact hshort bit count (heq ▸ mem_cons_self)

theorem length_yielded_le (chunks : List (Chunk Block)) :
    (yielded chunks).length ≤ (wordBits (chunks.flatMap (Chunk.words coding))).length := by
  induction chunks with
  | nil => exact Nat.le_refl _
  | cons chunk chunks ih =>
    rw [yielded_cons, wordBits_words_cons, length_append, length_append]
    exact Nat.add_le_add (length_toList_chunk chunk) ih

/-- A run that is too long loses bits. -/
theorem length_yielded_lt {bit : Bool} {count : Nat} (hmem : .run bit count ∈ chunks)
    (hlong : 2 ^ 64 ≤ count * 64) :
    (yielded chunks).length < (wordBits (chunks.flatMap (Chunk.words coding))).length := by
  obtain ⟨front, back, rfl⟩ := append_of_mem hmem
  have hrun : (chunkBits (.run bit count)).toList.length <
      (wordBits (words coding (.run bit count))).length := by
    rw [chunkBits, toList_clean, Chunk.words, wordBits_clean, length_replicate, length_replicate]
    exact Nat.lt_of_lt_of_le (Nat.mod_lt _ (by decide)) hlong
  have hfront := length_yielded_le front
  have hback := length_yielded_le back
  have hyielded : yielded (front ++ .run bit count :: back) =
      yielded front ++ yielded (.run bit count :: back) := by
    rw [yielded, map_append, flatMap_append]
    rfl
  rw [hyielded, flatMap_append, wordBits_append, yielded_cons, wordBits_words_cons]
  simp only [length_append]
  omega

/-! ## Runs of bits -/

/-- There is a run of the given length at a block boundary, and more bits follow. -/
def LongRun (length : Nat) (bits : List Bool) : Prop :=
  ∃ before after bit, 64 ∣ before.length ∧ after ≠ [] ∧
    bits = before ++ (List.replicate length bit ++ after)

theorem wordBits_inj {first second : List Block} (heq : wordBits first = wordBits second) :
    first = second := by
  induction first generalizing second with
  | nil =>
    cases second with
    | nil => rfl
    | cons word second =>
      have hlen := congrArg length heq
      simp [length_wordBits] at hlen
  | cons word first ih =>
    cases second with
    | nil =>
      have hlen := congrArg length heq
      simp [length_wordBits] at hlen
    | cons word' second =>
      have hlen : (bits word 64).length = (bits word' 64).length := by
        rw [length_bits, length_bits]
      obtain ⟨hword, hrest⟩ := append_inj heq hlen
      rw [eq_of_bits_eq unused_full unused_full hword, ih hrest]

theorem exists_words_of_length {tail before after : List Bool} (htail : tail.length ≤ 64)
    (hafter : after ≠ []) (hdvd : 64 ∣ before.length)
    (heq : wordBits words ++ tail = before ++ after) :
    ∃ front back, words = front ++ back ∧ wordBits front = before ∧
      wordBits back ++ tail = after := by
  obtain ⟨count, hcount⟩ := hdvd
  have hlen := congrArg length heq
  have hpos := length_pos_iff.mpr hafter
  rw [length_append, length_append, length_wordBits] at hlen
  have hfront : (wordBits (words.take count)).length = before.length := by
    rw [length_wordBits, length_take]
    omega
  rw [← take_append_drop count words, wordBits_append, append_assoc] at heq
  obtain ⟨hbefore, hrest⟩ := append_inj heq hfront
  exact ⟨words.take count, words.drop count, (take_append_drop count words).symm, hbefore, hrest⟩

variable {tail : List Bool}

theorem longRun_iff (hpos : tail ≠ []) (hle : tail.length ≤ 64) (count : Nat) :
    LongRun (count * 64) (wordBits words ++ tail) ↔ ∃ before after bit,
        words = before ++ (replicate count (coding.clean bit) ++ after) := by
  constructor
  · intro hrun
    obtain ⟨before, after, bit, hdvd, hafter, heq⟩ := hrun
    have hne : replicate (count * 64) bit ++ after ≠ [] :=
      append_ne_nil_of_right_ne_nil _ hafter
    obtain ⟨front, back, hwords, -, hback⟩ := exists_words_of_length hle hne hdvd heq
    have hdvd' : 64 ∣ (replicate (count * 64) bit).length := by
      rw [length_replicate]
      exact Nat.dvd_mul_left 64 count
    obtain ⟨run, rest, hrest, hrun, -⟩ := exists_words_of_length hle hafter hdvd' hback
    rw [← wordBits_clean] at hrun
    rw [wordBits_inj hrun] at hrest
    exact ⟨front, rest, bit, hwords.trans (congrArg (front ++ ·) hrest)⟩
  · intro hwords
    obtain ⟨before, after, bit, rfl⟩ := hwords
    refine ⟨wordBits before, wordBits after ++ tail, bit, ?_, ?_, ?_⟩
    · rw [length_wordBits]
      exact Nat.dvd_mul_left 64 _
    · exact append_ne_nil_of_right_ne_nil _ hpos
    · rw [wordBits_append, wordBits_append, wordBits_clean, append_assoc, append_assoc]

theorem longRun_iff_chunk (hpos : tail ≠ []) (hle : tail.length ≤ 64) {limit : Nat}
    (hlimit : 0 < limit) : LongRun (limit * 64) (wordBits words ++ tail) ↔
      ∃ bit count, limit ≤ count ∧ .run bit count ∈ split coding words := by
  rw [longRun_iff hpos hle]
  constructor
  · intro hwords
    obtain ⟨before, after, bit, rfl⟩ := hwords
    obtain ⟨count, hcount, hmem⟩ := exists_run_of_infix hlimit before after
    exact ⟨bit, count, hcount, hmem⟩
  · intro hchunk
    obtain ⟨bit, count, hcount, hmem⟩ := hchunk
    obtain ⟨before, after, hwords⟩ := infix_of_mem_split hmem
    refine ⟨before, replicate (count - limit) (coding.clean bit) ++ after, bit, ?_⟩
    rw [hwords, ← append_assoc (replicate limit _), replicate_append_replicate,
      Nat.add_sub_cancel' hcount]

/-! ## Ranges of bitmaps -/

/-- The range yields the bits, and no sequence is empty. -/
def Yields (bm : EwahBitmap) (bits : List Bool) : Prop :=
  bm.bitRange.flatMap Bits.toList = bits ∧ ∀ xs ∈ bm.bitRange, xs.isEmpty = false

section Yields

variable {bm : EwahBitmap} {words : List Block} {active : Block} {used : Nat} {bits : List Bool}

section

variable (hholds : Holds bm words active used)

include hholds

theorem Holds.bits_ne_nil : Word.bits active used ≠ [] := by
  apply ne_nil_of_length_pos
  rw [length_bits]
  exact hholds.used_pos

theorem Holds.flatMap_bitRange (hsize : bm.numBits ≠ 0) :
    bm.bitRange.flatMap Bits.toList =
      yielded (split coding words) ++ Word.bits active used := by
  rw [hholds.bitRange_eq hsize, sequences, flatMap_append, flatMap_singleton,
    hholds.usedBits_eq, Bits.toList_make hholds.used_le]
  rfl

theorem Holds.isEmpty_eq_false (hsize : bm.numBits ≠ 0)
    (hshort : ∀ bit count, .run bit count ∈ split coding words → count * 64 < 2 ^ 64) :
    ∀ xs ∈ bm.bitRange, xs.isEmpty = false := by
  intro xs hxs
  rw [hholds.bitRange_eq hsize, sequences, hholds.usedBits_eq] at hxs
  rcases mem_append.mp hxs with hchunk | hlast
  · obtain ⟨chunk, hmem, rfl⟩ := mem_map.mp hchunk
    cases chunk with
    | run bit count =>
      have hpos := pos_of_mem_split bit count hmem
      rw [chunkBits, Nat.mod_eq_of_lt (hshort bit count hmem)]
      apply decide_eq_false
      change ¬ count * 64 = 0
      omega
    | literal word => rfl
  · rw [mem_singleton.mp hlast]
    exact decide_eq_false (Nat.ne_of_gt hholds.used_pos)

end

/-- Whether the range yields the bits depends on their number and their runs only. -/
theorem Stores.yields_iff (hstores : Stores bm bits) :
    Yields bm bits ↔ bits.length % 2 ^ 64 ≠ 0 ∧ ¬ LongRun (2 ^ 64) bits := by
  obtain ⟨words, active, used, hholds, rfl⟩ := hstores
  have hlen : (wordBits words ++ bits active used).length % 2 ^ 64 = bm.numBits := by
    rw [length_append, length_wordBits, length_bits, hholds.numBits_eq]
  have htail : (bits active used).length ≤ 64 := by
    rw [length_bits]
    exact hholds.used_le
  have hlimit : (2 : Nat) ^ 64 = 2 ^ 58 * 64 := by decide
  have hlong : LongRun (2 ^ 58 * 64) (wordBits words ++ bits active used) ↔
      ∃ bit count, 2 ^ 58 ≤ count ∧ .run bit count ∈ split coding words :=
    longRun_iff_chunk hholds.bits_ne_nil htail (by decide)
  rw [← hlimit] at hlong
  rw [hlen, hlong]
  constructor
  · intro hyields
    obtain ⟨hbits, hnonempty⟩ := hyields
    have hsize : bm.numBits ≠ 0 := by
      intro hzero
      have hempty := hnonempty _ (hholds.empty_mem_bitRange hzero)
      cases hempty
    refine ⟨hsize, ?_⟩
    intro hchunk
    obtain ⟨bit, count, hcount, hmem⟩ := hchunk
    have hlt := length_yielded_lt hmem (by omega)
    rw [hholds.flatMap_bitRange hsize] at hbits
    rw [append_cancel_right hbits, words_split] at hlt
    exact Nat.lt_irrefl _ hlt
  · intro hcond
    obtain ⟨hsize, hnot⟩ := hcond
    have hshort : ∀ bit count, .run bit count ∈ split coding words →
        count * 64 < 2 ^ 64 := by
      intro bit count hmem
      have hlt : ¬ 2 ^ 58 ≤ count := fun hle => hnot ⟨bit, count, hle, hmem⟩
      omega
    refine ⟨?_, hholds.isEmpty_eq_false hsize hshort⟩
    rw [hholds.flatMap_bitRange hsize, yielded_eq hshort, words_split]

theorem Represents.yields_iff (hrep : Represents bm bits) :
    Yields bm bits ↔ (bits = [] ∨ bits.length % 2 ^ 64 ≠ 0) ∧ ¬ LongRun (2 ^ 64) bits := by
  rcases hrep with ⟨rfl, rfl⟩ | hstores
  · refine ⟨fun _ => ⟨Or.inl rfl, ?_⟩, fun _ => ⟨rfl, fun xs hxs => nomatch hxs⟩⟩
    rintro ⟨before, after, bit, -, hafter, hnil⟩
    have hempty := (append_eq_nil_iff.mp hnil.symm).2
    exact hafter (append_eq_nil_iff.mp hempty).2
  · have hne : bits ≠ [] := by
      obtain ⟨words, active, used, hholds, rfl⟩ := hstores
      exact append_ne_nil_of_right_ne_nil _ hholds.bits_ne_nil
    rw [hstores.yields_iff, or_iff_right hne]

end Yields

end EwahBitmap

end Vast
