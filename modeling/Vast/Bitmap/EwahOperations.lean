import Vast.Bitmap.EwahFlip
import Vast.Bitmap.EwahRange

/-! # Operations on EWAH bitmaps

Every sequence of operations keeps a bitmap in its canonical form: the blocks are a function
of the bits. The bits can be read back as long as the counters are wide enough. The
complement counts blocks with 32 bits, and the range counts bits with 64 bits.
-/

namespace Vast

open Foundation Word EwahWord List Segments

namespace EwahBitmap

/-! ## Sequences of operations -/

abbrev BlockWidth := { n : Nat // 0 < n ∧ n ≤ 64 }

inductive Operation where
  | appendBit (bit : Bool)
  | appendBits (bit : Bool) (n : UInt64)
  | appendBlock (value : Block) (bits : BlockWidth)
  | flip

variable (bm : EwahBitmap)

def apply : Operation → Option EwahBitmap
  | .appendBit bit => some (bm.appendBit bit)
  | .appendBits bit n => some (bm.appendBits bit n.toNat)
  | .appendBlock value bits => some (bm.appendBlock value bits)
  | .flip => bm.flip

variable (operations : List Operation)

def run : Option EwahBitmap :=
  operations.foldlM apply empty

def applyBits (bits : List Bool) : Operation → List Bool
  | .appendBit bit => bits ++ [bit]
  | .appendBits bit n => bits ++ List.replicate n.toNat bit
  | .appendBlock value width => bits ++ Word.bits value width
  | .flip => bits.map (!·)

def runBits : List Bool :=
  operations.foldl applyBits []

/-- Every complement is taken of a bitmap whose blocks can be counted with 32 bits. -/
def FlipsEnd : Prop :=
  ∀ before after bm, operations = before ++ .flip :: after → run before = some bm →
    bm.blocks.length ≤ 2 ^ 32

theorem run_concat (operation : Operation) :
    run (operations ++ [operation]) = (run operations).bind (apply · operation) := by
  rw [run, foldlM_append, ← run]
  cases run operations <;> simp

theorem runBits_concat (operation : Operation) :
    runBits (operations ++ [operation]) = applyBits (runBits operations) operation := by
  rw [runBits, foldl_append]
  rfl

theorem FlipsEnd.of_append {operations more : List Operation}
    (hflips : FlipsEnd (operations ++ more)) : FlipsEnd operations := by
  intro before after bm heq hrun
  apply hflips before (after ++ more) bm _ hrun
  rw [heq, append_assoc, cons_append]

theorem Represents.apply {bm : EwahBitmap} {bits : List Bool} (hrep : Represents bm bits)
    (operation : Operation) (hflip : operation = .flip → bm.blocks.length ≤ 2 ^ 32) :
    ∃ next, bm.apply operation = some next ∧ Represents next (applyBits bits operation) := by
  cases operation with
  | appendBit bit => exact ⟨_, rfl, Or.inr (hrep.appendBit bit)⟩
  | appendBits bit n => exact ⟨_, rfl, hrep.appendBits bit n.toNat⟩
  | appendBlock value width =>
    exact ⟨_, rfl, Or.inr (hrep.appendBlock value width.2.1 width.2.2)⟩
  | flip => exact hrep.flip (hflip rfl)

variable {operations : List Operation}

theorem exists_run (hflips : FlipsEnd operations) :
    ∃ bm, run operations = some bm ∧ Represents bm (runBits operations) := by
  induction operations using reverseRecOn with
  | nil => exact ⟨empty, rfl, Or.inl ⟨rfl, rfl⟩⟩
  | append_singleton operations operation ih =>
    obtain ⟨bm, hrun, hrep⟩ := ih hflips.of_append
    have hflip : operation = .flip → bm.blocks.length ≤ 2 ^ 32 := by
      intro heq
      exact hflips operations [] bm (heq ▸ rfl) hrun
    obtain ⟨next, happly, hnext⟩ := hrep.apply operation hflip
    refine ⟨next, ?_, ?_⟩
    · rw [run_concat, hrun]
      exact happly
    · rw [runBits_concat]
      exact hnext

theorem exists_run_of_append {before after : List Operation} {bm : EwahBitmap}
    (hrun : run (before ++ after) = some bm) :
    ∃ first, run before = some first ∧ after.foldlM apply first = some bm := by
  rw [run, foldlM_append] at hrun
  exact Option.bind_eq_some_iff.mp hrun

theorem flipsEnd_of_run {bm : EwahBitmap} (hrun : run operations = some bm) :
    FlipsEnd operations := by
  intro before after first heq hfirst
  rw [heq] at hrun
  obtain ⟨first', hfirst', hrest⟩ := exists_run_of_append hrun
  cases hfirst.symm.trans hfirst'
  apply Nat.le_of_not_lt
  intro hlt
  rw [foldlM_cons, apply, flip_eq_none hlt] at hrest
  cases hrest

theorem represents_of_run {bm : EwahBitmap} (hrun : run operations = some bm) :
    Represents bm (runBits operations) := by
  obtain ⟨bm', hrun', hrep⟩ := exists_run (flipsEnd_of_run hrun)
  cases hrun.symm.trans hrun'
  exact hrep

/-! ## Block invariants -/

/-- The blocks are markers with the dirty blocks behind them, from the first block on, and
the last block, which is not counted by a marker. -/
structure BlockInvariants (markers : List (Block × List Block)) (active : Block) : Prop where
  markers_ne_nil : markers ≠ []
  blocks_eq : bm.blocks = (markers.flatMap fun entry => entry.1 :: entry.2) ++ [active]
  numDirty_eq : ∀ entry ∈ markers, markerNumDirty entry.1 = entry.2.length
  unused : Unused active (usedBits bm.numBits)

/-- A bitmap without blocks has no invariants. -/
def WellFormed : Prop :=
  bm.blocks = [] ∨ ∃ markers active, BlockInvariants bm markers active

theorem Holds.blockInvariants {bm : EwahBitmap} {words : List Block} {active : Block} {used : Nat}
    (hholds : Holds bm words active used) :
    BlockInvariants bm ((compress coding words).toList.map fun segment =>
      (marker segment.bit segment.run segment.literals.length, segment.literals)) active := by
  constructor
  · simp [toList]
  · rw [hholds.laid.blocks_eq, flatMap_map]
    rfl
  · intro entry hentry
    obtain ⟨segment, hsegment, rfl⟩ := mem_map.mp hentry
    exact markerNumDirty_marker (hholds.laid.proper.bounded segment hsegment).literals_le
  · rw [hholds.usedBits_eq]
    exact hholds.unused

/-! ## Refinement of lists of bits -/

/-- The range yields the bits of the operations in sequences that are not empty, and after
every operation there is a bitmap with the block invariants. -/
def RefinesBits (operations : List Operation) : Prop :=
  (∃ bm, run operations = some bm ∧ Yields bm (runBits operations)) ∧
    ∀ before after, operations = before ++ after → ∃ bm, run before = some bm ∧ WellFormed bm

/-- Operations refine those on lists of bits if and only if every complement ends, the number
of bits does not overflow to zero, and there is no run that is too long to be counted. -/
theorem refinesBits_iff (operations : List Operation) : RefinesBits operations ↔
      FlipsEnd operations ∧ (runBits operations = [] ∨ (runBits operations).length % 2 ^ 64 ≠ 0) ∧
        ¬ LongRun (2 ^ 64) (runBits operations) := by
  constructor
  · intro hrefines
    obtain ⟨⟨bm, hrun, hyields⟩, -⟩ := hrefines
    exact ⟨flipsEnd_of_run hrun, (represents_of_run hrun).yields_iff.mp hyields⟩
  · intro hcond
    obtain ⟨hflips, hbits⟩ := hcond
    obtain ⟨bm, hrun, hrepresents⟩ := exists_run hflips
    refine ⟨⟨bm, hrun, hrepresents.yields_iff.mpr hbits⟩, ?_⟩
    intro before after heq
    rw [heq] at hflips
    obtain ⟨first, hfirst, hwell⟩ := exists_run hflips.of_append
    refine ⟨first, hfirst, ?_⟩
    rcases hwell with ⟨rfl, -⟩ | ⟨words, active, used, hholds, -⟩
    · exact Or.inl rfl
    · exact Or.inr ⟨_, active, hholds.blockInvariants⟩

/-- The words and the used part of the last block are a function of the bits. -/
theorem eq_of_wordBits_append_eq {words words' : List Block} {active active' : Block}
    {used used' : Nat} (hused : 0 < used ∧ used ≤ 64) (hunused : Unused active used)
    (hused' : 0 < used' ∧ used' ≤ 64) (hunused' : Unused active' used')
    (heq : wordBits words ++ bits active used = wordBits words' ++ bits active' used') :
    words = words' ∧ active = active' ∧ used = used' := by
  have hlen := congrArg length heq
  rw [length_append, length_append, length_wordBits, length_wordBits, length_bits,
    length_bits] at hlen
  have hwords : (wordBits words).length = (wordBits words').length := by
    rw [length_wordBits, length_wordBits]
    omega
  obtain ⟨hfirst, hsecond⟩ := append_inj heq hwords
  have hsame : used = used' := by omega
  subst hsame
  exact ⟨wordBits_inj hfirst, eq_of_bits_eq hunused hunused' hsecond, rfl⟩

/-! A dirty word takes at least one block. -/

variable {word : Block}

theorem length_layout_add {segments : Segments Block} (hkind : coding.kind word = Option.none) :
    (layout segments).length < (layout (segments.add coding word)).length := by
  rw [add, hkind]
  dsimp only
  split
  · simp [layout_close, encode]
  · simp [layout_eq, encode]

theorem length_layout_dirty (hkind : coding.kind word = Option.none) (n : Nat) :
    n < (layout (compress coding (replicate n word))).length := by
  induction n with
  | zero => exact Nat.one_pos
  | succ n ih =>
    rw [replicate_succ', compress_append]
    exact Nat.lt_of_le_of_lt ih (length_layout_add hkind)

theorem runBits_dirty (word : Block) (n : Nat) :
    runBits (replicate n (.appendBlock word ⟨64, by decide⟩)) =
      wordBits (replicate n word) := by
  induction n with
  | zero => rfl
  | succ n ih =>
    rw [replicate_succ', replicate_succ', runBits_concat, ih, wordBits_concat]
    rfl

variable {n : Nat}

theorem length_blocks_dirty (hkind : coding.kind word = Option.none) {bm : EwahBitmap} (hn : 0 < n)
    (hrun : run (replicate n (.appendBlock word ⟨64, by decide⟩)) = some bm) :
    n < bm.blocks.length := by
  have hrep := represents_of_run hrun
  obtain ⟨n, rfl⟩ : ∃ m, n = m + 1 := ⟨n - 1, (Nat.sub_add_cancel hn).symm⟩
  rw [runBits_dirty, replicate_succ', wordBits_concat] at hrep
  rcases hrep with ⟨-, hnil⟩ | ⟨words, active, used, hholds, heq⟩
  · have hlen := congrArg length hnil
    rw [length_append] at hlen
    cases hlen
  · obtain ⟨rfl, -, -⟩ := eq_of_wordBits_append_eq (by decide) unused_full
      ⟨hholds.used_pos, hholds.used_le⟩ hholds.unused heq
    rw [hholds.laid.blocks_eq, length_append]
    exact Nat.succ_lt_succ (length_layout_dirty hkind n)

/-- The complement of too many dirty blocks does not end. -/
theorem not_refinesBits_dirty (hkind : coding.kind word = Option.none) (hn : 2 ^ 32 ≤ n) :
    ¬ RefinesBits (replicate n (.appendBlock word ⟨64, by decide⟩) ++ [.flip]) := by
  intro hrefines
  obtain ⟨⟨bm, hrun, -⟩, -⟩ := hrefines
  obtain ⟨first, hfirst, -⟩ := exists_run_of_append hrun
  have hle := flipsEnd_of_run hrun _ [] first rfl hfirst
  have hlt := length_blocks_dirty hkind (Nat.lt_of_lt_of_le (by decide) hn) hfirst
  omega

/-- For example, a single one in each of the blocks. -/
theorem flip_of_single_ones_does_not_end :
    ¬ RefinesBits (List.replicate (2 ^ 32) (.appendBlock 1#64 ⟨64, by decide⟩) ++ [.flip]) :=
  not_refinesBits_dirty (by decide) (Nat.le_refl _)

/-! ## Canonical form -/

/-- The bits of the blocks that are left, given the number of dirty blocks behind the current
marker. A marker stands for its clean blocks, and the last block is used in part. -/
def decode (used : Nat) : Nat → List Block → List Bool
  | _, [] => []
  | _, [block] => Word.bits block used
  | numDirty + 1, block :: next :: blocks =>
    Word.bits block width ++ decode used numDirty (next :: blocks)
  | 0, block :: next :: blocks =>
    List.replicate (markerNumClean block * width) (markerType block) ++
      decode used (markerNumDirty block) (next :: blocks)

def contents : List Bool :=
  decode (usedBits bm.numBits) 0 bm.blocks

inductive Built : EwahBitmap → Prop where
  | empty : Built EwahBitmap.empty
  | appendBit {bm : EwahBitmap} (hbuilt : Built bm) (bit : Bool) : Built (bm.appendBit bit)
  | appendBits {bm : EwahBitmap} (hbuilt : Built bm) (bit : Bool) (n : UInt64) :
      Built (bm.appendBits bit n.toNat)
  | appendBlock {bm : EwahBitmap} (hbuilt : Built bm) (value : Block) (bits : BlockWidth) :
      Built (bm.appendBlock value bits)
  | append {bm other : EwahBitmap} (hbuilt : Built bm) (hother : Built other) :
      Built (bm.append other)
  | flip {bm flipped : EwahBitmap} (hbuilt : Built bm) (hflip : bm.flip = some flipped) :
      Built flipped

section Canonical

variable {bm : EwahBitmap} {words : List Block} {active : Block} {used : Nat} {bits : List Bool}

theorem decode_literals (literals : List Block) (segments : List (Segment Block)) :
    decode used literals.length (literals ++ blocksFrom active segments) =
      wordBits literals ++ decode used 0 (blocksFrom active segments) := by
  induction literals with
  | nil => rfl
  | cons literal literals ih =>
    obtain ⟨next, blocks, hnext⟩ : ∃ next blocks,
        literals ++ blocksFrom active segments = next :: blocks :=
      exists_cons_of_ne_nil (append_ne_nil_of_right_ne_nil _ blocksFrom_ne_nil)
    rw [length_cons, cons_append, hnext, decode, ← hnext, ih, wordBits, wordBits]
    rfl

theorem decode_segments {segments : List (Segment Block)}
    (hbounded : ∀ segment ∈ segments, segment.Bounded coding) :
    decode used 0 (blocksFrom active segments) =
      wordBits (segments.flatMap (Segment.words coding)) ++ Word.bits active used := by
  induction segments with
  | nil => rfl
  | cons segment segments ih =>
    have hsegment := hbounded segment mem_cons_self
    obtain ⟨next, blocks, hnext⟩ : ∃ next blocks,
        segment.literals ++ blocksFrom active segments = next :: blocks :=
      exists_cons_of_ne_nil (append_ne_nil_of_right_ne_nil _ blocksFrom_ne_nil)
    rw [blocksFrom_cons, hnext, decode, ← hnext, markerNumClean_marker hsegment.run_le,
      markerNumDirty_marker hsegment.literals_le, markerType_marker, decode_literals,
      ih (fun other hother => hbounded other (mem_cons_of_mem _ hother)), flatMap_cons,
      Segment.words, wordBits_append, wordBits_append, wordBits_clean, append_assoc, append_assoc]
    rfl

theorem Represents.contents_eq (hrep : Represents bm bits) : bm.contents = bits := by
  rcases hrep with ⟨rfl, rfl⟩ | ⟨words, active, used, hholds, rfl⟩
  · rfl
  · rw [contents, hholds.usedBits_eq, hholds.blocks_eq,
      decode_segments hholds.laid.proper.bounded, flatMap_words_compress]

/-- The bits that a range yields are appended. -/
theorem Built.represents (hbuilt : Built bm) : ∃ bits, Represents bm bits := by
  induction hbuilt with
  | empty => exact ⟨[], Or.inl ⟨rfl, rfl⟩⟩
  | appendBit _ bit ih =>
    obtain ⟨bits, hrep⟩ := ih
    exact ⟨_, Or.inr (hrep.appendBit bit)⟩
  | appendBits _ bit n ih =>
    obtain ⟨bits, hrep⟩ := ih
    exact ⟨_, hrep.appendBits bit n.toNat⟩
  | appendBlock _ value width ih =>
    obtain ⟨bits, hrep⟩ := ih
    exact ⟨_, Or.inr (hrep.appendBlock value width.2.1 width.2.2)⟩
  | append _ _ ih _ =>
    obtain ⟨bits, hrep⟩ := ih
    exact ⟨_, hrep.append _⟩
  | @flip bm flipped _ hflip ih =>
    obtain ⟨bits, hrep⟩ := ih
    have hle : bm.blocks.length ≤ 2 ^ 32 := by
      apply Nat.le_of_not_lt
      intro hlt
      rw [flip_eq_none hlt] at hflip
      cases hflip
    obtain ⟨flipped', hflip', hflipped⟩ := hrep.flip hle
    cases hflip.symm.trans hflip'
    exact ⟨_, hflipped⟩

theorem Represents.equal {x y : EwahBitmap} (hx : Represents x bits) (hy : Represents y bits) :
    x.blocks = y.blocks ∧ x.numBits = y.numBits := by
  rcases hx with ⟨rfl, hnil⟩ | ⟨words, active, used, hholds, hbits⟩
  · rcases hy with ⟨rfl, -⟩ | ⟨words, active, used, hholds, hbits⟩
    · exact ⟨rfl, rfl⟩
    · rw [hnil] at hbits
      exact absurd (append_eq_nil_iff.mp hbits.symm).2 hholds.bits_ne_nil
  · rcases hy with ⟨rfl, hnil⟩ | ⟨words', active', used', hholds', hbits'⟩
    · rw [hnil] at hbits
      exact absurd (append_eq_nil_iff.mp hbits.symm).2 hholds.bits_ne_nil
    · obtain ⟨rfl, rfl, rfl⟩ := eq_of_wordBits_append_eq ⟨hholds.used_pos, hholds.used_le⟩
        hholds.unused ⟨hholds'.used_pos, hholds'.used_le⟩ hholds'.unused (hbits.symm.trans hbits')
      rw [hholds.laid.blocks_eq, hholds'.laid.blocks_eq, hholds.numBits_eq, hholds'.numBits_eq]
      exact ⟨rfl, rfl⟩

/-- Bitmaps are equal if and only if they denote the same bits, however they were built. -/
theorem equal_iff_contents_eq {x y : EwahBitmap} (hx : Built x) (hy : Built y) :
    x.equal y = true ↔ x.contents = y.contents := by
  rw [equal, Bool.and_eq_true, beq_iff_eq, beq_iff_eq]
  constructor
  · intro heq
    rw [contents, contents, heq.1, heq.2]
  · intro heq
    obtain ⟨bits, hbits⟩ := hx.represents
    obtain ⟨bits', hbits'⟩ := hy.represents
    rw [hbits.contents_eq, hbits'.contents_eq] at heq
    subst heq
    exact hbits.equal hbits'

/-- Ones that are appended at once and in two steps. -/
theorem contents_of_seventy_ones : (empty.appendBits true 70).contents =
      ((empty.appendBlock all 64).appendBits true 6).contents :=
  (equal_iff_contents_eq (.appendBits .empty true 70)
    (.appendBits (.appendBlock .empty all ⟨64, by decide⟩) true 6)).mp (by decide)

end Canonical

end EwahBitmap

end Vast
