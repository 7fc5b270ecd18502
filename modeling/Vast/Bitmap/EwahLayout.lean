import Vast.Bitmap.Ewah
import Vast.Foundation.Segments

/-! # The layout of EWAH bitmaps

The blocks of a bitmap are those of the segments of its words, a marker and the dirty
blocks for each of them, followed by the block that takes the next bits. Integrating the
last block adds a word to the segments.
-/

namespace Vast

open List (replicate)

open Foundation Word EwahWord EwahBitmap Segments
open List hiding all

namespace EwahBitmap

/-- Clean words are all zeros or all ones. The counters of a marker limit a segment. -/
def coding : Coding Block where
  clean bit := if bit then all else Word.none
  kind block :=
    if block = Word.none then some false else if block = all then some true else Option.none
  kind_eq_some := by
    intro block bit
    have hne : all ≠ Word.none := by decide
    by_cases hnone : block = Word.none
    · cases bit <;> simp [hnone, hne.symm]
    · by_cases hall : block = all
      · cases bit <;> simp [hall, hne]
      · cases bit <;> simp [hnone, hall]
  maxRun := markerCleanMax
  maxLiterals := markerDirtyMax
  maxRun_pos := by decide
  maxLiterals_pos := by decide

def encode (segment : Segment Block) : List Block :=
  marker segment.bit segment.run segment.literals.length :: segment.literals

variable (segments : Segments Block)

def layout : List Block :=
  segments.toList.flatMap encode

def position : Nat :=
  (segments.done.flatMap encode).length

theorem layout_eq : layout segments = segments.done.flatMap encode ++ encode segments.last := by
  simp [layout, toList]

theorem layout_close (next : Segment Block) :
    layout (segments.close next) = layout segments ++ encode next := by
  simp [layout, toList, close]

/-- The blocks are those of proper segments and some others. -/
structure Laid (bm : EwahBitmap) (segments : Segments Block) (rest : List Block) : Prop where
  proper : segments.Proper coding
  blocks_eq : bm.blocks = layout segments ++ rest
  lastMarker_eq : bm.lastMarker = position segments

section Laid

variable {bm : EwahBitmap} {segments : Segments Block} {rest : List Block} {word : Block}
  {bit : Bool} {fill : Nat}

section

variable (hlaid : Laid bm segments rest)

include hlaid

theorem Laid.blocks_split :
    bm.blocks = segments.done.flatMap encode ++
      marker segments.last.bit segments.last.run segments.last.literals.length ::
        (segments.last.literals ++ rest) := by
  rw [hlaid.blocks_eq, layout_eq, encode, append_assoc, cons_append]

theorem Laid.markerBlock_eq :
    bm.markerBlock = marker segments.last.bit segments.last.run segments.last.literals.length := by
  rw [markerBlock, hlaid.blocks_split, hlaid.lastMarker_eq, position, getD_eq_getElem?_getD,
    getElem?_append_right (Nat.le_refl _), Nat.sub_self, getElem?_cons_zero, Option.getD_some]

theorem Laid.blocks_setMarker (block : Block) : (bm.setMarker block).blocks =
      segments.done.flatMap encode ++ block :: (segments.last.literals ++ rest) := by
  rw [setMarker, hlaid.blocks_split, hlaid.lastMarker_eq, position, set_append_right _ _
    (Nat.le_refl _), Nat.sub_self, set_cons_zero]

theorem Laid.length_blocks :
    bm.blocks.length = bm.lastMarker + 1 + segments.last.literals.length + rest.length := by
  rw [hlaid.blocks_split, hlaid.lastMarker_eq, position, length_append, length_cons, length_append]
  omega

theorem Laid.numClean_eq : markerNumClean bm.markerBlock = segments.last.run := by
  rw [hlaid.markerBlock_eq, markerNumClean_marker hlaid.proper.last_bounded.run_le]

theorem Laid.numDirty_eq : markerNumDirty bm.markerBlock = segments.last.literals.length := by
  rw [hlaid.markerBlock_eq, markerNumDirty_marker hlaid.proper.last_bounded.literals_le]

theorem Laid.type_eq : markerType bm.markerBlock = segments.last.bit := by
  rw [hlaid.markerBlock_eq, markerType_marker]

theorem Laid.addSize (n : Nat) : Laid (bm.addSize n) segments rest :=
  ⟨hlaid.proper, hlaid.blocks_eq, hlaid.lastMarker_eq⟩

/-- Write the marker of another last segment with the same literals. -/
theorem Laid.setMarker {last : Segment Block}
    (hproper : Segments.Proper coding { segments with last := last })
    (hlits : last.literals = segments.last.literals) :
    Laid (bm.setMarker (marker last.bit last.run last.literals.length))
      { segments with last := last } rest where
  proper := hproper
  blocks_eq := by
    rw [hlaid.blocks_setMarker, layout_eq, encode, hlits, append_assoc, cons_append]
  lastMarker_eq := hlaid.lastMarker_eq

end

theorem Laid.back_eq (hlaid : Laid bm segments [word]) : bm.back = word := by
  rw [back, hlaid.blocks_eq, getLastD_eq_getLast?, getLast?_append]
  rfl

theorem Laid.popBack (hlaid : Laid bm segments [word]) : Laid bm.popBack segments [] where
  proper := hlaid.proper
  blocks_eq := by
    rw [EwahBitmap.popBack, hlaid.blocks_eq, dropLast_concat, append_nil]
  lastMarker_eq := hlaid.lastMarker_eq

theorem Laid.setBack (hlaid : Laid bm segments [word]) (block : Block) :
    Laid (bm.setBack block) segments [block] where
  proper := hlaid.proper
  blocks_eq := by rw [EwahBitmap.setBack, hlaid.blocks_eq, dropLast_concat]
  lastMarker_eq := hlaid.lastMarker_eq

theorem Laid.pushBack (hlaid : Laid bm segments []) (block : Block) :
    Laid (bm.pushBack block) segments [block] where
  proper := hlaid.proper
  blocks_eq := by rw [EwahBitmap.pushBack, hlaid.blocks_eq, append_nil]
  lastMarker_eq := hlaid.lastMarker_eq

theorem Laid.markBack (hlaid : Laid bm segments [word]) {next : Segment Block}
    (hproper : (segments.close next).Proper coding) {pushed : List Block}
    (hpushed : pushed = next.literals) {bm' : EwahBitmap} (hblocks : bm'.blocks =
      (bm.markBack (marker next.bit next.run next.literals.length)).blocks ++ pushed)
    (hmarker : bm'.lastMarker =
      (bm.markBack (marker next.bit next.run next.literals.length)).lastMarker) :
    Laid bm' (segments.close next) [] := by
  constructor
  · exact hproper
  · rw [hblocks, EwahBitmap.markBack, (hlaid.setBack _).blocks_eq, layout_close, encode, hpushed,
      append_nil, append_assoc, singleton_append]
  · rw [hmarker, EwahBitmap.markBack, hlaid.blocks_eq, length_append]
    exact Nat.add_sub_cancel _ _

theorem Laid.blocksAfterMarker_eq (hlaid : Laid bm segments [word]) :
    bm.blocks.length - bm.lastMarker - 1 = 1 ↔ segments.last.literals = [] := by
  rw [hlaid.length_blocks, length_singleton, ← length_eq_zero_iff]
  omega

theorem kind_of_allOrNone (hclean : allOrNone word = true) :
    coding.kind word = some (word != 0#64) := by
  rcases (allOrNone_iff word).mp hclean with rfl | rfl <;> decide

theorem kind_of_not_allOrNone (hdirty : allOrNone word ≠ true) :
    coding.kind word = Option.none := by
  rw [Option.eq_none_iff_forall_ne_some]
  intro bit hkind
  apply hdirty
  rw [allOrNone_iff, coding.kind_eq_some.mp hkind]
  cases bit
  · exact Or.inl rfl
  · exact Or.inr rfl

/-- A dirty block is counted by the last marker or by a new one. -/
theorem Laid.bumpDirtyCount (hlaid : Laid bm segments [word])
    (hkind : coding.kind word = Option.none) :
    Laid bm.bumpDirtyCount (segments.add coding word) [] := by
  have hproper := hlaid.proper.add word
  rw [add, hkind] at hproper ⊢
  rw [EwahBitmap.bumpDirtyCount]
  simp only [hlaid.numDirty_eq]
  have hmax : coding.maxLiterals = markerDirtyMax := rfl
  by_cases hfull : segments.last.literals.length = markerDirtyMax
  · simp only [hfull] at hproper ⊢
    have hone : BitVec.ofNat 64 (markerNumDirty 1#64) = marker false 0 1 := by
      decide
    rw [hone, hlaid.back_eq]
    exact hlaid.markBack hproper rfl rfl rfl
  · simp only [hmax, hfull, if_false] at hproper ⊢
    have hle := hlaid.proper.last_bounded.literals_le
    constructor
    · exact hproper
    · rw [hlaid.blocks_setMarker, hlaid.markerBlock_eq, setMarkerNumDirty_marker (by omega),
        layout_eq, encode]
      simp
    · exact hlaid.lastMarker_eq

theorem Laid.integrateLastBlock (hlaid : Laid bm segments [word]) :
    Laid bm.integrateLastBlock (segments.add coding word) [] := by
  rw [EwahBitmap.integrateLastBlock]
  simp only [hlaid.back_eq, hlaid.blocksAfterMarker_eq, hlaid.numClean_eq, hlaid.type_eq]
  by_cases hclean : allOrNone word = true
  · have hproper := hlaid.proper.add word
    have hbounded := hlaid.proper.last_bounded
    rw [if_pos hclean]
    rw [add, kind_of_allOrNone hclean] at hproper ⊢
    dsimp only at hproper ⊢
    have hmax : coding.maxRun = markerCleanMax := rfl
    rw [hmax] at hproper ⊢
    split
    next hempty =>
      rw [if_pos hempty] at hproper
      have hmarker : setMarkerNumClean (setMarkerType bm.markerBlock (word != 0#64)) 1 =
          marker (word != 0#64) 1 ([] : List Block).length := by
        rw [hlaid.markerBlock_eq, setMarkerType_marker, setMarkerNumClean_marker (by decide),
          hempty.1]
      rw [hmarker]
      exact (hlaid.setMarker hproper hempty.1.symm).popBack
    next hne =>
      rw [if_neg hne] at hproper
      split
      next hextend =>
        rw [if_pos hextend] at hproper
        have hle : segments.last.run + 1 ≤ markerCleanMax :=
          Nat.lt_of_le_of_ne hbounded.run_le hextend.2.2
        have hmarker : setMarkerNumClean bm.markerBlock (segments.last.run + 1) =
            marker (word != 0#64) (segments.last.run + 1) ([] : List Block).length := by
          rw [hlaid.markerBlock_eq, setMarkerNumClean_marker hle, hextend.1, hextend.2.1]
        rw [hmarker]
        exact (hlaid.setMarker hproper hextend.1.symm).popBack
      next hclosed =>
        rw [if_neg hclosed] at hproper
        have hmarker : setMarkerNumClean (setMarkerType 0#64 (word != 0#64)) 1 =
            marker (word != 0#64) 1 ([] : List Block).length := by
          rw [← marker_zero, setMarkerType_marker, setMarkerNumClean_marker (by decide)]
          rfl
        rw [hmarker]
        exact hlaid.markBack hproper rfl (append_nil _).symm rfl
  · rw [if_neg hclean]
    exact hlaid.bumpDirtyCount (kind_of_not_allOrNone hclean)

theorem numBits_integrateLastBlock (bm : EwahBitmap) :
    bm.integrateLastBlock.numBits = bm.numBits := by
  simp only [integrateLastBlock, bumpDirtyCount]
  repeat' split
  all_goals rfl

/-! ## Clean blocks -/

/-- The last marker can take clean blocks, unless its counter is full. -/
def Reusable (segments : Segments Block) (bit : Bool) : Prop :=
  segments.last.literals = [] ∧ (segments.last.bit = bit ∨ segments.last.run = 0)

theorem Laid.reusable_iff (hlaid : Laid bm segments []) (bit : Bool) :
    ((bm.lastMarker = bm.blocks.length - 1 ∧ markerType bm.markerBlock = bit) ∨
      (bm.lastMarker = 0 ∧ bm.markerBlock = 0#64)) ↔ Reusable segments bit := by
  have hlen : bm.lastMarker = bm.blocks.length - 1 ↔ segments.last.literals = [] := by
    rw [hlaid.length_blocks, length_nil, ← length_eq_zero_iff]
    omega
  rw [hlen, hlaid.type_eq]
  constructor
  · intro hcases
    rcases hcases with ⟨hlits, hbit⟩ | ⟨-, hzero⟩
    · exact ⟨hlits, Or.inl hbit⟩
    · have hclean := hlaid.numClean_eq
      have hdirty := hlaid.numDirty_eq
      rw [hzero] at hclean hdirty
      exact ⟨length_eq_zero_iff.mp hdirty.symm, Or.inr hclean.symm⟩
  · intro ⟨hlits, hcases⟩
    rcases hcases with hbit | hrun
    · exact Or.inl ⟨hlits, hbit⟩
    · right
      have hdone := hlaid.proper.done_eq_nil hlits hrun
      constructor
      · rw [hlaid.lastMarker_eq, position, hdone]
        rfl
      · rw [hlaid.markerBlock_eq, hlits, hrun, hlaid.proper.last_bounded.bit_of_run hrun]
        exact marker_zero

theorem layout_clean (done : List (Segment Block)) (last : Segment Block) (bit : Bool)
    (full run : Nat) :
    layout ⟨done ++ last :: replicate full ⟨bit, markerCleanMax, []⟩, ⟨bit, run, []⟩⟩ =
      layout ⟨done, last⟩ ++ replicate full (marker bit markerCleanMax 0) ++
        [marker bit run 0] := by
  have hfull : (replicate full (⟨bit, markerCleanMax, []⟩ : Segment Block)).flatMap encode =
      replicate full (marker bit markerCleanMax 0) := by
    rw [flatMap_replicate]
    simp [encode]
  rw [layout_eq, layout_eq, flatMap_append, flatMap_cons, hfull]
  simp [encode]

theorem Laid.newMarkers (hlaid : Laid bm segments [])
    (hclosed : Segments.Closed coding segments bit) (count : Nat) :
    Laid (bm.newMarkers bit (count + 1))
      ((replicate (count + 1) (coding.clean bit)).foldl (add coding) segments)
      [] := by
  have hproper := hlaid.proper.foldl_add (replicate (count + 1) (coding.clean bit))
  have hmax : coding.maxRun = markerCleanMax := rfl
  have hpos : 0 < markerCleanMax := coding.maxRun_pos
  rw [foldl_clean_close hclosed count, hmax] at hproper ⊢
  -- A marker without dirty blocks has no dirty count already.
  have hsame : (if bm.lastMarker = bm.blocks.length - 1 then
      bm.setMarker (setMarkerNumDirty bm.markerBlock 0) else bm).blocks = layout segments := by
    split
    next hlast =>
      have hlits : segments.last.literals = [] := by
        rw [hlaid.length_blocks] at hlast
        rw [← length_eq_zero_iff]
        omega
      rw [hlaid.blocks_setMarker, hlaid.markerBlock_eq, setMarkerNumDirty_marker (by decide),
        layout_eq, encode, hlits]
      rfl
    · rw [hlaid.blocks_eq, append_nil]
  have hblocks : (bm.newMarkers bit (count + 1)).blocks =
      layout segments ++ replicate (count / markerCleanMax) (marker bit markerCleanMax 0) ++
        [marker bit (count % markerCleanMax + 1) 0] := by
    simp only [EwahBitmap.newMarkers, hsame]
    rw [show markerCleanMask = marker false markerCleanMax 0 by decide, setMarkerType_marker,
      ← marker_zero]
    have hlt := Nat.mod_lt count hpos
    rcases Nat.lt_or_ge (count % markerCleanMax + 1) markerCleanMax with hless | hge
    · have hmod : (count + 1) % markerCleanMax = count % markerCleanMax + 1 := by
        rw [← Nat.mod_add_mod, Nat.mod_eq_of_lt hless]
      have hdiv : (count + 1) / markerCleanMax = count / markerCleanMax := by
        rw [Nat.succ_div_of_not_dvd]
        omega
      rw [hmod, hdiv, if_pos (by omega), setMarkerNumClean_marker (by omega), setMarkerType_marker]
    · have heq : count % markerCleanMax + 1 = markerCleanMax := by omega
      have hmod : (count + 1) % markerCleanMax = 0 := by
        rw [← Nat.mod_add_mod, heq, Nat.mod_self]
      have hdiv : (count + 1) / markerCleanMax = count / markerCleanMax + 1 :=
        Nat.succ_div_of_dvd (Nat.dvd_of_mod_eq_zero hmod)
      rw [hdiv, if_neg (by omega), heq, append_nil, replicate_succ', append_assoc]
  rw [← layout_clean] at hblocks
  constructor
  · exact hproper
  · rw [hblocks, append_nil]
  · have hmarker : (bm.newMarkers bit (count + 1)).lastMarker =
        (bm.newMarkers bit (count + 1)).blocks.length - 1 := rfl
    rw [hmarker, hblocks, layout_eq, length_append]
    exact Nat.add_sub_cancel _ _

/-- The reused marker counts more clean blocks. -/
theorem Reusable.foldl_clean (hreuse : Reusable segments bit)
    (hle : segments.last.run + fill ≤ markerCleanMax) (hfill : 0 < fill ∨ segments.last.bit = bit) :
    (replicate fill (coding.clean bit)).foldl (add coding) segments =
      { segments with last := ⟨bit, segments.last.run + fill, []⟩ } := by
  obtain ⟨hlits, hcases⟩ := hreuse
  obtain ⟨done, type, run, literals⟩ := segments
  subst hlits
  by_cases hbit : type = bit
  · subst hbit
    exact foldl_clean_extend type fill run hle done
  · have hrun := hcases.resolve_left hbit
    subst hrun
    rw [Nat.zero_add] at hle ⊢
    exact foldl_clean_start bit (hfill.resolve_right hbit) hle rfl rfl

theorem Laid.reuseMarker (hlaid : Laid bm segments []) (hreuse : Reusable segments bit)
    (hle : segments.last.run + fill ≤ markerCleanMax) (hfill : 0 < fill ∨ segments.last.bit = bit) :
    Laid (bm.setMarker (setMarkerType
        (setMarkerNumClean bm.markerBlock (segments.last.run + fill)) bit))
      { segments with last := ⟨bit, segments.last.run + fill, []⟩ } [] := by
  have hproper := hlaid.proper.foldl_add (replicate fill (coding.clean bit))
  rw [hreuse.foldl_clean hle hfill] at hproper
  have hset := hlaid.setMarker hproper hreuse.1.symm
  rw [hlaid.markerBlock_eq, setMarkerNumClean_marker hle, setMarkerType_marker, hreuse.1]
  exact hset

theorem Laid.appendCleanBlocks (hlaid : Laid bm segments []) (bit : Bool) {count : Nat}
    (hcount : 0 < count) : Laid (bm.appendCleanBlocks bit count)
      ((replicate count (coding.clean bit)).foldl (add coding) segments) [] := by
  have hbounded := hlaid.proper.last_bounded
  have hpos : 0 < markerCleanMax := coding.maxRun_pos
  rw [EwahBitmap.appendCleanBlocks, EwahBitmap.reuseMarker]
  by_cases hreuse : Reusable segments bit
  · simp only [(hlaid.reusable_iff bit).mpr hreuse, if_true, hlaid.numClean_eq]
    have hrun : segments.last.run ≤ markerCleanMax := hbounded.run_le
    generalize hfill : min (markerCleanMax - segments.last.run) count = fill
    have hle : segments.last.run + fill ≤ markerCleanMax := by omega
    have hsome : 0 < fill ∨ segments.last.bit = bit := by
      rcases hreuse.2 with hbit | hzero
      · exact Or.inr hbit
      · exact Or.inl (by omega)
    have hreused := hlaid.reuseMarker hreuse hle hsome
    have hsplit : replicate count (coding.clean bit) =
        replicate fill (coding.clean bit) ++
          replicate (count - fill) (coding.clean bit) := by
      rw [replicate_append_replicate, Nat.add_sub_cancel' (by omega)]
    rw [hsplit, foldl_append, hreuse.foldl_clean hle hsome]
    split
    next hrest =>
      have hfull : segments.last.run + fill = markerCleanMax := by omega
      obtain ⟨rest, hrest⟩ : ∃ n, count - fill = n + 1 := ⟨count - fill - 1, by omega⟩
      rw [hrest]
      apply hreused.newMarkers
      right
      rw [hfull]
      exact ⟨Nat.ne_of_gt hpos, Or.inr rfl⟩
    next hrest =>
      rw [Nat.eq_zero_of_not_pos hrest]
      exact hreused
  · have hclosed : Segments.Closed coding segments bit := by
      by_cases hlits : segments.last.literals = []
      · right
        refine ⟨fun hrun => hreuse ⟨hlits, Or.inr hrun⟩, Or.inl ?_⟩
        exact fun hbit => hreuse ⟨hlits, Or.inl hbit.symm⟩
      · exact Or.inl hlits
    simp only [mt (hlaid.reusable_iff bit).mp hreuse]
    obtain ⟨count, rfl⟩ : ∃ n, count = n + 1 := ⟨count - 1, by omega⟩
    exact hlaid.newMarkers hclosed count

theorem numBits_appendCleanBlocks (bm : EwahBitmap) (bit : Bool) (count : Nat) :
    (bm.appendCleanBlocks bit count).numBits = bm.numBits := by
  simp only [appendCleanBlocks, reuseMarker, newMarkers]
  repeat' split
  all_goals rfl

end Laid

end EwahBitmap

end Vast
