import Mathlib.Data.List.Induction

/-! # Segments of runs and literals

A sequence of words is compressed into segments. A segment has a run of equal clean
words and a number of literal words behind it, and both are limited. Words are added
one by one, so that the segments are a function of the words.
-/

namespace Foundation

open List Nat

/-- The clean words, one for each bit, and the limits of a segment. -/
structure Coding (α : Type*) where
  clean : Bool → α
  kind : α → Option Bool
  kind_eq_some : ∀ {word bit}, kind word = some bit ↔ word = clean bit
  maxRun : Nat
  maxLiterals : Nat
  maxRun_pos : 0 < maxRun
  maxLiterals_pos : 0 < maxLiterals

structure Segment (α : Type*) where
  bit : Bool
  run : Nat
  literals : List α

/-- All segments, of which the last one can still grow. -/
structure Segments (α : Type*) where
  done : List (Segment α)
  last : Segment α

variable {α : Type*}

namespace Segments

def empty : Segments α where
  done := []
  last := ⟨false, 0, []⟩

def close (segments : Segments α) (next : Segment α) : Segments α where
  done := segments.done ++ [segments.last]
  last := next

/-- Add a word. A clean word extends the last run if there are no literals behind it, and
a literal is added to the last segment. -/
def add (coding : Coding α) (segments : Segments α) (word : α) : Segments α :=
  match coding.kind word with
  | some bit =>
    if segments.last.literals = [] ∧ segments.last.run = 0 then
      { segments with last := ⟨bit, 1, []⟩ }
    else if segments.last.literals = [] ∧ bit = segments.last.bit ∧
        segments.last.run ≠ coding.maxRun then
      { segments with last := ⟨bit, segments.last.run + 1, []⟩ }
    else segments.close ⟨bit, 1, []⟩
  | none =>
    if segments.last.literals.length = coding.maxLiterals then
      segments.close ⟨false, 0, [word]⟩
    else
      { segments with
        last := { segments.last with literals := segments.last.literals ++ [word] } }

def compress (coding : Coding α) (words : List α) : Segments α :=
  words.foldl (add coding) empty

theorem compress_append (coding : Coding α) (words : List α) (more : List α) :
    compress coding (words ++ more) = more.foldl (add coding) (compress coding words) := by
  rw [compress, compress, foldl_append]

end Segments

/-! ## Words of segments -/

def Segment.words (coding : Coding α) (segment : Segment α) : List α :=
  List.replicate segment.run (coding.clean segment.bit) ++ segment.literals

/-- What the counters can hold; without a run there is no bit to remember. -/
structure Segment.Bounded (coding : Coding α) (segment : Segment α) : Prop where
  run_le : segment.run ≤ coding.maxRun
  literals_le : segment.literals.length ≤ coding.maxLiterals
  kind_literals : ∀ word ∈ segment.literals, coding.kind word = none
  bit_of_run : segment.run = 0 → segment.bit = false

namespace Segments

variable {coding : Coding α} {segments : Segments α} {bit : Bool}

def toList (segments : Segments α) : List (Segment α) :=
  segments.done ++ [segments.last]

/-- Only the first segment may have no words. -/
structure Proper (coding : Coding α) (segments : Segments α) : Prop where
  bounded : ∀ segment ∈ segments.toList, segment.Bounded coding
  nonempty : ∀ segment ∈ segments.toList.tail, segment.run ≠ 0 ∨ segment.literals ≠ []

def words (coding : Coding α) (segments : Segments α) : List α :=
  segments.toList.flatMap (Segment.words coding)

theorem words_eq (coding : Coding α) (segments : Segments α) : segments.words coding =
      segments.done.flatMap (Segment.words coding) ++ segments.last.words coding := by
  simp [words, toList]

theorem words_add (word : α) :
    (segments.add coding word).words coding = segments.words coding ++ [word] := by
  rw [add]
  split
  next bit hkind =>
    obtain rfl := coding.kind_eq_some.mp hkind
    split
    next hempty => simp [words_eq, Segment.words, hempty]
    · split
      next hextend =>
        simp [words_eq, Segment.words, hextend, replicate_succ']
      · simp [words_eq, close, Segment.words]
  · split
    · simp [words_eq, close, Segment.words]
    · simp [words_eq, Segment.words]

theorem words_compress (words : List α) : (compress coding words).words coding = words := by
  induction words using reverseRecOn with
  | nil => rfl
  | append_singleton words word ih =>
    rw [compress_append]
    exact (words_add word).trans (congrArg (· ++ [word]) ih)

/-! ## Proper segments -/

theorem proper_empty : Proper coding empty := by
  constructor
  · intro segment hmem
    rw [mem_singleton.mp hmem]
    constructor <;> simp [empty]
  · intro segment hmem
    cases hmem

section

variable (hproper : Proper coding segments)

include hproper

theorem Proper.last_bounded : segments.last.Bounded coding :=
  hproper.bounded _ (by simp [toList])

theorem Proper.with_last {last : Segment α}
    (hbounded : last.Bounded coding) (hne : last.run ≠ 0 ∨ last.literals ≠ []) :
    Proper coding { segments with last := last } := by
  constructor
  · intro segment hmem
    rcases mem_append.mp hmem with hdone | hlast
    · exact hproper.bounded segment (mem_append_left _ hdone)
    · rw [mem_singleton.mp hlast]
      exact hbounded
  · intro segment hmem
    cases hdone : segments.done with
    | nil =>
      rw [hdone] at hmem
      cases hmem
    | cons first rest =>
      rw [toList, hdone] at hmem
      rcases mem_append.mp hmem with hrest | hlast
      · apply hproper.nonempty
        rw [toList, hdone]
        exact mem_append_left _ hrest
      · rw [mem_singleton.mp hlast]
        exact hne

theorem Proper.close {next : Segment α}
    (hbounded : next.Bounded coding) (hne : next.run ≠ 0 ∨ next.literals ≠ []) :
    Proper coding (segments.close next) := by
  have hlist : (segments.close next).toList = segments.toList ++ [next] := rfl
  constructor
  · intro segment hmem
    rcases mem_append.mp hmem with hold | hnew
    · exact hproper.bounded segment hold
    · rw [mem_singleton.mp hnew]
      exact hbounded
  · intro segment hmem
    rw [hlist, tail_append_of_ne_nil (by simp [toList])] at hmem
    rcases mem_append.mp hmem with hold | hnew
    · exact hproper.nonempty segment hold
    · rw [mem_singleton.mp hnew]
      exact hne

theorem Proper.add (word : α) : Proper coding (segments.add coding word) := by
  have hlast := hproper.last_bounded
  have hrun := coding.maxRun_pos
  have hlits := coding.maxLiterals_pos
  have hfresh : ∀ bit, (⟨bit, 1, []⟩ : Segment α).Bounded coding := by
    intro bit
    constructor <;> simp
    exact hrun
  rw [Segments.add]
  split
  next bit hkind =>
    split
    · exact hproper.with_last (hfresh bit) (by simp)
    · split
      next hextend =>
        apply hproper.with_last _ (by simp)
        constructor
        · exact Nat.lt_of_le_of_ne hlast.run_le hextend.2.2
        · simp
        · simp
        · simp
      · exact hproper.close (hfresh bit) (by simp)
  next hkind =>
    split
    · apply hproper.close _ (by simp)
      constructor <;> simp
      · exact hlits
      · exact hkind
    next hlen =>
      apply hproper.with_last _ (by simp)
      constructor
      · exact hlast.run_le
      · have hle := hlast.literals_le
        simp only [length_append, length_singleton]
        omega
      · intro literal hmem
        rcases mem_append.mp hmem with hold | hnew
        · exact hlast.kind_literals literal hold
        · rw [mem_singleton.mp hnew]
          exact hkind
      · exact hlast.bit_of_run

theorem Proper.foldl_add (words : List α) :
    Proper coding (words.foldl (Segments.add coding) segments) := by
  apply foldlRecOn words _ hproper
  intro state hstate word _
  exact hstate.add word

theorem Proper.done_eq_nil
    (hlits : segments.last.literals = []) (hrun : segments.last.run = 0) : segments.done = [] := by
  cases hdone : segments.done with
  | nil => rfl
  | cons first rest =>
    have hmem : segments.last ∈ segments.toList.tail := by
      simp [toList, hdone]
    rcases hproper.nonempty _ hmem with hne | hne
    · exact absurd hrun hne
    · exact absurd hlits hne

end

theorem proper_compress (words : List α) : Proper coding (compress coding words) := by
  induction words using reverseRecOn with
  | nil => exact proper_empty
  | append_singleton words word ih =>
    rw [compress_append]
    exact ih.add word

/-! ## Runs of clean words -/

theorem kind_clean (bit : Bool) : coding.kind (coding.clean bit) = some bit :=
  coding.kind_eq_some.mpr rfl

/-- Clean words extend a run as long as it does not reach its limit. -/
theorem foldl_clean_extend (bit : Bool) (count run : Nat) (hle : run + count ≤ coding.maxRun)
    (done : List (Segment α)) :
    (replicate count (coding.clean bit)).foldl (add coding) ⟨done, ⟨bit, run, []⟩⟩ =
      ⟨done, ⟨bit, run + count, []⟩⟩ := by
  induction count generalizing run with
  | zero => rfl
  | succ count ih =>
    have hadd : add coding ⟨done, ⟨bit, run, []⟩⟩ (coding.clean bit) =
        ⟨done, ⟨bit, run + 1, []⟩⟩ := by
      have hne : run ≠ coding.maxRun := by omega
      simp only [add, kind_clean]
      rcases Nat.eq_zero_or_pos run with rfl | hpos
      · simp
      · simp [hne]
    rw [replicate_succ, foldl_cons, hadd, ih (run + 1) (by omega)]
    congr 2
    omega

/-- Clean words start a run if there are no words yet. -/
theorem foldl_clean_start (bit : Bool) {count : Nat} (hpos : 0 < count)
    (hle : count ≤ coding.maxRun) (hlits : segments.last.literals = [])
    (hrun : segments.last.run = 0) :
    (replicate count (coding.clean bit)).foldl (add coding) segments =
      { segments with last := ⟨bit, count, []⟩ } := by
  obtain ⟨count, rfl⟩ : ∃ n, count = n + 1 := ⟨count - 1, by omega⟩
  simp only [replicate_succ, foldl_cons, add, kind_clean]
  rw [if_pos ⟨hlits, hrun⟩, foldl_clean_extend bit count 1 (by omega), Nat.add_comm]

/-- The run of the last segment does not take another clean word. -/
def Closed (coding : Coding α) (segments : Segments α) (bit : Bool) : Prop :=
  segments.last.literals ≠ [] ∨
    segments.last.run ≠ 0 ∧ (bit ≠ segments.last.bit ∨ segments.last.run = coding.maxRun)

theorem Closed.add (hclosed : Closed coding segments bit) :
    segments.add coding (coding.clean bit) = segments.close ⟨bit, 1, []⟩ := by
  simp only [Segments.add, kind_clean]
  rw [if_neg, if_neg]
  · intro ⟨hlits, hbit, hrun⟩
    rcases hclosed with hne | ⟨-, hne | heq⟩
    · exact hne hlits
    · exact hne hbit
    · exact hrun heq
  · intro ⟨hlits, hrun⟩
    rcases hclosed with hne | ⟨hne, -⟩
    · exact hne hlits
    · exact hne hrun

/-- The new segments of a number of clean words: full ones and the last one. -/
theorem foldl_clean_close (hclosed : Closed coding segments bit) (count : Nat) :
    (replicate (count + 1) (coding.clean bit)).foldl (add coding) segments =
      ⟨segments.done ++ segments.last ::
          replicate (count / coding.maxRun) ⟨bit, coding.maxRun, []⟩,
        ⟨bit, count % coding.maxRun + 1, []⟩⟩ := by
  have hmax := coding.maxRun_pos
  induction count using Nat.strongRecOn generalizing segments with
  | ind count ih =>
    rw [replicate_succ, foldl_cons, hclosed.add, close]
    rcases Nat.lt_or_ge count coding.maxRun with hlt | hge
    · rw [foldl_clean_extend bit count 1 (by omega), div_eq_of_lt hlt, mod_eq_of_lt hlt]
      congr 2
      omega
    · -- Fill up the new segment, which then is closed.
      obtain ⟨rest, rfl⟩ : ∃ rest, count = coding.maxRun - 1 + (rest + 1) :=
        ⟨count - coding.maxRun, by omega⟩
      rw [← replicate_append_replicate, foldl_append,
        foldl_clean_extend bit (coding.maxRun - 1) 1 (by omega)]
      have hfull : 1 + (coding.maxRun - 1) = coding.maxRun := by omega
      rw [hfull]
      have hrest : coding.maxRun - 1 + (rest + 1) = rest + coding.maxRun := by omega
      rw [ih rest (by omega) (Or.inr ⟨Nat.ne_of_gt hmax, Or.inr rfl⟩), hrest,
        add_div_right _ hmax, add_mod_right, replicate_succ, append_assoc, singleton_append]

/-! ## Complements -/

section Complement

variable (complement : α → α)

/-- The complement of a segment. Without a run there is no bit to complement. -/
def flipSegment (segment : Segment α) : Segment α where
  bit := if segment.run = 0 then segment.bit else !segment.bit
  run := segment.run
  literals := segment.literals.map complement

def flip (segments : Segments α) : Segments α where
  done := segments.done.map (flipSegment complement)
  last := flipSegment complement segments.last

variable {complement}

theorem flip_close (next : Segment α) : (segments.close next).flip complement =
      (segments.flip complement).close (flipSegment complement next) := by
  simp [flip, close]

theorem flip_add (hkind : ∀ word, coding.kind (complement word) = (coding.kind word).map (!·))
    (word : α) : (segments.add coding word).flip complement =
      (segments.flip complement).add coding (complement word) := by
  have hlits : (segments.flip complement).last.literals = [] ↔
      segments.last.literals = [] := by
    simp [flip, flipSegment]
  cases hword : coding.kind word with
  | none =>
    have hflipped : coding.kind (complement word) = none := by rw [hkind, hword]; rfl
    simp only [add, hword, hflipped]
    have hlen : (segments.flip complement).last.literals.length =
        segments.last.literals.length := by
      simp [flip, flipSegment]
    rw [hlen]
    split
    · rw [flip_close]
      simp [flipSegment]
    · simp [flip, flipSegment]
  | some bit =>
    have hflipped : coding.kind (complement word) = some (!bit) := by rw [hkind, hword]; rfl
    simp only [add, hword, hflipped, hlits]
    have hrun : (segments.flip complement).last.run = segments.last.run := rfl
    rw [hrun]
    split
    · simp [flip, flipSegment]
    next hne =>
      have hbit : segments.last.literals = [] → (segments.flip complement).last.bit =
          !segments.last.bit := by
        intro hnil
        have hpos : segments.last.run ≠ 0 := fun hzero => hne ⟨hnil, hzero⟩
        simp [flip, flipSegment, hpos]
      by_cases hextend : segments.last.literals = [] ∧ bit = segments.last.bit ∧
          segments.last.run ≠ coding.maxRun
      · rw [if_pos hextend, if_pos ⟨hextend.1, by rw [hbit hextend.1, hextend.2.1], hextend.2.2⟩]
        simp [flip, flipSegment]
      · rw [if_neg hextend, if_neg]
        · rw [flip_close]
          simp [flipSegment]
        · intro ⟨hnil, heq, hmax⟩
          rw [hbit hnil] at heq
          exact hextend ⟨hnil, Bool.not_inj heq, hmax⟩

theorem flip_compress (hkind : ∀ word, coding.kind (complement word) = (coding.kind word).map (!·))
    (words : List α) :
    (compress coding words).flip complement = compress coding (words.map complement) := by
  induction words using reverseRecOn with
  | nil => rfl
  | append_singleton words word ih =>
    rw [map_append, compress_append, compress_append, ← ih]
    exact flip_add hkind word

end Complement

end Segments

end Foundation
