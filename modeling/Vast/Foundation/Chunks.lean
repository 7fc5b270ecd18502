import Vast.Foundation.Segments

/-! # Maximal runs

A reader of compressed words does not see the segments but chunks: literals, and runs of
clean words that are as long as possible. The chunks are a function of the words, and a run
of the words is always inside of a single chunk.
-/

namespace Foundation

open List

inductive Chunk (α : Type*) where
  | run (bit : Bool) (count : Nat)
  | literal (word : α)

variable {α : Type*}

namespace Chunk

def words (coding : Coding α) : Chunk α → List α
  | run bit count => List.replicate count (coding.clean bit)
  | literal word => [word]

/-- Put a run in front, which is joined with a run of the same bit. -/
def pushRun (bit : Bool) (count : Nat) : List (Chunk α) → List (Chunk α)
  | run next more :: chunks =>
    if next = bit then run bit (count + more) :: chunks
    else run bit count :: run next more :: chunks
  | chunks => run bit count :: chunks

def push (coding : Coding α) (word : α) (chunks : List (Chunk α)) : List (Chunk α) :=
  match coding.kind word with
  | some bit => pushRun bit 1 chunks
  | none => literal word :: chunks

def split (coding : Coding α) (words : List α) : List (Chunk α) :=
  words.foldr (push coding) []

variable {coding : Coding α} {bit : Bool} {count : Nat} {chunks : List (Chunk α)}

/-! ## Runs in front -/

/-- The first chunk is a run that is at least as long, and the others were there. -/
theorem pushRun_eq (bit : Bool) (count : Nat) (chunks : List (Chunk α)) :
    ∃ more rest, pushRun bit count chunks = run bit (count + more) :: rest ∧ rest ⊆ chunks := by
  match chunks with
  | [] => exact ⟨0, [], rfl, Subset.refl _⟩
  | literal word :: chunks => exact ⟨0, literal word :: chunks, rfl, Subset.refl _⟩
  | run next more :: chunks =>
    rw [pushRun]
    split
    · exact ⟨more, chunks, rfl, subset_cons_self _ _⟩
    · exact ⟨0, run next more :: chunks, rfl, Subset.refl _⟩

theorem pushRun_pushRun (bit : Bool) (count more : Nat) (chunks : List (Chunk α)) :
    pushRun bit count (pushRun bit more chunks) = pushRun bit (count + more) chunks := by
  match chunks with
  | [] | literal word :: chunks => simp [pushRun]
  | run next most :: chunks =>
    by_cases hnext : next = bit
    · simp [pushRun, hnext, Nat.add_assoc]
    · simp [pushRun, hnext]

theorem pushRun_pushRun_of_ne {next : Bool} (hne : next ≠ bit) (more : Nat) :
    pushRun bit count (pushRun next more chunks) = run bit count :: pushRun next more chunks := by
  obtain ⟨most, rest, hpush, -⟩ := pushRun_eq next more chunks
  rw [hpush, pushRun, if_neg hne]

theorem words_pushRun : (pushRun bit count chunks).flatMap (words coding) =
      replicate count (coding.clean bit) ++ chunks.flatMap (words coding) := by
  match chunks with
  | [] | literal word :: chunks => simp [pushRun, words]
  | run next more :: chunks =>
    rw [pushRun]
    split
    next hnext => simp [words, hnext, ← replicate_append_replicate]
    · simp [words]

/-! ## Chunks of words -/

theorem split_cons (word : α) (words : List α) :
    split coding (word :: words) = push coding word (split coding words) := rfl

theorem split_literal {word : α} (hword : coding.kind word = none) (words : List α) :
    split coding (word :: words) = literal word :: split coding words := by
  rw [split_cons, push, hword]

theorem split_clean (bit : Bool) (words : List α) :
    split coding (coding.clean bit :: words) = pushRun bit 1 (split coding words) := by
  rw [split_cons, push, coding.kind_eq_some.mpr rfl]

/-- A run of words is put in front as a whole. -/
theorem split_replicate (bit : Bool) (hcount : 0 < count) (words : List α) :
    split coding (replicate count (coding.clean bit) ++ words) =
      pushRun bit count (split coding words) := by
  induction count with
  | zero => exact absurd hcount (Nat.lt_irrefl 0)
  | succ count ih =>
    rw [replicate_succ, cons_append, split_clean]
    rcases Nat.eq_zero_or_pos count with hzero | hpos
    · rw [hzero, replicate_zero, nil_append]
    · rw [ih hpos, pushRun_pushRun, Nat.add_comm]

theorem pushRun_split_replicate (bit : Bool) (count more : Nat) (words : List α) :
    pushRun bit count (split coding (replicate more (coding.clean bit) ++ words)) =
      pushRun bit (count + more) (split coding words) := by
  rcases Nat.eq_zero_or_pos more with rfl | hpos
  · rw [replicate_zero, nil_append, Nat.add_zero]
  · rw [split_replicate bit hpos, pushRun_pushRun]

theorem words_split (coding : Coding α) (words : List α) :
    (split coding words).flatMap (Chunk.words coding) = words := by
  induction words with
  | nil => rfl
  | cons word words ih =>
    rw [split_cons, push]
    split
    next bit hkind =>
      rw [words_pushRun, ih, coding.kind_eq_some.mp hkind]
      rfl
    · rw [flatMap_cons, ih, Chunk.words, singleton_append]

theorem pos_of_mem_push {word : α} (hpos : ∀ bit count, run bit count ∈ chunks → 0 < count) :
    ∀ bit count, run bit count ∈ push coding word chunks → 0 < count := by
  intro bit count hmem
  rw [push] at hmem
  split at hmem
  next next hkind =>
    obtain ⟨more, rest, hpush, hsubset⟩ := pushRun_eq next 1 chunks
    rw [hpush] at hmem
    rcases mem_cons.mp hmem with heq | hmem
    · cases heq
      omega
    · exact hpos bit count (hsubset hmem)
  · rcases mem_cons.mp hmem with heq | hmem
    · cases heq
    · exact hpos bit count hmem

theorem pos_of_mem_split {words : List α} :
    ∀ bit count, run bit count ∈ split coding words → 0 < count := by
  induction words with
  | nil =>
    intro bit count hmem
    cases hmem
  | cons word words ih => exact pos_of_mem_push ih

/-! ## Runs of words -/

theorem exists_run_push (coding : Coding α) (word : α) (hmem : run bit count ∈ chunks) :
    ∃ longer, count ≤ longer ∧ run bit longer ∈ push coding word chunks := by
  rw [push]
  split
  next next hkind =>
    match chunks, hmem with
    | literal other :: chunks, hmem =>
      exact ⟨count, Nat.le_refl _, mem_cons_of_mem _ hmem⟩
    | run other more :: chunks, hmem =>
      rw [pushRun]
      split
      next hother =>
        rcases mem_cons.mp hmem with heq | hmem
        · cases heq
          exact ⟨1 + count, Nat.le_add_left _ _, by rw [hother]; exact mem_cons_self⟩
        · exact ⟨count, Nat.le_refl _, mem_cons_of_mem _ hmem⟩
      · exact ⟨count, Nat.le_refl _, mem_cons_of_mem _ hmem⟩
  · exact ⟨count, Nat.le_refl _, mem_cons_of_mem _ hmem⟩

/-- A run of the words is inside of a chunk. -/
theorem exists_run_of_infix (hcount : 0 < count) (before after : List α) :
    ∃ longer, count ≤ longer ∧ run bit longer ∈
      split coding (before ++ (replicate count (coding.clean bit) ++ after)) := by
  induction before with
  | nil =>
    obtain ⟨more, rest, hpush, -⟩ := pushRun_eq bit count (split coding after)
    rw [nil_append, split_replicate bit hcount, hpush]
    exact ⟨count + more, Nat.le_add_right _ _, mem_cons_self⟩
  | cons word before ih =>
    obtain ⟨longer, hlonger, hmem⟩ := ih
    obtain ⟨longest, hlongest, hmem'⟩ := exists_run_push coding word hmem
    exact ⟨longest, Nat.le_trans hlonger hlongest, hmem'⟩

theorem infix_of_mem_split {words : List α} (hmem : run bit count ∈ split coding words) :
    ∃ before after, words = before ++ (replicate count (coding.clean bit) ++ after) := by
  obtain ⟨front, back, hsplit⟩ := append_of_mem hmem
  refine ⟨front.flatMap (Chunk.words coding), back.flatMap (Chunk.words coding), ?_⟩
  have hwords := words_split coding words
  rw [hsplit, flatMap_append] at hwords
  exact hwords.symm

end Chunk

end Foundation
