import Mathlib.Data.List.Perm.Basic
import Vast.Bitmap.BinaryEval

/-! # Operations on many bitmaps

The two smallest bitmaps are combined until one is left. The order does not matter, because the
operations on bits are commutative and associative, and shorter bitmaps are padded with zeros.
-/

namespace Vast

open Foundation List Bitmap Bool

/-- A priority queue with a smallest element at the top. Which one this is among elements of
the same size, is not known. -/
structure SizeQueue {β : Type*} (size : β → Nat) where
  emplace : List β → β → List β
  pop : List β → Option (β × List β)
  emplace_perm (queue : List β) (element : β) : (emplace queue element).Perm (element :: queue)
  pop_nil : pop [] = none
  pop_perm (queue : List β) : queue ≠ [] → ∃ top rest, pop queue = some (top, rest) ∧
    (top :: rest).Perm queue ∧ ∀ element ∈ rest, size top ≤ size element

section NaryEval

variable {β : Type*} {size : β → Nat} (queue : SizeQueue size) (op : β → β → β)

/-- The evaluation of a queue, which takes as many steps as there are elements. -/
def naryEvalLoop (empty : β) : Nat → List β → β
  | 0, _ => empty
  | steps + 1, elements =>
    match queue.pop elements with
    | none => empty
    | some (lhs, rest) =>
      match queue.pop rest with
      | none => lhs
      | some (rhs, rest) => naryEvalLoop empty steps (queue.emplace rest (op lhs rhs))

def naryEval (empty : β) (bitmaps : List β) : β :=
  naryEvalLoop queue op empty bitmaps.length (bitmaps.foldl queue.emplace [])

variable {queue op} {γ : Type*} {f : γ → γ → γ} [Std.Associative f] [Std.Commutative f]
  {bits : β → γ} (hop : ∀ lhs rhs, bits (op lhs rhs) = f (bits lhs) (bits rhs)) (empty : β)

/-- What the elements combine to, if there are any. -/
def combined (f : γ → γ → γ) (bits : β → γ) (elements : List β) : Option γ :=
  (elements.map fun element => some (bits element)).foldl (Option.merge f) none

theorem combined_perm {elements others : List β} (hperm : elements.Perm others) :
    combined f bits elements = combined f bits others :=
  (hperm.map _).foldl_op_eq

include hop

/-- Every step keeps what the elements combine to. -/
theorem naryEvalLoop_eq {steps : Nat} {elements : List β} (hne : elements ≠ [])
    (hsteps : elements.length ≤ steps) :
    some (bits (naryEvalLoop queue op empty steps elements)) = combined f bits elements := by
  induction steps generalizing elements with
  | zero => exact absurd (length_eq_zero_iff.mp (Nat.le_zero.mp hsteps)) hne
  | succ steps ih =>
    obtain ⟨lhs, others, hpop, hperm, -⟩ := queue.pop_perm elements hne
    rw [← combined_perm hperm]
    simp only [naryEvalLoop, hpop]
    by_cases hothers : others = []
    · rw [hothers, queue.pop_nil]
      rfl
    · obtain ⟨rhs, rest, hpop', hperm', -⟩ := queue.pop_perm others hothers
      have hpush := queue.emplace_perm rest (op lhs rhs)
      have hlength : (queue.emplace rest (op lhs rhs)).length ≤ steps := by
        have hlen := hperm.length_eq
        have hlen' := hperm'.length_eq
        rw [length_cons] at hlen hlen'
        rw [hpush.length_eq, length_cons]
        omega
      simp only [hpop']
      rw [ih (ne_nil_of_mem (hpush.mem_iff.mpr mem_cons_self)) hlength, combined_perm hpush,
        ← combined_perm (hperm'.cons lhs)]
      simp [combined, hop]

theorem naryEval_eq (first : β) (rest : List β) :
    bits (naryEval queue op empty (first :: rest)) = bits (rest.foldl op first) := by
  have hfill : ∀ xs elements : List β, (xs.foldl queue.emplace elements).Perm (xs ++ elements) := by
    intro xs
    induction xs with
    | nil => exact fun elements => Perm.refl elements
    | cons x xs ih =>
      intro elements
      exact (ih _).trans (((queue.emplace_perm elements x).append_left xs).trans perm_middle)
  have hqueue := hfill (first :: rest) []
  rw [append_nil] at hqueue
  have hfold : combined f bits (first :: rest) = some (bits (rest.foldl op first)) := by
    rw [combined, map_cons, foldl_cons, foldl_map]
    exact foldl_hom (fun element => some (bits element)) fun lhs rhs => by simp [hop]
  apply Option.some.inj
  rw [← hfold, ← combined_perm hqueue]
  exact naryEvalLoop_eq hop empty (ne_nil_of_mem (hqueue.mem_iff.mpr mem_cons_self))
    hqueue.length_eq.le

end NaryEval

/-! ## Bitmaps -/

/-- A kind of bitmaps that are operands as well as results, as long as their number of bits
fits into a machine word. -/
structure BitmapType (β : Type*) extends ResultType β where
  operand : ∀ {bm bits}, Represents bm bits → bits.length < 2 ^ 64 → BitmapOperand
  contents_operand : ∀ {bm bits} (hrep : Represents bm bits) (hlt : bits.length < 2 ^ 64),
    (operand hrep hlt).contents = bits

structure SizedBitmap {β : Type*} (type : BitmapType β) where
  bitmap : β
  bits : Bitmap
  represents : type.Represents bitmap bits
  length_lt : bits.length < 2 ^ 64

namespace SizedBitmap

variable {β : Type*} {type : BitmapType β} {f : Bool → Bool → Bool}
  {op : Bitmap → Bitmap → Bitmap} (hop : Bitmap.Combines f op) (hf : f false false = false)
  (bm lhs rhs : SizedBitmap type)

def operand : BitmapOperand :=
  type.operand bm.represents bm.length_lt

def size : Nat :=
  bm.operand.size

theorem contents_eq : bm.operand.contents = bm.bits :=
  type.contents_operand bm.represents bm.length_lt

theorem size_eq : bm.operand.size = bm.bits.length := by
  rw [← contents_eq]
  exact bm.operand.size_eq

/-- The result of an operation, and its bits. -/
def ofComputes (result : β)
    (hres : Computes type.toResultType result f lhs.operand rhs.operand) : SizedBitmap type where
  bitmap := result
  bits := op lhs.bits rhs.bits
  represents := by
    obtain ⟨bits, hrep, -, hlen, htest⟩ := hres
    have heq : bits = op lhs.bits rhs.bits := by
      apply Bitmap.ext
      · rw [hlen, hop.length, size_eq, size_eq]
      · intro index
        rw [htest, hop.test_eq hf, contents_eq, contents_eq]
    exact heq ▸ hrep
  length_lt := by
    rw [hop.length]
    exact Nat.max_lt.mpr ⟨lhs.length_lt, rhs.length_lt⟩

def and : SizedBitmap type :=
  ofComputes Bitmap.combines_and rfl lhs rhs (binaryAnd _ lhs.operand rhs.operand)
    (computes_binaryEval _ (fun _ _ _ _ => BitVec.getLsbD_and) (by decide) (by decide) _ _)

def or : SizedBitmap type :=
  ofComputes Bitmap.combines_or rfl lhs rhs (binaryOr _ lhs.operand rhs.operand)
    (computes_binaryEval _ (fun _ _ _ _ => BitVec.getLsbD_or) (by decide) (by decide) _ _)

def xor : SizedBitmap type :=
  ofComputes Bitmap.combines_xor rfl lhs rhs (binaryXor _ lhs.operand rhs.operand)
    (computes_binaryEval _ (fun _ _ _ _ => BitVec.getLsbD_xor) (by decide) (by decide) _ _)

def empty : SizedBitmap type :=
  ⟨type.empty, [], type.represents_empty, by decide⟩

variable (queue : SizeQueue (@size β type)) (bitmaps : List (SizedBitmap type))

def naryAnd : SizedBitmap type :=
  naryEval queue and empty bitmaps

def naryOr : SizedBitmap type :=
  naryEval queue or empty bitmaps

def naryXor : SizedBitmap type :=
  naryEval queue xor empty bitmaps

include hop hf in
/-- Padding with zeros keeps an operation commutative and associative. -/
theorem contents_naryEval {combine : SizedBitmap type → SizedBitmap type → SizedBitmap type}
    (hbits : ∀ lhs rhs, (combine lhs rhs).bits = op lhs.bits rhs.bits)
    (hcomm : ∀ a b, f a b = f b a) (hassoc : ∀ a b c, f (f a b) c = f a (f b c))
    (first : SizedBitmap type) (rest : List (SizedBitmap type)) :
    (naryEval queue combine empty (first :: rest)).operand.contents =
      (rest.foldl combine first).operand.contents := by
  have : Std.Commutative op := by
    refine ⟨fun left right => ext ?_ fun index => ?_⟩
    · rw [hop.length, hop.length, Nat.max_comm]
    · rw [hop.test_eq hf, hop.test_eq hf, hcomm]
  have : Std.Associative op := by
    refine ⟨fun first second third => ext ?_ fun index => ?_⟩
    · rw [hop.length, hop.length, hop.length, hop.length, Nat.max_assoc]
    · rw [hop.test_eq hf, hop.test_eq hf, hop.test_eq hf, hop.test_eq hf, hassoc]
  rw [contents_eq, contents_eq]
  exact naryEval_eq hbits empty first rest

/-- The bits are those of the left fold, in whatever order the queue returns the bitmaps. -/
theorem nary_operations_eq_foldl (first : SizedBitmap type) (rest : List (SizedBitmap type)) :
    (naryAnd queue (first :: rest)).operand.contents = (rest.foldl and first).operand.contents ∧
      (naryOr queue (first :: rest)).operand.contents = (rest.foldl or first).operand.contents ∧
      (naryXor queue (first :: rest)).operand.contents =
        (rest.foldl xor first).operand.contents := by
  refine ⟨?_, ?_, ?_⟩
  · exact contents_naryEval combines_and rfl queue (fun _ _ => rfl) and_comm
      and_assoc first rest
  · exact contents_naryEval combines_or rfl queue (fun _ _ => rfl) or_comm
      or_assoc first rest
  · exact contents_naryEval combines_xor rfl queue (fun _ _ => rfl) xor_comm
      xor_assoc first rest

end SizedBitmap

end Vast
