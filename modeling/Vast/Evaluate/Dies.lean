import Vast.Evaluate.Expression
import Vast.Query.Visitors

/-! # Evaluations that die

The program dies on a predicate that is not bound to the slice. The evaluation does
not get to all predicates: a conjunction stops when no id is left, and a disjunction
when all ids are matched. If all predicates are bound, then it does not matter which ones
it gets to.
-/

namespace Vast

open Foundation

namespace Evaluate

variable [Regex] (slice : TableSlice)

/-! ## Bitmaps -/

/-- Whether a predicate cannot be evaluated for a selection. A column is looked up only
if something is selected. -/
def predicateDies (predicate : Predicate) (selection : Bitmap) : Bool :=
  match predicate.lhs, predicate.rhs with
  | .metaExtractor _, .data _ => false
  | .dataExtractor _ column, .data _ =>
    selection.any && decide ((RecordType.leaves slice.schema.fields).length ≤ column)
  | _, _ => true

mutual

/-- Whether the evaluation gets to a predicate that cannot be evaluated. -/
def dies : Expression → Bitmap → Bool
  | .none, _ => false
  | .negation operand, selection => dies operand selection
  | .conjunction operands, selection => diesConjunction operands selection
  | .disjunction operands, selection => diesDisjunction operands selection
  | .predicate predicate, selection => predicateDies slice predicate selection

def diesConjunction : List Expression → Bitmap → Bool
  | [], _ => false
  | operand :: rest, selection =>
    if !selection.any then false
    else dies operand selection ||
      diesConjunction rest (evaluateExpression slice operand selection)

def diesDisjunction : List Expression → Bitmap → Bool
  | [], _ => false
  | operand :: rest, mask =>
    if !mask.any then false
    else dies operand mask ||
      diesDisjunction rest (mask.and (evaluateExpression slice operand mask).flip)

end

/-- The ids of the rows that match, unless the program dies. -/
def evaluateChecked (expression : Expression) (hints : Bitmap) : Option Bitmap :=
  if dies slice expression (initialSelection slice hints) then none
  else some (evaluate slice expression hints)

/-! ## Bound predicates -/

/-- Whether a predicate compares metadata or a column of the schema with a literal. -/
def isBound (schema : VastType) (predicate : Predicate) : Bool :=
  match predicate.lhs, predicate.rhs with
  | .metaExtractor _, .data _ => true
  | .dataExtractor _ column, .data _ => decide (column < (RecordType.leaves schema.fields).length)
  | _, _ => false

variable {slice}

omit [Regex] in
theorem not_predicateDies {predicate : Predicate} (hbound : isBound slice.schema predicate = true)
    (selection : Bitmap) : predicateDies slice predicate selection = false := by
  unfold isBound at hbound
  unfold predicateDies
  split at hbound
  · rfl
  · rw [decide_eq_true_eq] at hbound
    simp [hbound]
  · cases hbound

mutual

/-- The evaluation of an expression in which all predicates are bound does not die. -/
theorem not_dies : ∀ (expr : Expression), (∀ predicate ∈ expr.predicates,
    isBound slice.schema predicate = true) → ∀ selection, dies slice expr selection = false
  | .none, _, _ => rfl
  | .negation operand, hbound, selection => by
    rw [dies]
    exact not_dies operand hbound selection
  | .conjunction operands, hbound, selection => by
    rw [dies]
    exact (not_diesConnective operands hbound selection).1
  | .disjunction operands, hbound, selection => by
    rw [dies]
    exact (not_diesConnective operands hbound selection).2
  | .predicate predicate, hbound, selection => by
    rw [dies]
    exact not_predicateDies (hbound predicate (List.mem_singleton_self _)) selection

theorem not_diesConnective : ∀ operands : List Expression,
    (∀ predicate ∈ Expression.predicatesList operands, isBound slice.schema predicate = true) →
      ∀ selection, diesConjunction slice operands selection = false ∧
        diesDisjunction slice operands selection = false
  | [], _, _ => ⟨rfl, rfl⟩
  | operand :: rest, hbound, selection => by
    obtain ⟨hop, hrest⟩ := List.forall_mem_append.mp hbound
    rw [diesConjunction, diesDisjunction, not_dies operand hop,
      (not_diesConnective rest hrest _).1, (not_diesConnective rest hrest _).2]
    simp

end

end Evaluate

end Vast
