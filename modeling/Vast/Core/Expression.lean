import Vast.Core.Data
import Vast.Core.Operator
import Vast.Core.Type

/-! # Query expressions

Predicates compare an extractor with a literal. Expressions combine them by
conjunction, disjunction, and negation; the nil expression is the empty query.
-/

namespace Vast

inductive MetaExtractor where
  | type
  | importTime
  deriving DecidableEq, Repr

/-- One side of a predicate. Field and type extractors are resolved against a
schema into data extractors, which name a leaf column. -/
inductive Operand where
  | metaExtractor (kind : MetaExtractor)
  | fieldExtractor (field : String)
  | typeExtractor (type : VastType)
  | dataExtractor (type : VastType) (column : Nat)
  | data (value : Data)
  deriving DecidableEq

structure Predicate where
  lhs : Operand
  op : RelationalOperator
  rhs : Operand
  deriving DecidableEq

inductive Expression where
  | none
  | conjunction (operands : List Expression)
  | disjunction (operands : List Expression)
  | negation (operand : Expression)
  | predicate (predicate : Predicate)

namespace Expression

mutual

def beq : Expression → Expression → Bool
  | .none, .none => true
  | .conjunction as, .conjunction bs => beqList as bs
  | .disjunction as, .disjunction bs => beqList as bs
  | .negation a, .negation b => beq a b
  | .predicate a, .predicate b => a == b
  | _, _ => false

def beqList : List Expression → List Expression → Bool
  | [], [] => true
  | a :: as, b :: bs => beq a b && beqList as bs
  | _, _ => false

end

mutual

theorem beq_iff : ∀ a b : Expression, beq a b = true ↔ a = b
  | .none, b => by cases b <;> simp [beq]
  | .conjunction as, b | .disjunction as, b => by cases b <;> simp [beq, beqList_iff as]
  | .negation a, b => by cases b <;> simp [beq, beq_iff a]
  | .predicate _, b => by cases b <;> simp [beq]

theorem beqList_iff : ∀ as bs : List Expression, beqList as bs = true ↔ as = bs
  | [], bs => by cases bs <;> simp [beqList]
  | a :: as, bs => by cases bs <;> simp [beqList, beq_iff a, beqList_iff as]

end

instance : DecidableEq Expression :=
  fun a b => decidable_of_iff (beq a b = true) (beq_iff a b)

end Expression

inductive Connective where
  | all
  | any

namespace Connective

def apply : Connective → List Expression → Expression
  | .all => .conjunction
  | .any => .disjunction

/-- The operands of a connective of the same kind. Anything else is one operand. -/
def parts : Connective → Expression → List Expression
  | .all, .conjunction operands => operands
  | .any, .disjunction operands => operands
  | _, expression => [expression]

def combine : Connective → List Bool → Bool
  | .all, answers => answers.all id
  | .any, answers => answers.any id

/-- The answer that all operands have to give. -/
def unit : Connective → Bool
  | .all => true
  | .any => false

variable {kind : Connective} {answers : List Bool}

theorem combine_eq_unit :
    kind.combine answers = kind.unit ↔ ∀ answer ∈ answers, answer = kind.unit := by
  cases kind <;> simp [combine, unit]

theorem combine_eq_not_unit : kind.combine answers = !kind.unit ↔ (!kind.unit) ∈ answers := by
  cases kind <;> simp [combine, unit]

theorem parts_cases (kind : Connective) (expression : Expression) :
    kind.parts expression = [expression] ∨
      ∃ operands, expression = kind.apply operands ∧ kind.parts expression = operands := by
  cases kind <;> cases expression <;> simp [parts, apply]

end Connective

namespace Expression

variable {motive : Expression → Prop}

/-- Induction over expressions, with a hypothesis for every operand of a connective. -/
@[induction_eliminator]
theorem induct (none : motive .none)
    (connective : ∀ (kind : Connective) (operands : List Expression),
      (∀ operand ∈ operands, motive operand) → motive (kind.apply operands))
    (negation : ∀ operand, motive operand → motive (.negation operand))
    (predicate : ∀ pred, motive (.predicate pred)) (expression : Expression) : motive expression :=
  @rec motive (fun operands => ∀ operand ∈ operands, motive operand) none
    (connective .all) (connective .any) negation predicate (by simp)
    (fun _ _ hhead htail => List.forall_mem_cons.mpr ⟨hhead, htail⟩) expression

/-- Induction with a hypothesis for the operands of nested connectives of the same kind. -/
theorem induct_parts (none : motive .none)
    (connective : ∀ (kind : Connective) (operands : List Expression),
      (∀ part ∈ operands.flatMap kind.parts, motive part) → motive (kind.apply operands))
    (negation : ∀ operand, motive operand → motive (.negation operand))
    (predicate : ∀ pred, motive (.predicate pred)) (expression : Expression) :
    motive expression := by
  suffices hparts : motive expression ∧ ∀ kind : Connective, ∀ part ∈ kind.parts expression,
      motive part from hparts.1
  have hself : ∀ {expression : Expression} {kind : Connective},
      kind.parts expression = [expression] → motive expression →
      ∀ part ∈ kind.parts expression, motive part := by
    intro expression kind hparts hexpr
    rw [hparts]
    exact List.forall_mem_singleton.mpr hexpr
  induction expression with
  | none => exact ⟨none, fun kind => hself (by cases kind <;> rfl) none⟩
  | negation operand ih =>
    have hop := negation operand ih.1
    exact ⟨hop, fun kind => hself (by cases kind <;> rfl) hop⟩
  | predicate pred =>
    exact ⟨predicate pred, fun kind => hself (by cases kind <;> rfl) (predicate pred)⟩
  | connective kind operands ih =>
    have hops : motive (kind.apply operands) := by
      apply connective
      intro part hpart
      obtain ⟨operand, hop, hpart⟩ := List.mem_flatMap.mp hpart
      exact (ih operand hop).2 kind part hpart
    refine ⟨hops, fun other => ?_⟩
    cases kind <;> cases other
    · exact fun part hpart => (ih part hpart).1
    · exact hself rfl hops
    · exact hself rfl hops
    · exact fun part hpart => (ih part hpart).1

/-- A check of operands one by one is a check of all of them. -/
theorem checkAll_iff {check : Expression → Bool} {checkAll : List Expression → Bool}
    (hnil : checkAll [] = true)
    (hcons : ∀ operand rest, checkAll (operand :: rest) = (check operand && checkAll rest))
    (operands : List Expression) :
    checkAll operands = true ↔ ∀ operand ∈ operands, check operand = true := by
  induction operands with
  | nil => simp [hnil]
  | cons operand rest ih => rw [hcons, Bool.and_eq_true, ih, List.forall_mem_cons]

mutual

def negationFree : Expression → Bool
  | .none => true
  | .conjunction xs => negationFreeAll xs
  | .disjunction xs => negationFreeAll xs
  | .negation _ => false
  | .predicate _ => true

def negationFreeAll : List Expression → Bool
  | [] => true
  | x :: xs => negationFree x && negationFreeAll xs

end

theorem negationFree_apply {kind : Connective} {operands : List Expression} :
    (kind.apply operands).negationFree = true ↔
      ∀ operand ∈ operands, operand.negationFree = true := by
  have hall := @checkAll_iff negationFree negationFreeAll rfl (fun _ _ => rfl) operands
  cases kind <;> rw [Connective.apply, negationFree, hall]

end Expression

end Vast
