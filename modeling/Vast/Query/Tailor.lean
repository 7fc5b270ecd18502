import Vast.Core.Compatible
import Vast.Core.Expression
import Vast.Core.KeySuffix

/-! # Tailoring an expression to a schema

Field and type extractors are replaced by the leaf columns of a schema that they
stand for. A predicate on several columns becomes a disjunction, or a conjunction
for a negated operator. Operands that do not resolve are dropped from
disjunctions and make conjunctions fail as a whole.
-/

namespace Vast

open RecordType List

inductive TailorError where
  /-- The expression is nil. -/
  | unspecified (schema : VastType)
  /-- A timestamp is compared with something else. -/
  | typeClash (op : RelationalOperator) (rhs : Data)
  deriving DecidableEq

namespace TypeResolver

variable (schema : VastType)

/-- Combine the predicates that an extractor stands for. -/
def connect (op : RelationalOperator) : List Expression → Expression
  | [] => .none
  | [predicate] => predicate
  | connective => if op.isNegated then .conjunction connective else .disjunction connective

def bound (type : VastType) (column : Nat) (op : RelationalOperator) (rhs : Data) : Expression :=
  .predicate ⟨.dataExtractor type column, op, .data rhs⟩

def resolveExtractor (property : VastType → Bool) (op : RelationalOperator) (rhs : Data) :
    Expression :=
  connect op ((leaves schema.fields).zipIdx.filterMap fun entry =>
    if property entry.1.type then some (bound entry.1.type entry.2 op rhs) else none)

/-- Whether one of the names of a column type is the name of the extractor. -/
def namedLike (extractor : VastType) (op : RelationalOperator) (rhs : Data) (type : VastType) :
    Bool :=
  type.names.contains extractor.name && compatible type op rhs

def hasTimestampAttribute (type : VastType) : Bool :=
  (type.findAttribute "timestamp").isSome

def resolveTypeExtractor (extractor : VastType) (op : RelationalOperator) (rhs : Data) :
    Except TailorError Expression :=
  if !extractor.hasValue then
    -- Databases from before the timestamp attribute was removed are still read.
    if extractor.name = "timestamp" then
      if !rhs.isTime then .error (.typeClash op rhs)
      else .ok (.disjunction [resolveExtractor schema (namedLike extractor op rhs) op rhs,
        resolveExtractor schema hasTimestampAttribute op rhs])
    else .ok (resolveExtractor schema (namedLike extractor op rhs) op rhs)
  else .ok (resolveExtractor schema (fun type => type.congruent extractor) op rhs)

def resolveFieldExtractor (field : String) (op : RelationalOperator) (rhs : Data) : Expression :=
  connect op ((resolveKeySuffix field schema.name schema.fields).filterMap fun offset =>
    let type := fieldType schema.fields offset
    if compatible type op rhs then some (bound type (flatIndex schema.fields offset) op rhs)
    else none)

def resolvePredicate (predicate : Predicate) : Except TailorError Expression :=
  match predicate.lhs, predicate.rhs with
  | .typeExtractor type, .data rhs => resolveTypeExtractor schema type predicate.op rhs
  | .data rhs, .typeExtractor type => resolveTypeExtractor schema type predicate.op rhs
  | .fieldExtractor field, .data rhs => .ok (resolveFieldExtractor schema field predicate.op rhs)
  | .data rhs, .fieldExtractor field => .ok (resolveFieldExtractor schema field predicate.op rhs)
  | _, _ => .ok (.predicate predicate)

mutual

def resolve : Expression → Except TailorError Expression
  | .none => .ok .none
  | .conjunction operands => resolveConjunction operands []
  | .disjunction operands => resolveDisjunction operands []
  | .negation operand =>
    match resolve operand with
    | .error error => .error error
    | .ok .none => .ok .none
    | .ok resolved => .ok (.negation resolved)
  | .predicate predicate => resolvePredicate schema predicate

def resolveConjunction : List Expression → List Expression → Except TailorError Expression
  | [], [] => .ok .none
  | [], [single] => .ok single
  | [], result => .ok (.conjunction result)
  | operand :: rest, result =>
    match resolve operand with
    | .error error => .error error
    | .ok .none => .ok .none
    | .ok resolved => resolveConjunction rest (result ++ [resolved])

def resolveDisjunction : List Expression → List Expression → Except TailorError Expression
  | [], [] => .ok .none
  | [], [single] => .ok single
  | [], result => .ok (.disjunction result)
  | operand :: rest, result =>
    match resolve operand with
    | .error error => .error error
    | .ok .none => resolveDisjunction rest result
    | .ok resolved => resolveDisjunction rest (result ++ [resolved])

end

/-! ## Connectives -/

/-- The connective of the operands that are left, if any are. -/
def collected (kind : Connective) : List Expression → Expression
  | [] => .none
  | [operand] => operand
  | operands => kind.apply operands

theorem collected_eq_none_iff {kind : Connective} {operands : List Expression}
    (hops : ∀ operand ∈ operands, operand ≠ .none) :
    collected kind operands = .none ↔ operands = [] := by
  match operands with
  | [] => simp [collected]
  | [operand] => simpa [collected] using hops
  | _ :: _ :: _ => cases kind <;> simp [collected, Connective.apply]

theorem connect_eq (op : RelationalOperator) (operands : List Expression) :
    connect op operands = collected (if op.isNegated then .all else .any) operands := by
  unfold connect collected
  split <;> first | rfl | split <;> rfl

/-- The loop over the operands, by what they are resolved to. -/
def gather (kind : Connective) :
    List (Except TailorError Expression) → List Expression → Except TailorError Expression
  | [], result => .ok (collected kind result)
  | .error error :: _, _ => .error error
  | .ok .none :: rest, result =>
    match kind with
    | .all => .ok .none
    | .any => gather kind rest result
  | .ok resolved :: rest, result => gather kind rest (result ++ [resolved])

theorem resolve_apply (kind : Connective) (operands : List Expression) :
    resolve schema (kind.apply operands) = gather kind (operands.map (resolve schema)) [] := by
  have hloops : ∀ result,
      resolveConjunction schema operands result =
          gather .all (operands.map (resolve schema)) result ∧
        resolveDisjunction schema operands result =
          gather .any (operands.map (resolve schema)) result := by
    induction operands with
    | nil =>
      intro result
      match result with
      | [] | [_] | _ :: _ :: _ => exact ⟨rfl, rfl⟩
    | cons operand rest ih =>
      intro result
      rw [resolveConjunction, resolveDisjunction, map_cons]
      match resolve schema operand with
      | .error _ => exact ⟨rfl, rfl⟩
      | .ok .none => exact ⟨rfl, (ih result).2⟩
      | .ok (.conjunction _) | .ok (.disjunction _) | .ok (.negation _) | .ok (.predicate _) =>
        exact ih _
  cases kind with
  | all => exact (hloops []).1
  | any => exact (hloops []).2

variable {resolved : Expression} {kind : Connective}

theorem gather_of_ne_none (hne : resolved ≠ .none) (rest : List (Except TailorError Expression))
    (result : List Expression) :
    gather kind (.ok resolved :: rest) result = gather kind rest (result ++ [resolved]) := by
  cases resolved with
  | none => exact absurd rfl hne
  | _ => rfl

theorem gather_cases {outcomes : List (Except TailorError Expression)} {result : List Expression}
    (hgather : gather kind outcomes result = .ok resolved) :
    (∃ (results : List Expression) (after : List (Except TailorError Expression)), kind = .all ∧
        outcomes = results.map .ok ++ .ok .none :: after ∧ resolved = .none) ∨
      ∃ results : List Expression, outcomes = results.map .ok ∧
        (kind = .all → ∀ result ∈ results, result ≠ .none) ∧
        resolved = collected kind (result ++ results.filter (· ≠ .none)) := by
  induction outcomes generalizing result with
  | nil =>
    cases hgather
    exact Or.inr ⟨[], rfl, by simp, by simp⟩
  | cons outcome rest ih =>
    cases outcome with
    | error => cases hgather
    | ok first =>
      by_cases hne : first = .none
      · subst hne
        cases kind with
        | all =>
          cases hgather
          exact Or.inl ⟨[], rest, rfl, rfl, rfl⟩
        | any =>
          obtain ⟨_, _, hkind, -⟩ | ⟨results, rfl, -, rfl⟩ := ih hgather
          · cases hkind
          · exact Or.inr ⟨.none :: results, rfl, nofun, by simp⟩
      · rw [gather_of_ne_none hne] at hgather
        obtain ⟨results, after, rfl, rfl, rfl⟩ | ⟨results, rfl, hnone, rfl⟩ := ih hgather
        · exact Or.inl ⟨first :: results, after, rfl, rfl, rfl⟩
        · refine Or.inr ⟨first :: results, rfl, ?_, by simp [hne]⟩
          exact fun hall => forall_mem_cons.mpr ⟨hne, hnone hall⟩

/-- A connective collects what its operands become. A conjunction ends with an operand of
which nothing is left. -/
theorem resolve_apply_cases {schema : VastType} {operands : List Expression}
    (hresolve : resolve schema (kind.apply operands) = .ok resolved) :
    (∃ before operand after, ∃ results : List Expression, kind = .all ∧
        operands = before ++ operand :: after ∧ before.map (resolve schema) = results.map .ok ∧
        resolve schema operand = .ok .none ∧ resolved = .none) ∨
      ∃ results : List Expression, operands.map (resolve schema) = results.map .ok ∧
        (kind = .all → ∀ result ∈ results, result ≠ .none) ∧
        resolved = collected kind (results.filter (· ≠ .none)) := by
  rw [resolve_apply] at hresolve
  rcases gather_cases hresolve with ⟨results, after, hall, houtcomes, hnone⟩ | hcollected
  · obtain ⟨before, later, rfl, hbefore, hlater⟩ := map_eq_append_iff.mp houtcomes
    obtain ⟨operand, after, rfl, hop, -⟩ := map_eq_cons_iff.mp hlater
    exact Or.inl ⟨before, operand, after, results, hall, rfl, hbefore, hop, hnone⟩
  · exact Or.inr hcollected

end TypeResolver

def tailor (expression : Expression) (schema : VastType) : Except TailorError Expression :=
  match expression with
  | .none => .error (.unspecified schema)
  | expression => TypeResolver.resolve schema expression

end Vast
