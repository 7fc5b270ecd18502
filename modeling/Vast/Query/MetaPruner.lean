import Vast.Query.Retailor
import Vast.Table.Select

/-! # Pruning meta predicates

The meta pruner takes the predicates on metadata out of an expression, and with them
every connective and every negation of which nothing is left. What remains says what
the expression says when its meta predicates are skipped. That is weaker than the
expression where a conjunction loses an operand, and stronger where a disjunction
does; under a negation it is the other way around.
-/

namespace Vast

open Expression (induct predicates predicates_apply)

open Foundation List Connective Bool

namespace MetaPruner

/-! ## The pruner -/

def isMetaExtractor : Operand → Bool
  | .metaExtractor _ => true
  | _ => false

def isMeta (pred : Predicate) : Bool :=
  isMetaExtractor pred.lhs || isMetaExtractor pred.rhs

def connective (connect : List Expression → Expression) : List Expression → Expression
  | [] => .none
  | [operand] => operand
  | operands => connect operands

mutual

def pruner : Expression → Expression
  | .none => .none
  | .conjunction operands => connective .conjunction (prunerList operands)
  | .disjunction operands => connective .disjunction (prunerList operands)
  | .negation operand =>
    match pruner operand with
    | .none => .none
    | pruned => .negation pruned
  | .predicate pred => if isMeta pred then .none else .predicate pred

def prunerList : List Expression → List Expression
  | [] => []
  | operand :: rest =>
    match pruner operand with
    | .none => prunerList rest
    | pruned => pruned :: prunerList rest

end

end MetaPruner

def pruneMetaPredicates (expression : Expression) : Expression :=
  MetaPruner.pruner expression

variable {operand : Expression}

namespace MetaPruner

open Evaluate
open TypeResolver

theorem pruner_negation (hne : pruner operand ≠ .none) :
    pruner (.negation operand) = .negation (pruner operand) := by
  rw [pruner]
  split
  next hnone => exact absurd hnone hne
  · rfl

theorem prunerList_eq (operands : List Expression) :
    prunerList operands = (operands.map pruner).filter (· ≠ .none) := by
  induction operands with
  | nil => rfl
  | cons operand rest ih =>
    rw [prunerList, map_cons]
    split
    next hnone => rw [hnone, ih, filter_cons_of_neg (by simp)]
    next hne => rw [ih, filter_cons_of_pos (by simpa using hne)]

theorem connective_apply (kind : Connective) (operands : List Expression) :
    connective kind.apply operands = collected kind operands := by
  match operands with
  | [] | [_] | _ :: _ :: _ => rfl

theorem pruner_apply (kind : Connective) (operands : List Expression) :
    pruner (kind.apply operands) = collected kind ((operands.map pruner).filter (· ≠ .none)) := by
  rw [← prunerList_eq, ← connective_apply]
  cases kind <;> rw [apply, pruner]

/-! ## Tailoring what is pruned -/

/-- The predicates stay what they are when they are tailored to a schema. -/
def Tailored (schema : VastType) (expression : Expression) : Prop :=
  ∀ pred ∈ expression.predicates, resolvePredicate schema pred = .ok (.predicate pred)

theorem tailored_apply {schema : VastType} {kind : Connective} {operands : List Expression} :
    Tailored schema (kind.apply operands) ↔ ∀ operand ∈ operands, Tailored schema operand := by
  rw [Tailored, predicates_apply, forall_mem_flatMap]
  rfl

section Resolve

variable {schema : VastType}

/-- What is left of a tailored expression stays what it is when it is tailored again. -/
theorem resolve_pruner {expression : Expression} (htailored : Tailored schema expression) :
    resolve schema (pruner expression) = .ok (pruner expression) := by
  induction expression with
  | none => rfl
  | connective kind operands ih =>
    rw [tailored_apply] at htailored
    rw [pruner_apply]
    apply resolve_collected
    intro pruned hpruned
    obtain ⟨hmem, hne⟩ := mem_filter.mp hpruned
    obtain ⟨operand, hop, rfl⟩ := mem_map.mp hmem
    exact ⟨by simpa using hne, ih operand hop (htailored operand hop)⟩
  | negation operand ih =>
    have hop : resolve schema (pruner operand) = .ok (pruner operand) := ih htailored
    by_cases hnone : pruner operand = .none
    · rw [pruner, hnone]
      rfl
    · rw [pruner_negation hnone, resolve, hop]
      split
      next herror => cases herror
      next heq => exact absurd (Except.ok.inj heq) hnone
      next resolved _ hresolve =>
        cases hresolve
        rfl
  | predicate pred =>
    rw [pruner]
    split
    · rfl
    · exact htailored pred (by simp [predicates])

theorem tailored_connect (op : RelationalOperator) (rhs : Data) (columns : List (VastType × Nat)) :
    Tailored schema (connect op (boundTo op rhs columns)) := by
  intro pred hpred
  rw [predicates_connect, mem_map] at hpred
  obtain ⟨column, -, rfl⟩ := hpred
  rfl

theorem tailored_resolvePredicate {pred : Predicate} {resolved : Expression}
    (hresolve : resolvePredicate schema pred = .ok resolved) : Tailored schema resolved := by
  rcases resolved_cases hresolve with
    ⟨op, rhs, columns, rfl⟩ | ⟨op, rhs, columns, others, rfl⟩ | rfl
  · exact tailored_connect op rhs columns
  · apply (@tailored_apply schema .any _).mpr
    simp [tailored_connect]
  · intro other hother
    rw [predicates, mem_singleton] at hother
    subst hother
    exact hresolve

theorem tailored_resolve {expression resolved : Expression}
    (hresolve : resolve schema expression = .ok resolved) : Tailored schema resolved := by
  intro pred hpred
  obtain ⟨source, -, part, hpart, hmem⟩ := mem_predicates_resolve hresolve hpred
  exact tailored_resolvePredicate hpart pred hmem

end Resolve

/-! ## What is left -/

def onlyMeta (expression : Expression) : Bool :=
  expression.predicates.all isMeta

/-- Nothing is left of an expression if and only if it is on metadata only. -/
theorem pruner_eq_none_iff (expression : Expression) :
    pruner expression = .none ↔ onlyMeta expression = true := by
  induction expression with
  | none => simp [pruner, onlyMeta, predicates]
  | connective kind operands ih =>
    rw [pruner_apply, collected_eq_none_iff fun _ hmem => by simpa using (mem_filter.mp hmem).2,
      filter_eq_nil_iff, forall_mem_map, onlyMeta, predicates_apply, all_flatMap, all_eq_true]
    exact forall₂_congr fun operand hop => by simpa [onlyMeta] using ih operand hop
  | negation operand ih =>
    have honly : onlyMeta (.negation operand) = onlyMeta operand := rfl
    rw [honly, ← ih, pruner]
    split
    next hnone => simp [hnone]
    next hne => simpa using hne
  | predicate pred => simp [pruner, onlyMeta, predicates]

section Rows

variable [Regex] {slice : TableSlice} {row : List Data} {expression : Expression}
  {operands : List Expression} {positive : Bool}

/-- A row satisfies what is left unless that says no. -/
theorem satisfies_pruneMetaPredicates (htailored : Tailored slice.schema expression) :
    slice.satisfies (pruneMetaPredicates expression) row = true ↔
      applied slice row (pruner expression) ≠ some false := by
  rw [pruneMetaPredicates]
  by_cases hnone : pruner expression = .none
  · simp [hnone, TableSlice.satisfies, applied]
  · have hsatisfies : slice.satisfies (pruner expression) row =
        holds slice row (pruner expression) := by
      have hagain : tailor (pruner expression) slice.schema = .ok (pruner expression) := by
        rw [tailor_of_ne_none hnone, resolve_pruner htailored]
      unfold TableSlice.satisfies
      split
      next heq => exact absurd heq hnone
      · rw [hagain]
    rw [hsatisfies, applied_of_ne_none hnone]
    simp

/-! ## Polarity -/

/-- Whether something is left of all operands or of none. A nil operand of a disjunction is
false, so that it does not matter that it is dropped. -/
def uniform (kind : Connective) (operands : List Expression) : Bool :=
  let counted := operands.filter fun operand => kind.unit || operand ≠ .none
  counted.all onlyMeta || counted.all (!onlyMeta ·)

mutual

/-- Where the truth of an expression counts, its disjunctions lose all operands or none.
Where its falsity counts, its conjunctions do. -/
def keepsPolarity : Bool → Expression → Bool
  | _, .none => true
  | positive, .conjunction operands =>
    (positive || uniform .all operands) && keepsPolarityList positive operands
  | positive, .disjunction operands =>
    (!positive || uniform .any operands) && keepsPolarityList positive operands
  | positive, .negation operand => keepsPolarity (!positive) operand
  | _, .predicate _ => true

def keepsPolarityList : Bool → List Expression → Bool
  | _, [] => true
  | positive, operand :: rest =>
    keepsPolarity positive operand && keepsPolarityList positive rest

end

omit [Regex] in
theorem keepsPolarity_apply {kind : Connective} :
    keepsPolarity positive (kind.apply operands) = true ↔
      (positive = kind.unit ∨ uniform kind operands = true) ∧
        ∀ operand ∈ operands, keepsPolarity positive operand = true := by
  have hlist := @Expression.checkAll_iff (keepsPolarity positive) (keepsPolarityList positive) rfl
    (fun _ _ => rfl) operands
  cases kind <;> simp [apply, unit, keepsPolarity, hlist]

/-- If something is left of uniform operands, then something is left of each one that has a
say. -/
theorem pruner_ne_none_of_uniform {kind : Connective} (huniform : uniform kind operands = true)
    {other : Expression} (hother : other ∈ operands) (hleft : pruner other ≠ .none)
    (hmem : operand ∈ operands) (hvalue : holds slice row operand = !kind.unit) :
    pruner operand ≠ .none := by
  have hcounted : ∀ {found}, found ∈ operands → (kind.unit = true ∨ found ≠ .none) →
      found ∈ operands.filter fun operand => kind.unit || operand ≠ .none :=
    fun hfound hsay => mem_filter.mpr ⟨hfound, by simpa using hsay⟩
  rw [uniform, or_eq_true, all_eq_true, all_eq_true] at huniform
  rw [ne_eq, pruner_eq_none_iff] at hleft ⊢
  rcases huniform with hmeta | hdata
  · refine absurd (hmeta other (hcounted hother (Or.inr ?_))) hleft
    rintro rfl
    exact hleft rfl
  · have hop := hdata operand (hcounted hmem (or_iff_not_imp_left.mpr fun hunit hnone => ?_))
    · simpa using hop
    · rw [hnone, Bool.eq_false_iff.mpr hunit] at hvalue
      cases hvalue

/-- The value of a connective is not turned around if those of its operands are not, and if they
are uniform where one operand decides. -/
theorem applied_pruner_apply {kind : Connective}
    (hkeeps : positive = kind.unit ∨ uniform kind operands = true)
    (hops : ∀ operand ∈ operands, holds slice row operand = positive →
      applied slice row (pruner operand) ≠ some (!positive))
    (hholds : holds slice row (kind.apply operands) = positive) :
    applied slice row (pruner (kind.apply operands)) ≠ some (!positive) := by
  rw [holds_apply] at hholds
  rw [pruner_apply]
  intro happlied
  have hleft : ∀ pruned ∈ (operands.map pruner).filter (· ≠ .none), pruned ≠ .none :=
    fun _ hmem => by simpa using (mem_filter.mp hmem).2
  by_cases hnil : (operands.map pruner).filter (· ≠ .none) = []
  · rw [hnil] at happlied
    cases happlied
  rw [applied_collected hnil hleft, Option.some.injEq] at happlied
  by_cases hunit : positive = kind.unit
  · -- An operand of which the opposite is left has the value.
    rw [hunit, combine_eq_not_unit] at happlied
    rw [hunit, combine_eq_unit, forall_mem_map] at hholds
    obtain ⟨pruned, hpruned, hvalue⟩ := mem_map.mp happlied
    obtain ⟨operand, hmem, rfl⟩ := mem_map.mp (mem_filter.mp hpruned).1
    refine hops operand hmem (by rw [hunit, hholds operand hmem]) ?_
    rw [applied_of_ne_none (hleft _ hpruned), hvalue, hunit]
  · -- The opposite is left of an operand that has the value.
    obtain rfl : positive = !kind.unit := Bool.eq_not_of_ne hunit
    rw [Bool.not_not, combine_eq_unit, forall_mem_map] at happlied
    rw [combine_eq_not_unit] at hholds
    obtain ⟨operand, hmem, hvalue⟩ := mem_map.mp hholds
    obtain ⟨pruned, hpruned⟩ := exists_mem_of_ne_nil _ hnil
    obtain ⟨other, hother, rfl⟩ := mem_map.mp (mem_filter.mp hpruned).1
    have hne := pruner_ne_none_of_uniform (hkeeps.resolve_left hunit) hother
      (hleft _ hpruned) hmem hvalue
    refine hops operand hmem hvalue ?_
    rw [applied_of_ne_none hne, happlied _ (mem_filter.mpr
      ⟨mem_map_of_mem hmem, by simpa using hne⟩), Bool.not_not]

/-- Where disjunctions that count positively and conjunctions that count negatively are
uniform, dropping meta predicates does not turn the value around. -/
theorem applied_pruner_of_keepsPolarity (hkeeps : keepsPolarity positive expression = true)
    (hholds : holds slice row expression = positive) :
    applied slice row (pruner expression) ≠ some (!positive) := by
  induction expression generalizing positive with
  | none => simp [pruner, applied]
  | connective kind operands ih =>
    rw [keepsPolarity_apply] at hkeeps
    exact applied_pruner_apply hkeeps.1
      (fun operand hop => ih operand hop (hkeeps.2 operand hop)) hholds
  | negation operand ih =>
    rw [holds, not_eq_eq_eq_not] at hholds
    have hop := ih hkeeps hholds
    by_cases hnone : pruner operand = .none
    · rw [pruner, hnone]
      simp [applied]
    · rw [applied_of_ne_none hnone] at hop
      rw [pruner_negation hnone, applied_of_ne_none (by simp), holds]
      simpa using hop
  | predicate pred =>
    rw [pruner]
    split
    · simp [applied]
    · rw [applied_of_ne_none (by simp), hholds]
      simp

end Rows

end MetaPruner

end Vast
