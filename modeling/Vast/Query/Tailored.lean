import Vast.Query.Complement

/-! # What tailoring leaves in an expression

A predicate on columns that have been found by name is on leaves it can be compared with.
Columns that are found by their type or by the timestamp attribute are not checked, a
comparison with timestamps may keep a nil operand, and a predicate that does not compare an
extractor with a literal stays what it is.
-/

namespace Vast

open RecordType List
open Expression hiding none

namespace TypeResolver

variable (schema : VastType)

/-- An extractor is a leaf that can be compared with a literal on the other side. -/
def OperandFits (op : RelationalOperator) : Operand → Operand → Prop
  | .fieldExtractor _, _ => False
  | .typeExtractor _, _ => False
  | .dataExtractor type column, other =>
    (leaves schema.fields)[column]?.map Leaf.type = some type ∧
      ∀ rhs, other = .data rhs → compatible type op rhs = true
  | _, _ => True

def Fits (pred : Predicate) : Prop :=
  OperandFits schema pred.op pred.lhs pred.rhs ∧ OperandFits schema pred.op pred.rhs pred.lhs

/-- Nothing in the expression is nil, and all extractors are leaves. -/
def Tailored (expression : Expression) : Prop :=
  proper expression = true ∧ ∀ pred ∈ predicates expression, Fits schema pred

/-- The columns of an extractor can be compared, and none is missing for timestamps. -/
def TypeFits (extractor : VastType) (op : RelationalOperator) (rhs : Data) : Prop :=
  if !extractor.hasValue then
    extractor.name = "timestamp" → columnsWith schema (namedLike extractor op rhs) ≠ [] ∧
      columnsWith schema hasTimestampAttribute ≠ [] ∧
      ∀ column ∈ columnsWith schema hasTimestampAttribute, compatible column.1 op rhs = true
  else
    ∀ column ∈ columnsWith schema fun type => type.congruent extractor,
      compatible column.1 op rhs = true

def Resolves (pred : Predicate) : Prop :=
  match pred.lhs, pred.rhs with
  | .typeExtractor type, .data rhs => TypeFits schema type pred.op rhs
  | .data rhs, .typeExtractor type => TypeFits schema type pred.op rhs
  | .fieldExtractor _, .data _ => True
  | .data _, .fieldExtractor _ => True
  | _, _ => Fits schema pred

/-- The predicate has a part in the result: no operand beside it in a conjunction vanishes. -/
inductive Kept (pred : Predicate) : Expression → Prop where
  | predicate : Kept pred (.predicate pred)
  | negation {operand : Expression} (hkept : Kept pred operand) : Kept pred (.negation operand)
  | disjunction {operands : List Expression} {operand : Expression} (hop : operand ∈ operands)
      (hkept : Kept pred operand) : Kept pred (.disjunction operands)
  | conjunction {operands : List Expression} {operand : Expression} (hop : operand ∈ operands)
      (hkept : Kept pred operand) (hall : ∀ other ∈ operands, resolve schema other ≠ .ok .none) :
      Kept pred (.conjunction operands)

variable {schema} {op : RelationalOperator} {rhs : Data} {columns : List (VastType × Nat)}
  {kind : Connective} {operands : List Expression} {property : VastType → Bool}

theorem tailored_apply (hne : operands ≠ []) :
    Tailored schema (kind.apply operands) ↔ ∀ operand ∈ operands, Tailored schema operand := by
  simp only [Tailored, proper_apply, predicates_apply, forall_mem_flatMap, forall_and, ne_eq, hne,
    not_false_eq_true, true_and]

theorem tailored_collected (hne : operands ≠ []) :
    Tailored schema (collected kind operands) ↔
      ∀ operand ∈ operands, Tailored schema operand := by
  match operands with
  | [operand] => simp [collected]
  | _ :: _ :: _ => exact tailored_apply (cons_ne_nil _ _)

/-- Nothing is left, or what is left of the operands is tailored. -/
theorem none_or_tailored_collected :
    collected kind (operands.filter (· ≠ .none)) = .none ∨
        Tailored schema (collected kind (operands.filter (· ≠ .none))) ↔
      ∀ operand ∈ operands, operand = .none ∨ Tailored schema operand := by
  have hmem : (∀ operand ∈ operands.filter (· ≠ .none), Tailored schema operand) ↔
      ∀ operand ∈ operands, operand = .none ∨ Tailored schema operand := by
    simp [mem_filter, or_iff_not_imp_left]
  by_cases hnil : operands.filter (· ≠ .none) = []
  · rw [← hmem, hnil]
    simp [collected]
  · rw [tailored_collected hnil, hmem, or_iff_right]
    have hne : ∀ operand ∈ operands.filter (· ≠ .none), operand ≠ .none :=
      fun operand hop => by simpa using (mem_filter.mp hop).2
    exact (collected_eq_none_iff hne).not.mpr hnil

/-! ## Predicates -/

section

variable
  (hleaf : ∀ column ∈ columns, (leaves schema.fields)[column.2]?.map Leaf.type = some column.1)

include hleaf

theorem tailored_connect :
    Tailored schema (connect op (boundTo op rhs columns)) ↔
      columns ≠ [] ∧ ∀ column ∈ columns, compatible column.1 op rhs = true := by
  by_cases hnil : columns = []
  · simp [hnil, boundTo, connect, Tailored, proper]
  · rw [connect_eq, tailored_collected (by simpa [boundTo] using hnil), boundTo, forall_mem_map,
      and_iff_right hnil]
    refine forall₂_congr fun column hcolumn => ?_
    simpa [Tailored, bound, proper, predicates, Fits, OperandFits] using
      fun _ => Option.map_eq_some_iff.mp (hleaf column hcolumn)

theorem none_or_tailored_connect :
    connect op (boundTo op rhs columns) = .none ∨
        Tailored schema (connect op (boundTo op rhs columns)) ↔
      ∀ column ∈ columns, compatible column.1 op rhs = true := by
  rw [tailored_connect hleaf]
  match columns with
  | [] => simp [boundTo, connect]
  | column :: rest =>
    rw [connect_eq, or_iff_right]
    · simp
    · exact (collected_eq_none_iff boundTo_ne_none).not.mpr (by simp [boundTo])

end

theorem type_of_mem_columnsWith :
    ∀ column ∈ columnsWith schema property,
      (leaves schema.fields)[column.2]?.map Leaf.type = some column.1 := by
  simp only [columnsWith, forall_mem_map, mem_filter, mem_zipIdx_iff_getElem?]
  rintro entry ⟨hentry, -⟩
  rw [hentry, Option.map_some]

theorem property_of_mem_columnsWith :
    ∀ column ∈ columnsWith schema property, property column.1 = true := by
  simp only [columnsWith, forall_mem_map, mem_filter]
  exact fun entry hentry => hentry.2

variable {resolved : Expression}

theorem tailored_resolveTypeExtractor {extractor : VastType}
    (hresolve : resolveTypeExtractor schema extractor op rhs = .ok resolved) :
    resolved = .none ∨ Tailored schema resolved ↔ TypeFits schema extractor op rhs := by
  have hnamed : ∀ column ∈ columnsWith schema (namedLike extractor op rhs),
      compatible column.1 op rhs = true := by
    intro column hcolumn
    exact (Bool.and_eq_true_iff.mp (property_of_mem_columnsWith column hcolumn)).2
  simp only [resolveTypeExtractor, resolveExtractor_eq] at hresolve
  unfold TypeFits
  split at hresolve
  next hvalue =>
    rw [if_pos hvalue]
    split at hresolve
    next hname =>
      split at hresolve
      · cases hresolve
      · cases hresolve
        rw [or_iff_right nofun, forall_prop_of_true hname]
        refine (@tailored_apply schema .any _ (cons_ne_nil _ _)).trans ?_
        rw [forall_mem_cons, forall_mem_singleton, tailored_connect type_of_mem_columnsWith,
          tailored_connect type_of_mem_columnsWith, and_iff_left hnamed]
    next hname =>
      cases hresolve
      exact iff_of_true ((none_or_tailored_connect type_of_mem_columnsWith).mpr hnamed)
        fun htimestamp => absurd htimestamp hname
  next hvalue =>
    cases hresolve
    rw [if_neg hvalue]
    exact none_or_tailored_connect type_of_mem_columnsWith

theorem tailored_resolveFieldExtractor (field : String) :
    resolveFieldExtractor schema field op rhs = .none ∨
      Tailored schema (resolveFieldExtractor schema field op rhs) := by
  rw [resolveFieldExtractor_eq, none_or_tailored_connect]
  · simp only [columnsNamed, forall_mem_map, mem_filter]
    exact fun offset hoffset => hoffset.2
  · simp only [columnsNamed, forall_mem_map, mem_filter]
    intro offset hoffset
    obtain ⟨leaf, hleaf, rfl⟩ := exists_leaf_of_mem_resolveKeySuffix hoffset.1
    rw [getElem?_flatIndex hleaf, fieldType_of_mem_leaves hleaf, Option.map_some]

theorem tailored_resolvePredicate {pred : Predicate}
    (hresolve : resolvePredicate schema pred = .ok resolved) :
    resolved = .none ∨ Tailored schema resolved ↔ Resolves schema pred := by
  have hself : Expression.predicate pred = .none ∨ Tailored schema (.predicate pred) ↔
      Fits schema pred := by
    simp [Tailored, proper, predicates]
  obtain ⟨lhs, op, rhs⟩ := pred
  cases lhs with
  | typeExtractor type =>
    cases rhs with
    | data value => exact tailored_resolveTypeExtractor hresolve
    | _ => cases hresolve; exact hself
  | fieldExtractor field =>
    cases rhs with
    | data value => cases hresolve; exact iff_of_true (tailored_resolveFieldExtractor field) trivial
    | _ => cases hresolve; exact hself
  | data value =>
    cases rhs with
    | typeExtractor type => exact tailored_resolveTypeExtractor hresolve
    | fieldExtractor field =>
      cases hresolve
      exact iff_of_true (tailored_resolveFieldExtractor field) trivial
    | _ => cases hresolve; exact hself
  | _ => cases hresolve; exact hself

/-! ## Expressions -/

theorem none_or_tailored_resolve {expression : Expression}
    (hresolve : resolve schema expression = .ok resolved) :
    resolved = .none ∨ Tailored schema resolved ↔
      ∀ pred, Kept schema pred expression → Resolves schema pred := by
  induction expression generalizing resolved with
  | none =>
    cases hresolve
    exact iff_of_true (Or.inl rfl) (by rintro _ ⟨⟩)
  | predicate pred =>
    rw [tailored_resolvePredicate hresolve]
    constructor
    · rintro hpred _ ⟨⟩
      exact hpred
    · exact fun hall => hall pred .predicate
  | negation operand ih =>
    have hkept : ∀ pred, Kept schema pred (.negation operand) ↔ Kept schema pred operand :=
      fun pred => ⟨fun hkept => by cases hkept; assumption, .negation⟩
    simp only [hkept]
    rw [resolve] at hresolve
    split at hresolve
    · cases hresolve
    next hop =>
      cases hresolve
      exact ih hop
    next inner hne hop =>
      cases hresolve
      rw [← ih hop, or_iff_right hne, or_iff_right (by simp)]
      rfl
  | connective kind operands ih =>
    rcases resolve_apply_cases hresolve with
      ⟨before, operand, after, -, rfl, rfl, -, hop, rfl⟩ | ⟨results, hres, hall, rfl⟩
    · refine iff_of_true (Or.inl rfl) ?_
      rintro pred ⟨⟩
      next hall => exact absurd hop (hall operand (by simp))
    · have hresult : ∀ operand ∈ operands, ∃ result ∈ results,
          resolve schema operand = .ok result := by
        intro operand hop
        obtain ⟨result, hmem, heq⟩ := mem_map.mp (hres ▸ mem_map_of_mem hop)
        exact ⟨result, hmem, heq.symm⟩
      have hkept : ∀ pred, Kept schema pred (kind.apply operands) ↔
          ∃ operand ∈ operands, Kept schema pred operand := by
        intro pred
        constructor
        · cases kind <;> rintro ⟨⟩ <;> exact ⟨_, ‹_ ∈ operands›, ‹_›⟩
        · rintro ⟨operand, hop, hoperand⟩
          cases kind with
          | any => exact .disjunction hop hoperand
          | all =>
            refine .conjunction hop hoperand fun other hother hnone => ?_
            obtain ⟨result, hmem, heq⟩ := hresult other hother
            cases heq.symm.trans hnone
            exact hall rfl _ hmem rfl
      rw [none_or_tailored_collected]
      constructor
      · intro hresults pred hpred
        obtain ⟨operand, hop, hoperand⟩ := (hkept pred).mp hpred
        obtain ⟨result, hmem, heq⟩ := hresult operand hop
        exact (ih operand hop heq).mp (hresults result hmem) pred hoperand
      · intro hpreds result hmem
        obtain ⟨operand, hop, heq⟩ := mem_map.mp (hres ▸ mem_map_of_mem hmem)
        exact (ih operand hop heq).mpr fun pred hpred =>
          hpreds pred ((hkept pred).mpr ⟨operand, hop, hpred⟩)

/-- What is left of an expression is tailored if and only if the columns of every predicate in it
can be compared, timestamps are compared with columns of both kinds, and predicates that are
not resolved have no extractor that is not a leaf. -/
theorem tailored_iff_resolves {expression tailored : Expression}
    (htailor : tailor expression schema = .ok tailored) (hne : tailored ≠ .none) :
    Tailored schema tailored ↔ ∀ pred, Kept schema pred expression → Resolves schema pred := by
  refine (or_iff_right hne).symm.trans (none_or_tailored_resolve ?_)
  cases expression with
  | none => cases htailor
  | _ => exact htailor

def portSchema : VastType :=
  .enriched (.record [("port", .basic .uint64)]) (some "conn") []

/-- The only column with the name and a number becomes the operand. -/
theorem port_is_tailored :
    Tailored portSchema (bound (.basic .uint64) 0 .equal (.basic (.uint64 80))) := by
  have htailor : tailor (.predicate ⟨.fieldExtractor "port", .equal, .data (.basic (.uint64 80))⟩)
      portSchema = .ok (bound (.basic .uint64) 0 .equal (.basic (.uint64 80))) := by decide
  refine (tailored_iff_resolves htailor nofun).mpr ?_
  rintro _ ⟨⟩
  trivial

/-- A schema without timestamps. -/
theorem missing_timestamp_leaves_nil : ∃ tailored,
    tailor (.predicate ⟨.typeExtractor (.enriched .none (some "timestamp") []), .less,
      .data (.basic (.time 0))⟩) portSchema = .ok tailored ∧
    tailored ≠ .none ∧ ¬Tailored portSchema tailored :=
  ⟨.disjunction [.none, .none], by decide, nofun, fun htailored => nomatch htailored.1⟩

end TypeResolver

end Vast
