import Vast.Query.Complement
import Vast.Query.Concepts
import Vast.Query.RowEquivalence

/-! # Negated predicates on concepts

A predicate on a concept becomes a disjunction over the fields that a schema has,
whatever the operator is. The rows that it selects are thus not the complement of
the rows that the complementary operator selects as soon as two fields disagree.
-/

namespace Vast

open Foundation List Taxonomies
open Expression hiding none
open Evaluate TypeResolver

namespace Taxonomies

/-! ## The fields of a concept in a schema -/

/-- The fields that a predicate on a concept is about: those of the schema that can be
compared, and otherwise what the name of the concept stands for. -/
def expandedFields (taxonomies : Taxonomies) (schema : VastType) (name : String)
    (definition : Concept) (op : RelationalOperator) (value : Data) : List String :=
  match (taxonomies.targetFields definition).filter fun field =>
    contains [(schema.name, [schema])] op value [] field.toList with
  | [] => [name]
  | fields => fields

theorem contains_negate (seen : List (String × List VastType)) (op : RelationalOperator)
    (value : Data) (before rest : List Char) :
    contains seen op.negate value before rest = contains seen op value before rest := by
  induction rest generalizing before with
  | nil => rfl
  | cons char rest ih =>
    have hfield : hasField rest op.negate value = hasField rest op value := by
      funext type
      simp [hasField, compatible_negate]
    simp [contains, ih, hfield]

variable {taxonomies : Taxonomies} {schema : VastType} {name : String} {definition : Concept}

theorem expandedFields_negate (op : RelationalOperator) (value : Data) :
    taxonomies.expandedFields schema name definition op.negate value =
      taxonomies.expandedFields schema name definition op value := by
  simp [expandedFields, contains_negate]

theorem resolve_fieldPredicate (steps : Nat) (schema : VastType)
    (hconcept : taxonomies.concepts.lookup name = some definition) (op : RelationalOperator)
    {value : Data}
    (hmodel : ∀ record, value = .record record → taxonomies.models.lookup name = none)
    (hvalue : value ≠ .record []) :
    taxonomies.resolve steps (.predicate (fieldPredicate op value name)) schema =
      .ok (single .disjunction ((taxonomies.expandedFields schema name definition op value).map
        fun field => .predicate (fieldPredicate op value field))) := by
  rw [resolve, resolveImpl_fieldPredicate steps _ true op hmodel hvalue,
    resolveConcepts, expandedFields]
  simp only [hconcept, Bool.not_true, Bool.false_or]
  generalize (filter _ (taxonomies.targetFields definition)) = targets
  rcases targets with _ | ⟨_, _ | ⟨_, _⟩⟩ <;> rfl

end Taxonomies

/-! ## Rows -/

variable {fields : List String}

namespace Evaluate

variable [Regex] {slice : TableSlice} {row : List Data}

/-- Whether a row matches the comparison of a field: in all columns that the field names
for a negated operator, and in one of them otherwise. -/
def fieldMatches (slice : TableSlice) (row : List Data) (op : RelationalOperator) (value : Data)
    (field : String) : Bool :=
  let columns := columnsNamed slice.schema field op value
  !columns.isEmpty &&
    if op.isNegated then columns.all fun column => evaluateCell slice column.2 op value row
    else columns.any fun column => evaluateCell slice column.2 op value row

theorem predicateVerdict_fieldPredicate (op : RelationalOperator) (value : Data) (field : String) :
    ∃ applied, predicateVerdict slice row (fieldPredicate op value field) =
        .ok applied ∧ applied.getD false = fieldMatches slice row op value field := by
  refine ⟨_, rfl, ?_⟩
  change (applied slice row (resolveFieldExtractor slice.schema field op value)).getD false = _
  rw [resolveFieldExtractor_eq, fieldMatches]
  by_cases hcols : columnsNamed slice.schema field op value = []
  · rw [hcols]
    rfl
  · rw [applied_connect hcols]
    simp [hcols]

/-- A disjunction over fields selects the rows that match one of them. -/
theorem reading_fields (op : RelationalOperator) (value : Data) (fields : List String) :
    ∃ applied, Verdict.disjoin (fields.map fun field =>
        predicateVerdict slice row (fieldPredicate op value field)) = .ok applied ∧
      applied.getD false = fields.any (fieldMatches slice row op value) := by
  induction fields with
  | nil => exact ⟨none, rfl, rfl⟩
  | cons field rest ih =>
    obtain ⟨first, hfirst, hmatch⟩ := predicateVerdict_fieldPredicate op value field
    obtain ⟨others, hothers, hany⟩ := ih
    rw [map_cons, Verdict.disjoin_cons, hfirst, hothers, any_cons, ← hmatch, ← hany]
    cases first with
    | none => exact ⟨others, rfl, by simp⟩
    | some holds => exact ⟨_, rfl, rfl⟩

theorem selectedRows_fields (slice : TableSlice) (op : RelationalOperator) (value : Data)
    (hne : fields ≠ []) :
    ∃ selected, selectedRows slice (single .disjunction (fields.map fun field =>
        .predicate (fieldPredicate op value field))) [] = .ok selected ∧
      ∀ id, firstId slice ≤ id → id < size slice →
        selected.test id = fields.any (fieldMatches slice (rowAt slice id) op value) := by
  generalize hexpr : single .disjunction (fields.map fun field =>
    .predicate (fieldPredicate op value field)) = expr
  have hreading : ∀ row, ∃ applied,
      reading (predicateVerdict slice row) expr = .ok applied ∧
        applied.getD false = fields.any (fieldMatches slice row op value) := by
    intro row
    have hsingle := @Folds.apply_single _ _ (reading (predicateVerdict slice row)) _
      (folds_conclude .any) .disjunction (reading_disjunction _ (fields.map fun field =>
        .predicate (fieldPredicate op value field)))
    rw [← hexpr, hsingle, map_map]
    exact reading_fields op value fields
  have hsome : expr ≠ .none := by
    rw [← hexpr]
    match fields, hne with
    | [_], _ | _ :: _ :: _, _ => simp [single]
  -- Tailoring does not depend on the row.
  obtain ⟨tailored, htailored⟩ : ∃ tailored, resolve slice.schema expr = .ok tailored := by
    obtain ⟨applied, happlied, -⟩ := hreading []
    rw [← map_applied_resolve] at happlied
    obtain ⟨tailored, htailored, -⟩ := exists_of_map_eq_ok happlied
    exact ⟨tailored, htailored⟩
  refine ⟨evaluate slice tailored [], ?_, fun id hfirst hsize => ?_⟩
  · rw [selectedRows, tailor_of_ne_none hsome, htailored]
    rfl
  · obtain ⟨holds, hholds, hany⟩ := hreading (rowAt slice id)
    rw [← map_applied_resolve, htailored] at hholds
    cases hholds
    rw [test_evaluate, holds_eq_getD_applied, hany]
    simp [hfirst, hsize]

end Evaluate

/-! ## Complementary operators -/

namespace Taxonomies

variable [Regex]

/-- The rows that the complementary operator selects are those that the operator does
not select. -/
def Complementary (steps : Nat) (taxonomies : Taxonomies) (slice : TableSlice) (name : String)
    (op : RelationalOperator) (value : Data) : Prop :=
  ∃ positive negative selected unselected,
    taxonomies.resolve steps (.predicate (fieldPredicate op value name)) slice.schema =
      .ok positive ∧
    taxonomies.resolve steps (.predicate (fieldPredicate op.negate value name)) slice.schema =
      .ok negative ∧
    selectedRows slice positive [] = .ok selected ∧
    selectedRows slice negative [] = .ok unselected ∧
    ∀ id, firstId slice ≤ id → id < size slice → unselected.test id = !selected.test id

omit [Regex] in
theorem forall_rowAt {slice : TableSlice} {property : List Data → Prop} :
    (∀ id, firstId slice ≤ id → id < size slice → property (rowAt slice id)) ↔
      ∀ row ∈ slice.rows, property row := by
  constructor
  · intro hids row hrow
    obtain ⟨index, hlt, rfl⟩ := getElem_of_mem hrow
    have hprop := hids (firstId slice + index) (Nat.le_add_right _ _)
      (Nat.add_lt_add_left hlt _)
    rwa [rowAt, Nat.add_sub_cancel_left, getD_eq_getElem?_getD, getElem?_eq_getElem hlt] at hprop
  · exact fun hrows id hfirst hsize => hrows _ (rowAt_mem slice hfirst hsize)

omit [Regex] in
/-- One of two lists of answers holds somewhere and the other one does not, if and only
if they do not hold in two places and hold in one. -/
theorem any_eq_not_any_iff {first second : String → Bool} :
    fields.any second = !fields.any first ↔
      (∃ field ∈ fields, first field = true ∨ second field = true) ∧
        ∀ field ∈ fields, first field = true → ∀ other ∈ fields, second other = false := by
  have hxor : ∀ a b : Bool, (b = !a) ↔ (a = true ∨ b = true) ∧ (a = true → b = false) := by decide
  rw [hxor, any_eq_true, any_eq_true, any_eq_false, ← exists_or]
  simp only [← and_or_left, forall_exists_index, and_imp, Bool.not_eq_true]

/-- Concepts commute with negation for a slice if and only if, on every row, one of the
fields of the concept matches the operator or its complement, and no field matches the
operator while one matches the complement. -/
theorem complementary_iff (steps : Nat) (taxonomies : Taxonomies) (slice : TableSlice)
    (name : String) (definition : Concept)
    (hconcept : taxonomies.concepts.lookup name = some definition) (op : RelationalOperator)
    (value : Data)
    (hmodel : ∀ record, value = .record record → taxonomies.models.lookup name = none) :
    taxonomies.Complementary steps slice name op value ↔ value ≠ .record [] ∧ ∀ row ∈ slice.rows,
        (∃ field ∈ taxonomies.expandedFields slice.schema name definition op value,
          fieldMatches slice row op value field = true ∨
            fieldMatches slice row op.negate value field = true) ∧
        ∀ field ∈ taxonomies.expandedFields slice.schema name definition op value,
          fieldMatches slice row op value field = true →
          ∀ other ∈ taxonomies.expandedFields slice.schema name definition op value,
            fieldMatches slice row op.negate value other = false := by
  by_cases hvalue : value = .record []
  · subst hvalue
    refine iff_of_false ?_ fun hne => hne.1 rfl
    rintro ⟨positive, negative, selected, unselected, hpositive, -, hselected, -⟩
    cases hpositive
    cases hselected
  · have hpositive := resolve_fieldPredicate steps slice.schema hconcept op hmodel hvalue
    have hnegative := resolve_fieldPredicate steps slice.schema hconcept op.negate hmodel hvalue
    rw [expandedFields_negate] at hnegative
    have hne : taxonomies.expandedFields slice.schema name definition op value ≠ [] := by
      unfold expandedFields
      split
      · exact cons_ne_nil _ _
      next hne => exact hne
    obtain ⟨selected, hselected, htest⟩ := selectedRows_fields slice op value hne
    obtain ⟨unselected, hunselected, htest'⟩ := selectedRows_fields slice op.negate value hne
    have hids : taxonomies.Complementary steps slice name op value ↔
        ∀ id, firstId slice ≤ id → id < size slice → unselected.test id = !selected.test id := by
      constructor
      · rintro ⟨_, _, _, _, hpositive', hnegative', hselected', hunselected', hall⟩
        rw [hpositive] at hpositive'
        rw [hnegative] at hnegative'
        cases hpositive'
        cases hnegative'
        rw [hselected] at hselected'
        rw [hunselected] at hunselected'
        cases hselected'
        cases hunselected'
        exact hall
      · exact fun hall => ⟨_, _, _, _, hpositive, hnegative, hselected, hunselected, hall⟩
    rw [hids, ← forall_rowAt, and_iff_right hvalue]
    refine forall_congr' fun id => forall₂_congr fun hfirst hsize => ?_
    rw [htest id hfirst hsize, htest' id hfirst hsize]
    exact any_eq_not_any_iff

end Taxonomies

/-! ## Instances -/

def connection : TableSlice where
  schema := .enriched (.record [("src", .basic .int64), ("dst", .basic .int64)]) (some "conn") []
  offset := some 0
  importTime := 0
  rows := [[.basic (.int64 1), .basic (.int64 2)]]
  typed := by decide

/-- Both ends of a connection, and the end where it comes from. -/
def hosts : Taxonomies where
  concepts := [("host", ⟨["conn.src", "conn.dst"], []⟩), ("client", ⟨["conn.src"], []⟩)]
  models := []

/-- The connection is one of the first host, and also one of another host. -/
theorem host_matches_both : ∃ positive negative,
      hosts.resolve 1 (.predicate (fieldPredicate .equal (.basic (.int64 1)) "host"))
          connection.schema = .ok positive ∧
        hosts.resolve 1 (.predicate (fieldPredicate .notEqual (.basic (.int64 1))
          "host")) connection.schema = .ok negative ∧
        @selectedRows literalRegex connection positive [] = .ok [true] ∧
        @selectedRows literalRegex connection negative [] = .ok [true] :=
  ⟨_, _, rfl, rfl, rfl, rfl⟩

/-- A concept for one field commutes with negation. -/
theorem client_complementary :
    @Taxonomies.Complementary literalRegex 1 hosts connection "client" .equal
      (.basic (.int64 1)) := by
  let := literalRegex
  refine (complementary_iff 1 hosts connection "client" ⟨["conn.src"], []⟩ rfl .equal
    (.basic (.int64 1)) fun record hrecord => by cases hrecord).mpr ⟨by decide, ?_⟩
  have hmatches : ∀ row ∈ connection.rows,
      (∃ field ∈ ["conn.src"],
        fieldMatches connection row .equal (.basic (.int64 1)) field = true ∨
          fieldMatches connection row .notEqual (.basic (.int64 1)) field = true) ∧
      ∀ field ∈ ["conn.src"],
        fieldMatches connection row .equal (.basic (.int64 1)) field = true →
        ∀ other ∈ ["conn.src"],
          fieldMatches connection row .notEqual (.basic (.int64 1)) other = false := by
    decide
  exact hmatches

end Vast
