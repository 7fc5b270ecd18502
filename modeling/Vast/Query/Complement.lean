import Vast.Query.Normalize

/-! # Complementary predicates

Negations are pushed into the operators. That is right for a row when a predicate
and its complement are opposite, which null cells, incomparable values, ordering
several columns, and columns that are missing can prevent.
-/

namespace Vast

open Foundation RecordType List Predicate Except
open Expression hiding none

/-! ## Complementary operators -/

variable {op : RelationalOperator} {pred : Predicate} {columns : List (VastType × Nat)} {rhs : Data}

namespace RelationalOperator

theorem isNegated_negate (hop : isOrdering op = false) :
    op.negate.isNegated = !op.isNegated := by
  cases op <;> first | rfl | cases hop

end RelationalOperator

theorem compatible_negate (type : VastType) (op : RelationalOperator) (rhs : Data) :
    compatible type op.negate rhs = compatible type op rhs := by
  cases op <;> rfl

namespace TypeResolver

theorem namedLike_negate (extractor : VastType) (op : RelationalOperator) (rhs : Data) :
    namedLike extractor op.negate rhs = namedLike extractor op rhs := by
  funext type
  rw [namedLike, compatible_negate, namedLike]

/-! ## The columns of a predicate -/

variable (schema : VastType)

/-- The columns whose type has a property. -/
def columnsWith (property : VastType → Bool) : List (VastType × Nat) :=
  ((leaves schema.fields).zipIdx.filter fun entry => property entry.1.type).map fun entry =>
    (entry.1.type, entry.2)

/-- The columns that a key names and that can be compared with the literal. -/
def columnsNamed (field : String) (op : RelationalOperator) (rhs : Data) : List (VastType × Nat) :=
  ((resolveKeySuffix field schema.name schema.fields).filter fun offset =>
    compatible (fieldType schema.fields offset) op rhs).map fun offset =>
      (fieldType schema.fields offset, flatIndex schema.fields offset)

def boundTo (op : RelationalOperator) (rhs : Data) (columns : List (VastType × Nat)) :
    List Expression :=
  columns.map fun column => bound column.1 column.2 op rhs

theorem boundTo_ne_none :
    ∀ operand ∈ boundTo op rhs columns, operand ≠ .none := by
  rw [boundTo, forall_mem_map]
  exact fun _ _ => by simp [bound]

theorem filterMap_if {α β : Type} (property : α → Bool) (f : α → β) (items : List α) :
    (items.filterMap fun item => if property item then some (f item) else none) =
      (items.filter property).map f := by
  induction items with
  | nil => rfl
  | cons head tail ih =>
    by_cases hhead : property head = true
    · simp [hhead, ih]
    · simp [hhead, ih]

theorem resolveExtractor_eq (property : VastType → Bool)
    (op : RelationalOperator) (rhs : Data) : resolveExtractor schema property op rhs =
      connect op (boundTo op rhs (columnsWith schema property)) := by
  rw [resolveExtractor, filterMap_if, boundTo, columnsWith, map_map]
  rfl

theorem resolveFieldExtractor_eq (field : String) (op : RelationalOperator)
    (rhs : Data) : resolveFieldExtractor schema field op rhs =
      connect op (boundTo op rhs (columnsNamed schema field op rhs)) := by
  rw [resolveFieldExtractor, filterMap_if, boundTo, columnsNamed, map_map]
  rfl

theorem columnsNamed_negate (field : String) (op : RelationalOperator)
    (rhs : Data) : columnsNamed schema field op.negate rhs = columnsNamed schema field op rhs := by
  simp [columnsNamed, compatible_negate]

theorem predicates_collected (kind : Connective) (operands : List Expression) :
    predicates (collected kind operands) = operands.flatMap predicates := by
  match operands with
  | [] => rfl
  | [operand] => exact (append_nil _).symm
  | _ :: _ :: _ => exact predicates_apply ..

theorem predicates_connect (op : RelationalOperator) (rhs : Data)
    (columns : List (VastType × Nat)) : predicates (connect op (boundTo op rhs columns)) =
      columns.map fun column => ⟨.dataExtractor column.1 column.2, op, .data rhs⟩ := by
  rw [connect_eq, predicates_collected, boundTo, flatMap_map, ← flatMap_pure_eq_map]
  rfl

end TypeResolver

namespace Evaluate

open TypeResolver

section Columns

variable [Regex] {slice : TableSlice} {row : List Data} {op : RelationalOperator} {rhs : Data}
  {columns : List (VastType × Nat)}

/-- A predicate on columns says what all of them say for a negated operator, and
what one of them says otherwise. -/
theorem applied_connect (hne : columns ≠ []) :
    applied slice row (connect op (boundTo op rhs columns)) =
      some (if op.isNegated then columns.all fun column => evaluateCell slice column.2 op rhs row
        else columns.any fun column => evaluateCell slice column.2 op rhs row) := by
  rw [connect_eq, applied_collected (by simpa [boundTo] using hne) boundTo_ne_none, boundTo]
  cases op.isNegated with
  | true => simp [Connective.combine]; rfl
  | false => simp [Connective.combine]; rfl

/-- The complement is opposite when it is opposite in every column, and ordering
operators are asked about one column. -/
theorem applied_connect_negate (hne : columns ≠ [])
    (hcols : ∀ column ∈ columns, evaluateCell slice column.2 op.negate rhs row =
      !evaluateCell slice column.2 op rhs row)
    (hordering : isOrdering op = true → columns.length = 1) :
    applied slice row (connect op.negate (boundTo op.negate rhs columns)) =
      (applied slice row (connect op (boundTo op rhs columns))).map (!·) := by
  rw [applied_connect hne, applied_connect hne]
  apply congrArg some
  by_cases hop : isOrdering op = true
  · obtain ⟨column, rfl⟩ := length_eq_one_iff.mp (hordering hop)
    have hcol := hcols column (by simp)
    split <;> split <;> simpa using hcol
  · rw [RelationalOperator.isNegated_negate (Bool.eq_false_iff.mpr hop)]
    cases op.isNegated with
    | true =>
      simp only [Bool.not_true, Bool.false_eq_true, if_false, if_true, not_all_eq_any_not]
      rw [Bool.eq_iff_iff, any_eq_true, any_eq_true]
      exact exists_congr fun column => and_congr_right fun hmem => by rw [hcols column hmem]
    | false =>
      simp only [Bool.not_false, Bool.false_eq_true, if_false, if_true, not_any_eq_all_not]
      rw [Bool.eq_iff_iff, all_eq_true, all_eq_true]
      exact forall₂_congr fun column hmem => by rw [hcols column hmem]

end Columns

/-! ## Opposite predicates -/

def columnPredicates (schema : VastType) (pred : Predicate) : List Predicate :=
  match resolvePredicate schema pred with
  | .ok tailored => predicates tailored
  | .error _ => []

/-- Whether the predicate is about time stamps, which are found by name or by
attribute. -/
def onTimestamp (pred : Predicate) : Bool :=
  match pred.lhs, pred.rhs with
  | .typeExtractor type, .data _ | .data _, .typeExtractor type =>
    !type.hasValue && type.name = "timestamp"
  | _, _ => false

variable [Regex] {slice : TableSlice} {row : List Data}

/-- The predicate and its complement are opposite on a row: they are in every
column, and ordering operators and time stamps are about one column. -/
structure Opposed (slice : TableSlice) (row : List Data) (pred : Predicate) : Prop where
  columns : ∀ leaf ∈ columnPredicates slice.schema pred,
    predicateHolds slice leaf.negate row = !predicateHolds slice leaf row
  single : isOrdering pred.op = true ∨ onTimestamp pred = true →
    (columnPredicates slice.schema pred).length = 1

/-- The predicate can be tailored, and unless it applies to nothing, its complement is
opposite. -/
def Invertible (slice : TableSlice) (row : List Data) (pred : Predicate) : Prop :=
  ∃ tailored, resolvePredicate slice.schema pred = .ok tailored ∧
    (tailored ≠ .none → Opposed slice row pred)

/-- The columns of an extractor are the same for the complement. -/
theorem opposite_of_columns (hpred : resolvePredicate slice.schema pred =
      .ok (connect pred.op (boundTo pred.op rhs columns)))
    (hnegate : resolvePredicate slice.schema pred.negate =
      .ok (connect pred.op.negate (boundTo pred.op.negate rhs columns)))
    (hopposed : connect pred.op (boundTo pred.op rhs columns) ≠ .none → Opposed slice row pred) :
    predicateVerdict slice row pred.negate = (predicateVerdict slice row pred).negate := by
  by_cases hcols : columns = []
  · rw [predicateVerdict, predicateVerdict, hpred, hnegate, hcols]
    rfl
  rw [connect_eq, ne_eq, collected_eq_none_iff boundTo_ne_none] at hopposed
  obtain ⟨hleaves, hsingle⟩ := hopposed (by simpa [boundTo] using hcols)
  rw [columnPredicates, hpred] at hleaves hsingle
  rw [predicateVerdict, predicateVerdict, hpred, hnegate]
  apply congrArg ok
  simp only [predicates_connect] at hleaves
  apply applied_connect_negate hcols fun column hcol => hleaves _ (mem_map_of_mem hcol)
  intro hordering
  have hlen := hsingle (Or.inl hordering)
  simpa [predicates_connect] using hlen

/-- A time stamp in one column. -/
theorem opposite_of_timestamp {named attributed : List (VastType × Nat)}
    (hleaves : ∀ leaf ∈ predicates (.disjunction [connect op (boundTo op rhs named),
      connect op (boundTo op rhs attributed)]),
      predicateHolds slice leaf.negate row = !predicateHolds slice leaf row)
    (hsingle : (predicates (.disjunction [connect op (boundTo op rhs named),
      connect op (boundTo op rhs attributed)])).length = 1) :
    holds slice row (.disjunction [connect op.negate (boundTo op.negate rhs named),
        connect op.negate (boundTo op.negate rhs attributed)]) =
      !holds slice row (.disjunction [connect op (boundTo op rhs named),
        connect op (boundTo op rhs attributed)]) := by
  simp only [predicates, predicatesList, predicates_connect, append_nil, length_append,
    length_map, forall_mem_append, forall_mem_map] at hleaves hsingle
  rcases Nat.add_eq_one_iff.mp hsingle with ⟨hnamed, hattributed⟩ | ⟨hnamed, hattributed⟩
  · obtain ⟨column, rfl⟩ := length_eq_one_iff.mp hattributed
    rw [eq_nil_of_length_eq_zero hnamed]
    have hcol := hleaves.2 column (by simp)
    simpa [holds, holdsAny, connect, boundTo, bound, negate] using hcol
  · obtain ⟨column, rfl⟩ := length_eq_one_iff.mp hnamed
    rw [eq_nil_of_length_eq_zero hattributed]
    have hcol := hleaves.1 column (by simp)
    simpa [holds, holdsAny, connect, boundTo, bound, negate] using hcol

omit [Regex] in
/-- How a predicate is tailored, with any operator. -/
theorem resolvePredicate_cases (schema : VastType) (pred : Predicate) :
    (∃ type rhs, onTimestamp pred = (!type.hasValue && type.name = "timestamp") ∧
        ∀ op, resolvePredicate schema { pred with op := op } =
          resolveTypeExtractor schema type op rhs) ∨
      (∃ field rhs, ∀ op, resolvePredicate schema { pred with op := op } =
        .ok (resolveFieldExtractor schema field op rhs)) ∨
      ∀ op, resolvePredicate schema { pred with op := op } =
        .ok (.predicate { pred with op := op }) := by
  obtain ⟨lhs, op, rhs⟩ := pred
  cases lhs with
  | typeExtractor type =>
    cases rhs with
    | data value => exact Or.inl ⟨type, value, rfl, fun _ => rfl⟩
    | _ => exact Or.inr (Or.inr fun _ => rfl)
  | fieldExtractor field =>
    cases rhs with
    | data value => exact Or.inr (Or.inl ⟨field, value, fun _ => rfl⟩)
    | _ => exact Or.inr (Or.inr fun _ => rfl)
  | data value =>
    cases rhs with
    | typeExtractor type => exact Or.inl ⟨type, value, rfl, fun _ => rfl⟩
    | fieldExtractor field => exact Or.inr (Or.inl ⟨field, value, fun _ => rfl⟩)
    | _ => exact Or.inr (Or.inr fun _ => rfl)
  | _ => exact Or.inr (Or.inr fun _ => by cases rhs <;> rfl)

theorem predicateVerdict_negate (hinvertible : Invertible slice row pred) :
    predicateVerdict slice row pred.negate = (predicateVerdict slice row pred).negate := by
  obtain ⟨tailored, htailored, hopposed⟩ := hinvertible
  rcases resolvePredicate_cases slice.schema pred with
    ⟨type, rhs, htimestamp, htype⟩ | ⟨field, rhs, hfield⟩ | hother
  · have hpred := htype pred.op
    have hnegate := htype pred.op.negate
    unfold resolveTypeExtractor at hpred hnegate
    simp only [resolveExtractor_eq, namedLike_negate] at hpred hnegate
    by_cases hvalue : (!type.hasValue) = true
    · rw [if_pos hvalue] at hpred hnegate
      by_cases hname : type.name = "timestamp"
      · rw [if_pos hname] at hpred hnegate
        by_cases htime : (!rhs.isTime) = true
        · rw [if_pos htime] at hpred
          cases hpred.symm.trans htailored
        · rw [if_neg htime] at hpred hnegate
          cases hpred.symm.trans htailored
          obtain ⟨hleaves, hsingle⟩ := hopposed nofun
          rw [columnPredicates, hpred] at hleaves hsingle
          have hone := hsingle (Or.inr (by simp [htimestamp, hvalue, hname]))
          rw [predicateVerdict, predicateVerdict, hpred, negate, hnegate]
          exact congrArg (fun holds => ok (some holds)) (opposite_of_timestamp hleaves hone)
      · rw [if_neg hname] at hpred hnegate
        cases hpred.symm.trans htailored
        exact opposite_of_columns hpred hnegate hopposed
    · rw [if_neg hvalue] at hpred hnegate
      cases hpred.symm.trans htailored
      exact opposite_of_columns hpred hnegate hopposed
  · have hpred := hfield pred.op
    have hnegate := hfield pred.op.negate
    rw [resolveFieldExtractor_eq] at hpred hnegate
    rw [columnsNamed_negate] at hnegate
    cases hpred.symm.trans htailored
    exact opposite_of_columns hpred hnegate hopposed
  · have hpred := hother pred.op
    have hnegate := hother pred.op.negate
    cases hpred.symm.trans htailored
    have hleaf := (hopposed nofun).columns pred
      (by rw [columnPredicates, hpred]; simp [predicates])
    rw [predicateVerdict, predicateVerdict, hpred, negate, hnegate]
    exact congrArg (fun holds => ok (some holds)) hleaf

end Evaluate

/-! ## Normalized expressions -/

section Normalize

open Evaluate

variable [Regex]

/-- Something is left of all operands when they are tailored, or of none. -/
def Uniform (schema : VastType) (operands : List Expression) : Prop :=
  (∀ operand ∈ operands, ∃ tailored, TypeResolver.resolve schema operand = .ok tailored ∧
      tailored ≠ .none) ∨
    ∀ operand ∈ operands, TypeResolver.resolve schema operand = .ok .none

theorem Uniform.sayAlike {slice : TableSlice} {row : List Data} {operands : List Expression}
    (huniform : Uniform slice.schema operands) :
    SayAlike (predicateVerdict slice row) operands := by
  refine huniform.imp (fun happly operand hop => ?_) fun hnone operand hop => ?_
  · obtain ⟨tailored, htailored, hne⟩ := happly operand hop
    rw [← map_applied_resolve, htailored]
    exact ⟨_, congrArg ok (applied_of_ne_none hne)⟩
  · rw [← map_applied_resolve, hnone operand hop]
    rfl

/-- What an expression needs so that normalizing it does not change which rows of
a slice match: a condition on what each pass gets. -/
structure Normalizable (slice : TableSlice) (expression : Expression) : Prop where
  hoists : hoistable expression = true
  /-- Literals are moved to the right-hand side only where tailoring makes no difference between
  the sides, or finds nothing on both. -/
  mirrors : ∀ pred ∈ predicates expression,
    TypeResolver.resolvePredicate slice.schema pred.align =
      TypeResolver.resolvePredicate slice.schema pred
  /-- Negations are pushed only into predicates with opposite complements, and into connectives
  with uniform operands. -/
  pushes : ∀ row ∈ slice.rows,
    Pushes (Invertible slice row) (Uniform slice.schema) false (align (hoist expression))
  /-- No two predicates differ only in the sign of a zero. -/
  distinct : ∀ first ∈ predicates (denegate false (align (hoist expression))),
    ∀ second ∈ predicates (denegate false (align (hoist expression))),
      first.same second = true → first = second
  rehoists : hoistable (deduplicate (denegate false (align (hoist expression)))) = true

theorem Normalizable.reading_normalize {slice : TableSlice} {expression : Expression}
    (hnormalizable : Normalizable slice expression) {row : List Data} (hrow : row ∈ slice.rows) :
    reading (predicateVerdict slice row) (normalize expression) =
      reading (predicateVerdict slice row) expression := by
  have hpushed := reading_denegate (fun pred => predicateVerdict_negate)
    (fun operands => Uniform.sayAlike) false (hnormalizable.pushes row hrow)
  calc reading (predicateVerdict slice row) (normalize expression)
      = reading (predicateVerdict slice row)
          (deduplicate (denegate false (align (hoist expression)))) :=
        reading_hoist hnormalizable.rehoists
    _ = reading (predicateVerdict slice row) (denegate false (align (hoist expression))) :=
        reading_deduplicate (fun first second hfirst hsecond hsame =>
            congrArg _ (hnormalizable.distinct first hfirst second hsecond hsame))
          (negationFree_denegate false _) fun _ => id
    _ = reading (predicateVerdict slice row) (align (hoist expression)) := hpushed
    _ = reading (fun pred => predicateVerdict slice row pred.align) (hoist expression) :=
        reading_align _
    _ = reading (predicateVerdict slice row) (hoist expression) := by
        apply reading_congr
        rw [predicates_hoist]
        intro pred hpred
        rw [predicateVerdict, hnormalizable.mirrors pred hpred, predicateVerdict]
    _ = reading (predicateVerdict slice row) expression := reading_hoist hnormalizable.hoists

end Normalize

/-! ## Instances -/

def numberSlice (rows : List (List Data))
    (htyped : ∀ row ∈ rows, row.length = 1 ∧ ∀ entry ∈ (leaves [("x", .basic .int64)]).zip row,
      entry.1.type.admits entry.2 = true) : TableSlice where
  schema := .enriched (.record [("x", .basic .int64)]) (some "sample") []
  offset := some 0
  importTime := 0
  rows := rows
  typed := htyped

def oneTwo : TableSlice :=
  numberSlice [[.basic (.int64 1)], [.basic (.int64 2)]] (by decide)

def oneNull : TableSlice :=
  numberSlice [[.basic (.int64 1)], [.none]] (by decide)

/-- The negation of a comparison, with the literal on the left-hand side. -/
def notOne : Expression :=
  .negation (.predicate ⟨.data (.basic (.int64 1)), .equal, .fieldExtractor "x"⟩)

def columnEquals : Predicate :=
  ⟨.dataExtractor (.basic .int64) 0, .equal, .data (.basic (.int64 1))⟩

/-- Two negations above a field that the schema does not have. -/
def notNotMissing : Expression :=
  .negation (.negation (.predicate ⟨.fieldExtractor "y", .equal, .data (.basic (.int64 1))⟩))

end Vast
