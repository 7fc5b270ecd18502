import Vast.Evaluate.Dies
import Vast.Query.Retailor
import Vast.Table.Filter

/-! # Counting and selecting

Counting and selecting are written separately. They differ in what they evaluate:
selecting evaluates the tailored expression, and counting the expression itself, on
which the program dies if it is not bound. And they differ in what no hints mean for the
nil expression: all rows, or no row.
-/

namespace Vast

open Foundation List Bitmap
open Evaluate

/-! ## Nil parts -/

namespace Expression

mutual

/-- Whether tailoring leaves nothing of an expression in which all predicates are bound. -/
def vanishes : Expression → Bool
  | .none => true
  | .conjunction operands => operands.isEmpty || (vanishesList operands).any id
  | .disjunction operands => (vanishesList operands).all id
  | .negation operand => vanishes operand
  | .predicate _ => false

def vanishesList : List Expression → List Bool
  | [] => []
  | operand :: rest => vanishes operand :: vanishesList rest

end

mutual

/-- Nil parts are false when they are evaluated, and are dropped when they are tailored. That
makes no difference unless they are negated. -/
def nilHarmless : Expression → Bool
  | .none => true
  | .conjunction operands => !operands.isEmpty && nilHarmlessList operands
  | .disjunction operands => nilHarmlessList operands
  | .negation operand => !vanishes operand && nilHarmless operand
  | .predicate _ => true

def nilHarmlessList : List Expression → Bool
  | [] => true
  | operand :: rest => nilHarmless operand && nilHarmlessList rest

end

end Expression

namespace Evaluate

open TypeResolver Verdict Expression

/-- Whether a predicate is bound when it is tailored: an extractor is compared with a literal,
or it is bound already. -/
def bindable (schema : VastType) (pred : Predicate) : Bool :=
  match pred.lhs, pred.rhs with
  | .typeExtractor _, .data _ => true
  | .data _, .typeExtractor _ => true
  | .fieldExtractor _, .data _ => true
  | .data _, .fieldExtractor _ => true
  | _, _ => isBound schema pred

variable {schema : VastType} {pred : Predicate} {expression tailored : Expression}

theorem bindable_of_isBound (hbound : isBound schema pred = true) :
    bindable schema pred = true := by
  unfold bindable
  split <;> first | rfl | exact hbound

theorem isBound_connect {op : RelationalOperator} {rhs : Data} {columns : List (VastType × Nat)}
    (hcolumns : ∀ column ∈ columns, column.2 < (RecordType.leaves schema.fields).length) :
    ∀ pred ∈ (connect op (boundTo op rhs columns)).predicates, isBound schema pred = true := by
  rw [predicates_connect, forall_mem_map]
  exact fun column hcolumn => decide_eq_true (hcolumns column hcolumn)

theorem lt_of_mem_columnsWith {property : VastType → Bool} :
    ∀ column ∈ columnsWith schema property,
      column.2 < (RecordType.leaves schema.fields).length := by
  simp only [columnsWith, forall_mem_map, mem_filter, mem_zipIdx_iff_getElem?]
  exact fun entry hentry => (List.getElem?_eq_some_iff.mp hentry.1).1

theorem lt_of_mem_columnsNamed {field : String} {op : RelationalOperator} {rhs : Data} :
    ∀ column ∈ columnsNamed schema field op rhs,
      column.2 < (RecordType.leaves schema.fields).length := by
  simp only [columnsNamed, forall_mem_map, mem_filter]
  intro offset hoffset
  obtain ⟨leaf, hleaf, rfl⟩ := RecordType.exists_leaf_of_mem_resolveKeySuffix hoffset.1
  exact (List.getElem?_eq_some_iff.mp (RecordType.getElem?_flatIndex hleaf)).1

theorem isBound_resolveTypeExtractor {type : VastType} {op : RelationalOperator} {rhs : Data}
    {resolved : Expression} (hresolve : resolveTypeExtractor schema type op rhs = .ok resolved) :
    ∀ part ∈ resolved.predicates, isBound schema part = true := by
  have hcolumns : ∀ property, ∀ part ∈ (connect op (boundTo op rhs
      (columnsWith schema property))).predicates, isBound schema part = true :=
    fun _ => isBound_connect lt_of_mem_columnsWith
  simp only [resolveTypeExtractor, resolveExtractor_eq] at hresolve
  split at hresolve
  · split at hresolve
    · split at hresolve
      · cases hresolve
      · cases hresolve
        simp only [predicates, predicatesList, forall_mem_append]
        exact ⟨hcolumns _, hcolumns _, forall_mem_nil _⟩
    · cases hresolve
      exact hcolumns _
  · cases hresolve
    exact hcolumns _

theorem isBound_resolvePredicate {resolved : Expression} (hbindable : bindable schema pred = true)
    (hresolve : resolvePredicate schema pred = .ok resolved) :
    ∀ part ∈ resolved.predicates, isBound schema part = true := by
  obtain ⟨lhs, op, rhs⟩ := pred
  unfold resolvePredicate at hresolve
  unfold bindable at hbindable
  dsimp only at hresolve hbindable
  split at hresolve
  · exact isBound_resolveTypeExtractor hresolve
  · exact isBound_resolveTypeExtractor hresolve
  · cases hresolve
    rw [resolveFieldExtractor_eq]
    exact isBound_connect lt_of_mem_columnsNamed
  · cases hresolve
    rw [resolveFieldExtractor_eq]
    exact isBound_connect lt_of_mem_columnsNamed
  · cases hresolve
    simpa [predicates] using hbindable

theorem isBound_tailored (htailored : tailor expression schema = .ok tailored)
    (hbindable : ∀ pred ∈ expression.predicates, bindable schema pred = true) :
    ∀ pred ∈ tailored.predicates, isBound schema pred = true := by
  have hne : expression ≠ .none := by
    rintro rfl
    cases htailored
  rw [tailor_of_ne_none hne] at htailored
  intro pred hpred
  obtain ⟨source, hsource, resolved, hresolve, hmem⟩ := mem_predicates_resolve htailored hpred
  exact isBound_resolvePredicate (hbindable source hsource) hresolve pred hmem

variable [Regex] {slice : TableSlice} {row : List Data}

theorem verdict_of_isBound (hbound : isBound slice.schema pred = true) :
    predicateVerdict slice row pred = .ok (some (holds slice row (.predicate pred))) := by
  obtain ⟨lhs, op, rhs⟩ := pred
  cases lhs <;> cases rhs <;> first | rfl | cases hbound

mutual

/-- What is left of an expression in which all predicates are bound says what it says. -/
theorem reading_of_nilHarmless : ∀ expression : Expression,
    (∀ pred ∈ expression.predicates, isBound slice.schema pred = true) →
      expression.nilHarmless = true → reading (predicateVerdict slice row) expression =
          .ok (if expression.vanishes then none else some (holds slice row expression)) ∧
        (expression.vanishes = true → holds slice row expression = false)
  | .none, _, _ => ⟨rfl, fun _ => rfl⟩
  | .conjunction operands, hbound, hharmless => by
    rw [nilHarmless, Bool.and_eq_true, Bool.not_eq_true', List.isEmpty_eq_false_iff] at hharmless
    obtain ⟨hne, hharmless⟩ := hharmless
    obtain ⟨hreading, hfalse, -⟩ := readingList_of_nilHarmless operands hbound hharmless
    have hlist : readingList (predicateVerdict slice row) operands ≠ [] := by
      rw [readingList_eq]
      simpa using hne
    rw [reading, conjoinSome_of_ne_nil hlist, hreading, vanishes, isEmpty_eq_false_iff.mpr hne,
      Bool.false_or, holds]
    exact ⟨rfl, hfalse⟩
  | .disjunction operands, hbound, hharmless => by
    obtain ⟨-, -, hreading, hfalse⟩ := readingList_of_nilHarmless operands hbound hharmless
    rw [reading, hreading, vanishes, holds]
    exact ⟨rfl, hfalse⟩
  | .negation operand, hbound, hharmless => by
    rw [nilHarmless, Bool.and_eq_true, Bool.not_eq_true'] at hharmless
    obtain ⟨hvanishes, hharmless⟩ := hharmless
    rw [reading, (reading_of_nilHarmless operand hbound hharmless).1, vanishes, hvanishes]
    exact ⟨rfl, nofun⟩
  | .predicate pred, hbound, _ =>
    ⟨verdict_of_isBound (hbound pred (mem_singleton_self _)), nofun⟩

theorem readingList_of_nilHarmless : ∀ operands : List Expression,
    (∀ pred ∈ predicatesList operands, isBound slice.schema pred = true) →
      nilHarmlessList operands = true →
        conjoin (readingList (predicateVerdict slice row) operands) =
            .ok (if (vanishesList operands).any id then none
              else some (holdsAll slice row operands)) ∧
          ((vanishesList operands).any id = true → holdsAll slice row operands = false) ∧
          disjoin (readingList (predicateVerdict slice row) operands) =
            .ok (if (vanishesList operands).all id then none
              else some (holdsAny slice row operands)) ∧
          ((vanishesList operands).all id = true → holdsAny slice row operands = false)
  | [], _, _ => ⟨rfl, nofun, rfl, fun _ => rfl⟩
  | operand :: rest, hbound, hharmless => by
    obtain ⟨hop, hrest⟩ := forall_mem_append.mp hbound
    rw [nilHarmlessList, Bool.and_eq_true] at hharmless
    obtain ⟨hreading, hfalse⟩ := reading_of_nilHarmless operand hop hharmless.1
    obtain ⟨hall, hallFalse, hany, hanyFalse⟩ :=
      readingList_of_nilHarmless rest hrest hharmless.2
    rw [readingList, conjoin_cons, disjoin_cons, hreading, hall, hany, both_ok, either_ok,
      vanishesList, holdsAll, holdsAny, any_cons, all_cons]
    generalize (vanishesList rest).any id = someVanish at hallFalse ⊢
    generalize (vanishesList rest).all id = allVanish at hanyFalse ⊢
    cases hvanishes : operand.vanishes with
    | true => simp_all
    | false => cases someVanish <;> cases allVanish <;> simp_all

end

/-- Evaluating what is tailored already is the same as evaluating what is tailored again. -/
theorem holds_tailored (hbound : ∀ pred ∈ expression.predicates, isBound slice.schema pred = true)
    (hharmless : expression.nilHarmless = true)
    (htailored : tailor expression slice.schema = .ok tailored) :
    holds slice row tailored = holds slice row expression := by
  obtain ⟨hreading, hfalse⟩ := @reading_of_nilHarmless _ slice row expression hbound hharmless
  rw [reading_of_tailor htailored, Except.ok.injEq] at hreading
  rw [holds_eq_getD_applied, hreading]
  cases hvanishes : expression.vanishes with
  | true => exact (hfalse hvanishes).symm
  | false => rfl

end Evaluate

/-! ## Counting -/

namespace TableSlice

variable [Regex]

/-- The number of rows that hints name and that satisfy an expression, unless the program
dies. -/
def countMatchingChecked (slice : TableSlice) (expression : Expression) (hints : Bitmap) :
    Option Nat :=
  match expression with
  | .none => some (slice.countMatching .none hints)
  | expression =>
    match tailor expression slice.schema with
    | .error _ => some 0
    | .ok _ => (evaluateChecked slice expression hints).map rank

/-- The slices that are selected, unless the program dies. -/
def selectChecked (slice : TableSlice) (expression : Expression) (hints : Bitmap) :
    Option (List TableSlice) :=
  let selection := slice.hintedIds hints
  if !selection.any then some []
  else
    match expression with
    | .none => some (slice.dice selection)
    | expression =>
      match tailor expression slice.schema with
      | .error _ => some []
      | .ok tailored =>
        (evaluateChecked slice tailored selection).map fun selection =>
          if !selection.any then [] else slice.dice selection

variable {slice : TableSlice} {hints : Bitmap} {expression tailored : Expression}

/-! ## Numbers of rows -/

section

variable (slice : TableSlice)

theorem rank_evaluate (expression : Expression) (hints : Bitmap) :
    rank (evaluate slice expression hints) =
      (slice.namedRows hints).countP fun row => holds slice row expression := by
  have hsel : Selects slice
      (fun index => (hints.isEmpty || hints.test (firstId slice + index)) &&
        holds slice (slice.rows.getD index []) expression)
      (evaluate slice expression hints) := by
    apply selects_of_test
    intro id
    rw [test_evaluate, rowAt]
    by_cases hfirst : firstId slice ≤ id
    · simp [hfirst, Bool.and_assoc]
    · simp [hfirst]
  rw [rank_eq hsel, namedRows, countP_map, countP_filter, countP_eq_length_filter]
  congr 1
  apply filter_congr
  intro index _
  rw [Bool.and_comm]
  rfl

theorem length_select (expression : Expression) (hints : Bitmap) :
    ((slice.select expression hints).flatMap rows).length =
      (slice.namedRows hints).countP (slice.satisfies expression) := by
  rw [flatMap_rows_select, countP_eq_length_filter]

/-- Without hints, the nil expression counts no row. -/
theorem countMatching_none (hints : Bitmap) : slice.countMatching .none hints =
      if hints.isEmpty then 0 else (slice.namedRows hints).length := by
  cases hempty : hints.isEmpty with
  | true =>
    rw [isEmpty_iff.mp hempty]
    rfl
  | false =>
    have hrange : Ascending id (range hints.length) := pairwise_lt_range
    have hids := hrange.filter hints.test
    have htaken : Ascending id (((range hints.length).filter hints.test).takeWhile
        fun id => id < firstId slice + slice.rows.length) :=
      Pairwise.sublist (takeWhile_sublist _) hids
    have hmem (index : Nat) : (index ∈ ((range hints.length).filter hints.test).takeWhile fun id =>
        id < firstId slice + slice.rows.length) ↔ index ∈ (range hints.length).filter hints.test ∧
          index < firstId slice + slice.rows.length := hids.mem_takeWhile_iff
    have hcount := @ids_eq_map slice (fun index => hints.test (firstId slice + index)) _
      (htaken.filter fun id => firstId slice ≤ id) fun index => by
        rw [mem_filter, hmem, mem_filter, mem_range, and_iff_right_of_imp lt_length_of_test,
          decide_eq_true_eq]
        constructor
        · rintro ⟨⟨htest, hlt⟩, hge⟩
          exact ⟨index - firstId slice, by omega, by omega, by rwa [Nat.add_sub_cancel' hge]⟩
        · rintro ⟨index, hindex, rfl, htest⟩
          exact ⟨⟨htest, by omega⟩, by omega⟩
    rw [countMatching, hcount, namedRows, hempty]
    simp

/-! ## Agreement -/

theorem evaluateChecked_of_isBound
    (hbound : ∀ pred ∈ expression.predicates, isBound slice.schema pred = true) (hints : Bitmap) :
    evaluateChecked slice expression hints = some (evaluate slice expression hints) := by
  rw [evaluateChecked, not_dies expression hbound]
  rfl

end

theorem countMatchingChecked_eq (hne : expression ≠ .none)
    (htailored : tailor expression slice.schema = .ok tailored)
    (hbound : ∀ pred ∈ expression.predicates, isBound slice.schema pred = true) (hints : Bitmap) :
    slice.countMatchingChecked expression hints =
      some ((slice.namedRows hints).countP fun row => holds slice row expression) := by
  rw [countMatchingChecked]
  · simp only [htailored, evaluateChecked_of_isBound slice hbound]
    rw [Option.map_some, rank_evaluate]
  · exact hne

theorem selectChecked_eq (hne : expression ≠ .none)
    (htailored : tailor expression slice.schema = .ok tailored)
    (hbound : ∀ pred ∈ tailored.predicates, isBound slice.schema pred = true) (hints : Bitmap) :
    slice.selectChecked expression hints = some (slice.select expression hints) := by
  unfold selectChecked select
  cases hany : (slice.hintedIds hints).any with
  | false => simp [hany]
  | true =>
    simp only [hany, Bool.not_true, Bool.false_eq_true, if_false, htailored,
      evaluateChecked_of_isBound slice hbound]
    rfl

theorem satisfies_of_nilHarmless (hne : expression ≠ .none)
    (htailored : tailor expression slice.schema = .ok tailored)
    (hbound : ∀ pred ∈ expression.predicates, isBound slice.schema pred = true)
    (hharmless : expression.nilHarmless = true) :
    slice.satisfies expression = fun row => holds slice row expression := by
  funext row
  rw [← holds_tailored hbound hharmless htailored]
  simp [satisfies, htailored]

/-- Both calls return, and the count is the number of selected rows. -/
def CountsSelected (slice : TableSlice) (expression : Expression) (hints : Bitmap) : Prop :=
  ∃ pieces, slice.selectChecked expression hints = some pieces ∧
    slice.countMatchingChecked expression hints = some (pieces.flatMap rows).length

/-- No call dies, and the named rows that satisfy the expression are counted. -/
structure Counted (slice : TableSlice) (expression : Expression) (hints : Bitmap) : Prop where
  selects : slice.selectChecked expression hints = some (slice.select expression hints)
  counts : slice.countMatchingChecked expression hints =
    some ((slice.namedRows hints).countP (slice.satisfies expression))

theorem Counted.countsSelected (hcounted : Counted slice expression hints) :
    CountsSelected slice expression hints :=
  ⟨_, hcounted.selects, by rw [hcounted.counts, length_select]⟩

/-- The nil expression counts rows that are named one by one. -/
theorem counted_none (hhints : hints.isEmpty = false ∨ slice.rows = []) :
    Counted slice .none hints where
  selects := by
    cases hany : (slice.hintedIds hints).any <;> simp [selectChecked, select, hany]
  counts := by
    have hall : (slice.namedRows hints).countP (slice.satisfies .none) =
        (slice.namedRows hints).length := by
      rw [countP_eq_length]
      exact fun _ _ => rfl
    rw [countMatchingChecked, countMatching_none, hall]
    rcases hhints with hsome | hrows
    · rw [hsome]
      rfl
    · simp [namedRows, hrows]

/-- An expression that is tailored already, without nil parts that matter, counts the rows it
selects. -/
theorem counted_of_nilHarmless (hne : expression ≠ .none)
    (hfit : ∀ tailored, tailor expression slice.schema = .ok tailored →
      (∀ pred ∈ expression.predicates, isBound slice.schema pred = true) ∧
        expression.nilHarmless = true) : Counted slice expression hints := by
  cases htailored : tailor expression slice.schema with
  | error error =>
    constructor
    · cases hany : (slice.hintedIds hints).any <;> simp [selectChecked, select, hany, htailored]
    · have hnone : slice.satisfies expression = fun _ => false := by
        funext row
        simp [satisfies, htailored]
      simp only [countMatchingChecked, htailored, hnone]
      simp
  | ok tailored =>
    obtain ⟨hbound, hharmless⟩ := hfit tailored htailored
    constructor
    · exact selectChecked_eq hne htailored (isBound_tailored htailored fun pred hpred =>
        bindable_of_isBound (hbound pred hpred)) hints
    · rw [countMatchingChecked_eq hne htailored hbound,
        satisfies_of_nilHarmless hne htailored hbound hharmless]

end TableSlice

end Vast
