import Vast.Query.MetaPruner
import Vast.Store.DefaultStore

/-! # The segment store

The segment store looks up the candidates of a query. It checks the rows of each slice
with the expression of the query, tailored to the slice and without meta predicates.
-/

namespace Vast

open Foundation List TableSlice
open Evaluate
open MetaPruner

namespace SegmentStore

def checker (expression : Expression) (slice : TableSlice) : Except TailorError Expression :=
  if expression = .none then .ok .none
  else (tailor expression slice.schema).map pruneMetaPredicates

def checkers (expression : Expression) : List TableSlice → Except TailorError (List Expression)
  | [] => .ok []
  | slice :: rest =>
    match checker expression slice with
    | .error error => .error error
    | .ok checker => (checkers expression rest).map (checker :: ·)

/-- The number of hits, and what is found in each slice. -/
structure Lookup where
  numHits : Nat
  counts : List Nat := []
  slices : List (Option TableSlice) := []

variable [Regex]

/-- There is no result when the program dies. -/
def handleLookup (query : StoreQuery) (slices : List TableSlice) :
    Except TailorError (Option Lookup) :=
  (checkers query.expr slices).map fun checkers =>
    match query.cmd with
    | .count true _ => none
    | .count false _ =>
      let counts := List.zipWith
        (fun slice checker => slice.countMatching checker query.ids) slices checkers
      some { numHits := counts.sum, counts }
    | .extract _ =>
      let found := List.zipWith
        (fun slice checker => slice.filter checker query.ids) slices checkers
      -- Only the slices that are there are sent to the sink.
      some { numHits := (found.map fun slice => (slice.toList.flatMap TableSlice.rows).length).sum
             slices := found }

/-! ## Rows that match -/

/-- No row that hints name and on which an expression is true is missing from what is
selected without meta predicates. -/
def Weakens (slice : TableSlice) (hints : Bitmap) (expression : Expression) : Prop :=
  ((slice.namedRows hints).filter fun row => holds slice row expression).Sublist
    ((slice.select (pruneMetaPredicates expression) hints).flatMap TableSlice.rows)

/-- No matching row of a slice is missing from what is found in it. -/
def FindsAll (query : StoreQuery) (slice : TableSlice) (found : Option TableSlice) : Prop :=
  ((slice.namedRows query.ids).filter (slice.satisfies query.expr)).Sublist
    (found.toList.flatMap TableSlice.rows)

variable {slice : TableSlice} {expression : Expression}
  {query : StoreQuery} {slices : List TableSlice} {checks : List Expression}

/-- Where dropping meta predicates keeps the polarity, a row on which a tailored expression
is true satisfies what is left. -/
theorem satisfies_of_keepsPolarity {row : List Data} (htailored : Tailored slice.schema expression)
    (hkeeps : keepsPolarity true expression = true) (hholds : holds slice row expression = true) :
    slice.satisfies (pruneMetaPredicates expression) row = true :=
  (satisfies_pruneMetaPredicates htailored).mpr (applied_pruner_of_keepsPolarity hkeeps hholds)

theorem findsAll_filter {check : Expression} (hcheck : checker query.expr slice = .ok check)
    (hkeeps : ∀ tailored, query.expr ≠ .none → tailor query.expr slice.schema = .ok tailored →
      keepsPolarity true tailored = true) :
    FindsAll query slice (slice.filter check query.ids) := by
  rw [FindsAll, rows_filter]
  apply monotone_filter_right
  intro row hrow
  by_cases hnone : query.expr = .none
  · rw [checker, if_pos hnone] at hcheck
    cases hcheck
    rfl
  · rw [checker, if_neg hnone] at hcheck
    cases htailor : tailor query.expr slice.schema with
    | error => rw [htailor] at hcheck; cases hcheck
    | ok tailored =>
      rw [htailor] at hcheck
      cases hcheck
      have htailored : Tailored slice.schema tailored := by
        rw [tailor_of_ne_none hnone] at htailor
        exact tailored_resolve htailor
      have hsatisfies : slice.satisfies query.expr row = holds slice row tailored := by
        simp [satisfies, htailor]
      exact satisfies_of_keepsPolarity htailored (hkeeps tailored hnone htailor)
        (hsatisfies.symm.trans hrow)

omit [Regex] in
theorem forall₂_checkers (hchecks : checkers expression slices = .ok checks) :
    Forall₂ (fun slice check => checker expression slice = .ok check) slices checks := by
  induction slices generalizing checks with
  | nil =>
    cases hchecks
    exact .nil
  | cons slice rest ih =>
    rw [checkers] at hchecks
    split at hchecks
    · cases hchecks
    next check hcheck =>
      cases hrest : checkers expression rest with
      | error => rw [hrest] at hchecks; cases hchecks
      | ok others =>
        rw [hrest] at hchecks
        cases hchecks
        exact .cons hcheck (ih hrest)

/-- Pruning only weakens the check of a tailored expression that keeps its polarity. The
store finds all matching rows if the expression tailored to each slice does. -/
theorem pruning_weakens : (∀ (slice : TableSlice) (hints : Bitmap) (expression : Expression),
      Tailored slice.schema expression → keepsPolarity true expression = true →
        Weakens slice hints expression) ∧
    ∀ (query : StoreQuery) (slices : List TableSlice) (sink : Actor) (lookup : Lookup),
      query.cmd = .extract sink → handleLookup query slices = .ok (some lookup) →
        (∀ slice ∈ slices, ∀ tailored, query.expr ≠ .none →
          tailor query.expr slice.schema = .ok tailored → keepsPolarity true tailored = true) →
        Forall₂ (FindsAll query) slices lookup.slices := by
  constructor
  · intro slice hints expression htailored hkeeps
    rw [Weakens, flatMap_rows_select]
    exact monotone_filter_right _ fun _ => satisfies_of_keepsPolarity htailored hkeeps
  · intro query slices sink lookup hcmd hlookup hkeeps
    cases hchecks : checkers query.expr slices with
    | error => rw [handleLookup, hchecks] at hlookup; cases hlookup
    | ok checks =>
      rw [handleLookup, hchecks, hcmd] at hlookup
      cases hlookup
      have hchecks := forall₂_checkers hchecks
      clear * - hchecks hkeeps
      dsimp only
      induction hchecks with
      | nil => exact .nil
      | cons hcheck _ ih =>
        rw [forall_mem_cons] at hkeeps
        exact .cons (findsAll_filter hcheck hkeeps.1) (ih hkeeps.2)

def typeAndColumn (value : Int64) : List Expression :=
  [.predicate ⟨.metaExtractor .type, .equal, .data (.basic (.string "event"))⟩,
    .predicate ⟨.dataExtractor (.basic .int64) 0, .equal, .data (.basic (.int64 value))⟩]

omit [Regex]

theorem tailored_typeAndColumn (schema : VastType) (value : Int64) :
    Tailored schema (.conjunction (typeAndColumn value)) ∧
      Tailored schema (.disjunction (typeAndColumn value)) := by
  have hall : ∀ pred ∈ Expression.predicatesList (typeAndColumn value),
      TypeResolver.resolvePredicate schema pred = .ok (.predicate pred) := by
    intro pred hpred
    rcases mem_pair.mp hpred with rfl | rfl
    · rfl
    · rfl
  exact ⟨hall, hall⟩

/-- Both events have the type, and none is found. -/
theorem disjunction_drops_rows :
    (twoEvents.rows.map fun row =>
        @holds literalRegex twoEvents row (.disjunction (typeAndColumn 3))) =
          [true, true] ∧ @TableSlice.select twoEvents literalRegex
        (pruneMetaPredicates (.disjunction (typeAndColumn 3))) [] = [] ∧
      ¬@Weakens literalRegex twoEvents [] (.disjunction (typeAndColumn 3)) ∧
      (@handleLookup literalRegex ⟨7, .extract ⟨1⟩, .disjunction (typeAndColumn 3), []⟩
        [twoEvents]).toOption.map (Option.map fun lookup =>
          (lookup.numHits, lookup.slices)) = some (some (0, [none])) := by
  let := literalRegex
  refine ⟨rfl, rfl, fun hweakens => ?_, rfl⟩
  exact absurd hweakens.length_le (by decide)

/-- A conjunction is only weakened, and the store finds the row that matches it. -/
theorem conjunction_keeps_rows :
    @Weakens literalRegex twoEvents [] (.conjunction (typeAndColumn 1)) ∧
      ∃ lookup, @handleLookup literalRegex
          ⟨7, .extract ⟨1⟩, .conjunction (typeAndColumn 1), []⟩ [twoEvents] = .ok (some lookup) ∧
        Forall₂ (@FindsAll literalRegex ⟨7, .extract ⟨1⟩, .conjunction (typeAndColumn 1), []⟩)
          [twoEvents] lookup.slices := by
  let := literalRegex
  refine ⟨pruning_weakens.1 twoEvents [] _ (tailored_typeAndColumn _ 1).1 rfl, _, rfl, ?_⟩
  refine pruning_weakens.2 _ _ ⟨1⟩ _ rfl rfl ?_
  simp only [mem_singleton, forall_eq]
  intro tailored _ htailored
  cases htailored
  rfl

end SegmentStore

end Vast
