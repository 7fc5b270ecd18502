import Vast.Store.Matching
import Vast.Table.Count

/-! # Counting and extracting in a store

A store tailors the expression of a query once, and hands it on to its slices. There
it is tailored a second time for extracting, and only to see whether it can be for
counting.
-/

namespace Vast

open Foundation List TableSlice Option StoreState
open Evaluate

namespace BaseStore

variable [Regex] (store : BaseStore)

variable (expression : Expression)

/-- The sum of the results of counting, unless the program dies. -/
def countChecked (selection : Bitmap) : Option Nat :=
  (store.slices.mapM fun slice : TableSlice =>
    slice.countMatchingChecked expression selection).map List.sum

/-- The results of extracting, unless the program dies. -/
def extractChecked (selection : Bitmap) : Option (List TableSlice) :=
  (store.slices.mapM fun slice : TableSlice =>
    (slice.selectChecked expression selection).map TableSlice.concatenate).map
      (List.filterMap id)

/-- If the expression can be tailored, both queries return, and the count is the number of
extracted rows. -/
def CountsExtracted (ids : Bitmap) : Prop :=
  ∀ tailored, tailor expression store.schema = .ok tailored →
    ∃ slices, store.extractChecked tailored ids = some slices ∧
      store.countChecked tailored ids = some (slices.flatMap TableSlice.rows).length

/-- The number of rows with a property that the ids name in all slices. -/
def countNamed (ids : Bitmap) (property : TableSlice → List Data → Bool) : Nat :=
  (store.slices.map fun slice => (slice.namedRows ids).countP (property slice)).sum

end BaseStore

/-! ## Results that may be missing -/

variable {α β : Type} {f : α → Option β} {items : List α}

theorem mapM_eq_some_map {g : α → β} (hsome : ∀ item ∈ items, f item = some (g item)) :
    items.mapM f = some (items.map g) := by
  induction items with
  | nil => rfl
  | cons item rest ih =>
    obtain ⟨hitem, hrest⟩ := forall_mem_cons.mp hsome
    rw [mapM_cons, hitem, ih hrest]
    rfl

namespace BaseStore

variable [Regex] {store : BaseStore} {ids : Bitmap} {expression : Expression}

theorem extractChecked_of_counted
    (hcounted : ∀ slice ∈ store.slices, Counted slice expression ids) :
    ∃ slices, store.extractChecked expression ids = some slices ∧
      (slices.flatMap rows).length =
        store.countNamed ids fun slice => slice.satisfies expression := by
  have hparts := mapM_eq_some_map (f := fun slice : TableSlice =>
      (slice.selectChecked expression ids).map concatenate)
    (g := fun slice => slice.filter expression ids)
    fun slice hslice => by rw [(hcounted slice hslice).selects, map_some, TableSlice.filter]
  refine ⟨_, by rw [extractChecked, hparts, map_some], ?_⟩
  rw [countNamed]
  generalize store.slices = slices
  induction slices with
  | nil => rfl
  | cons slice rest ih =>
    have hslice := rows_filter slice expression ids
    rw [map_cons, map_cons, sum_cons, ← ih, countP_eq_length_filter, ← hslice]
    cases slice.filter expression ids with
    | none => simp
    | some result => simp

/-- If every slice counts what it selects, then the store counts what it extracts. -/
theorem countsExtracted_of_counted
    (hcounted : ∀ slice ∈ store.slices, Counted slice expression ids) :
    ∃ slices, store.extractChecked expression ids = some slices ∧
      store.countChecked expression ids = some (slices.flatMap rows).length := by
  obtain ⟨slices, hextract, hlength⟩ := extractChecked_of_counted hcounted
  refine ⟨slices, hextract, ?_⟩
  rw [countChecked, mapM_eq_some_map fun slice hslice => (hcounted slice hslice).counts, hlength]
  rfl

/-- Counting agrees with selecting from slices if the nil expression comes with hints, and any
other expression is tailored already, without nil parts that matter. It agrees with extracting
from stores, which tailor the expression themselves, if nil comes with ids, and if nothing nil
that matters is left in the expression. -/
theorem counting_agrees : (∀ (slice : TableSlice) (expression : Expression) (hints : Bitmap),
      (expression = .none → hints.isEmpty = false ∨ slice.rows = []) →
      (∀ tailored, expression ≠ .none → tailor expression slice.schema = .ok tailored →
        (∀ pred ∈ expression.predicates, isBound slice.schema pred = true) ∧
          expression.nilHarmless = true) →
      CountsSelected slice expression hints) ∧
    ∀ (store : BaseStore) (expression : Expression) (ids : Bitmap),
      (∀ pred ∈ expression.predicates, bindable store.schema pred = true) →
      (∀ tailored, tailor expression store.schema = .ok tailored →
        (tailored = .none → ids.isEmpty = false ∨ ∀ slice ∈ store.slices, slice.rows = []) ∧
          tailored.nilHarmless = true) →
      store.CountsExtracted expression ids := by
  constructor
  · intro slice expression hints hnil hfit
    by_cases hne : expression = .none
    · subst hne
      exact (counted_none (hnil rfl)).countsSelected
    · exact (counted_of_nilHarmless hne fun tailored => hfit tailored hne).countsSelected
  · intro store expression ids hbindable hfit tailored htailored
    obtain ⟨hnil, hharmless⟩ := hfit tailored htailored
    apply countsExtracted_of_counted
    intro slice hslice
    by_cases hne : tailored = .none
    · subst hne
      exact counted_none ((hnil rfl).imp_right fun hrows => hrows slice hslice)
    · refine counted_of_nilHarmless hne fun _ _ => ⟨?_, hharmless⟩
      rw [store.schema_of_mem hslice]
      exact isBound_tailored htailored hbindable

/-- Comparing a field that is 1 in one of the events. -/
def untailored : Expression :=
  .predicate ⟨.fieldExtractor "x", .equal, .data (.basic (.int64 1))⟩

omit [Regex] in
/-- Without hints, the nil expression selects two rows and counts none. An expression that
is not tailored selects a row, and counting dies. -/
theorem counts_differ : (@TableSlice.selectChecked literalRegex twoEvents .none []).map
        (fun pieces => (pieces.flatMap rows).length) = some 2 ∧
      @TableSlice.countMatchingChecked literalRegex twoEvents .none [] = some 0 ∧
      (@TableSlice.selectChecked literalRegex twoEvents untailored []).map
        (fun pieces => (pieces.flatMap rows).length) = some 1 ∧
      @TableSlice.countMatchingChecked literalRegex twoEvents untailored [] = none ∧
      ¬@CountsExtracted literalRegex twoEventStore
        (fieldIsOne "y").expr [] := by
  let := literalRegex
  refine ⟨rfl, rfl, rfl, rfl, fun hcounts => ?_⟩
  obtain ⟨slices, hextract, hcount⟩ := hcounts .none rfl
  have hlength : (twoEventStore.extractChecked .none []).map
      (fun slices => (slices.flatMap rows).length) = some 2 := rfl
  rw [hextract] at hlength
  cases hcount.trans hlength

omit [Regex] in
/-- One event has the field, and the predicate on its column is bound. -/
theorem counts_agree : @CountsSelected literalRegex twoEvents
        (TypeResolver.bound (.basic .int64) 0 .equal (.basic (.int64 1))) [] ∧
      @CountsExtracted literalRegex twoEventStore (fieldIsOne "x").expr [] := by
  let := literalRegex
  constructor
  · exact counting_agrees.1 twoEvents _ [] nofun fun _ _ _ => ⟨by decide, rfl⟩
  · refine counting_agrees.2 twoEventStore _ [] (by decide) fun tailored htailored => ?_
    cases htailored
    exact ⟨nofun, rfl⟩

end BaseStore

end Vast
