import Vast.Foundation.KeyedList
import Vast.Query.Retailor
import Vast.Store.ExtractRun

/-! # The events that a store delivers

The store tailors an expression to its schema, and tailors the result again for each
slice. In between, the nil expression changes its meaning: it is what is left when
nothing applies to the schema, and it is no filter at all.
-/

namespace Vast

open Foundation List TableSlice
open Evaluate

/-! ## What rows depend on -/

namespace Evaluate

variable [Regex] {slice other : TableSlice}

theorem holds_congr (hschema : slice.schema = other.schema)
    (htime : slice.importTime = other.importTime) (row : List Data) (expression : Expression) :
    holds slice row expression = holds other row expression := by
  induction expression with
  | none => rfl
  | negation operand ih => rw [holds, ih, holds]
  | connective kind operands ih =>
    rw [holds_apply, holds_apply, map_congr_left ih]
  | predicate pred =>
    rw [holds, holds]
    unfold predicateHolds
    split
    · simp [evaluateMetaExtractor, hschema, htime]
    · simp [evaluateCell, hschema]
    · rfl

theorem satisfies_congr (hschema : slice.schema = other.schema)
    (htime : slice.importTime = other.importTime) (row : List Data) (expression : Expression) :
    slice.satisfies expression row = other.satisfies expression row := by
  unfold satisfies
  split
  · rfl
  · rw [hschema]
    split
    · rfl
    · exact holds_congr hschema htime row _

end Evaluate

namespace BaseStore

variable [Regex] (store : BaseStore) (ids : Bitmap)

/-- The events that ids name and on which a tailored expression holds. -/
def matching (tailored : Expression) : List TableSlice.Event :=
  store.slices.flatMap fun slice =>
    ((slice.namedRows ids).filter fun row => holds slice row tailored).map fun row =>
      (slice.importTime, row)

omit [Regex] in
/-- The rows that ids name, with their slices. -/
def named : List (TableSlice × List Data) :=
  store.slices.flatMap fun slice => (slice.namedRows ids).map fun row => (slice, row)

omit [Regex] in
theorem mem_named {entry : TableSlice × List Data} :
    entry ∈ store.named ids ↔ entry.1 ∈ store.slices ∧ entry.2 ∈ entry.1.namedRows ids := by
  obtain ⟨slice, row⟩ := entry
  simp [named]

omit [Regex] in
theorem flatMap_filter_namedRows (keep : TableSlice → List Data → Bool) :
    (store.slices.flatMap fun slice =>
        ((slice.namedRows ids).filter (keep slice)).map fun row => (slice.importTime, row)) =
      ((store.named ids).filter fun entry => keep entry.1 entry.2).map fun entry =>
        (entry.1.importTime, entry.2) := by
  simp only [named, filter_flatMap, map_flatMap, filter_map, map_map]
  rfl

theorem events_extract (expression : Expression) : (store.extract expression ids).flatMap events =
      store.slices.flatMap fun slice =>
        ((slice.namedRows ids).filter (slice.satisfies expression)).map fun row =>
          (slice.importTime, row) := by
  rw [extract]
  induction store.slices with
  | nil => rfl
  | cons slice rest ih =>
    have hfirst := slice.events_filter expression ids
    rw [flatMap_cons, ← ih, ← hfirst, filterMap_cons]
    cases slice.filter expression ids with
    | none => simp
    | some filtered => simp

/-- Exactly the matching events are extracted if and only if filtering agrees with the
tailored expression on all rows that are named. -/
theorem events_extract_eq_iff (tailored : Expression) :
    (store.extract tailored ids).flatMap events = store.matching ids tailored ↔
      ∀ slice ∈ store.slices, ∀ row ∈ slice.namedRows ids,
        slice.satisfies tailored row = holds slice row tailored := by
  have hschema : ∀ a ∈ store.named ids, ∀ b ∈ store.named ids, a.1.schema = b.1.schema := by
    intro a ha b hb
    rw [mem_named] at ha hb
    rw [store.schema_of_mem ha.1, store.schema_of_mem hb.1]
  rw [events_extract, matching, flatMap_filter_namedRows, flatMap_filter_namedRows,
    KeyedList.map_filter_eq_iff]
  · constructor
    · exact fun hagree slice hslice row hrow =>
        hagree (slice, row) ((store.mem_named ids).mpr ⟨hslice, hrow⟩)
    · intro hagree entry hentry
      obtain ⟨hslice, hrow⟩ := (store.mem_named ids).mp hentry
      exact hagree entry.1 hslice entry.2 hrow
  · intro a ha b hb hkey
    obtain ⟨htime, hrow⟩ := Prod.mk.inj hkey
    rw [hrow]
    exact satisfies_congr (hschema a ha b hb) htime _ _
  · intro a ha b hb hkey
    obtain ⟨htime, hrow⟩ := Prod.mk.inj hkey
    rw [hrow]
    exact holds_congr (hschema a ha b hb) htime _ _

end BaseStore

namespace StoreState

variable [Regex]

/-- An extraction delivers exactly the matching rows if and only if, on every row that
ids name, some predicate of the expression applies, and it makes no difference
whether predicates on timestamps that the schema does not have are taken as false, or as not
applicable. -/
theorem deliversExactly_iff (store : BaseStore) (query : StoreQuery) (sink : Actor)
    (hcmd : query.cmd = .extract sink) (tailored : Expression)
    (htailored : tailor query.expr store.schema = .ok tailored) :
    DeliversExactly store query sink (store.matching query.ids tailored) ↔
      ∀ slice ∈ store.slices, ∀ row ∈ slice.namedRows query.ids,
        tailored ≠ .none ∧ holdsRetailored slice row query.expr = holds slice row tailored := by
  rw [deliversExactly_iff_extract hcmd htailored, BaseStore.events_extract_eq_iff]
  refine forall₂_congr fun slice hslice => forall₂_congr fun row _ => ?_
  by_cases hne : tailored = .none
  · subst hne
    simp [satisfies, holds]
  · rw [← store.schema_of_mem hslice] at htailored
    obtain ⟨again, hagain, hholds⟩ := tailor_tailored htailored hne
    have hsatisfies : slice.satisfies tailored row = holdsRetailored slice row query.expr := by
      rw [← hholds row]
      simp [satisfies, hagain]
    rw [hsatisfies, and_iff_right hne]

def twoEventStore : BaseStore where
  first := { TableSlice.twoEvents with offset := some 0 }
  rest := []
  homogeneous := by simp

def fieldIsOne (field : String) : StoreQuery where
  id := 7
  cmd := .extract ⟨1⟩
  expr := .predicate ⟨.fieldExtractor field, .equal, .data (.basic (.int64 1))⟩
  ids := []

omit [Regex]

/-- No event has the field, and all events are delivered. -/
theorem missing_field_matches_all : tailor (fieldIsOne "y").expr twoEventStore.schema = .ok .none ∧
      @BaseStore.matching literalRegex twoEventStore [] .none = [] ∧
      ([.resume .extract 7, .finish .extract 7].foldl (@step literalRegex)
        (@step literalRegex (initial twoEventStore) (.query (fieldIsOne "y")))).received 7 ⟨1⟩ =
          [(0, [.basic (.int64 1)]), (0, [.basic (.int64 2)])] ∧
      ¬@DeliversExactly literalRegex twoEventStore (fieldIsOne "y") ⟨1⟩ [] := by
  let := literalRegex
  refine ⟨rfl, rfl, rfl, fun hdelivers => ?_⟩
  have hextract := (deliversExactly_iff_extract rfl (show
    tailor (fieldIsOne "y").expr twoEventStore.schema = .ok .none from rfl) []).mp hdelivers
  cases hextract

/-- The event with the field is delivered. -/
theorem present_field_matches_one : @DeliversExactly literalRegex twoEventStore (fieldIsOne "x") ⟨1⟩
      [(0, [.basic (.int64 1)])] := by
  let := literalRegex
  refine (deliversExactly_iff twoEventStore (fieldIsOne "x") ⟨1⟩ rfl _ rfl).mpr ?_
  intro slice hslice row hrow
  have hfirst : slice = twoEventStore.first := mem_singleton.mp hslice
  subst hfirst
  have hrows : row ∈ [[Data.basic (.int64 1)], [Data.basic (.int64 2)]] := hrow
  have hsome : ∀ pred, Expression.predicate pred ≠ .none := fun pred => by simp
  rcases mem_pair.mp hrows with rfl | rfl
  · exact ⟨hsome _, rfl⟩
  · exact ⟨hsome _, rfl⟩

end StoreState

end Vast
