import Vast.Table.Select

/-! # Filtering a table slice

The slices that are selected from a slice are put together again. An event of a
slice is a row together with the import time of the slice.
-/

namespace Vast

open Foundation List
open Evaluate

namespace TableSlice

/-- The rows of slices, one after another. The program dies on slices of different
schemas, and slices without any rows are not put together. -/
def concatenate : List TableSlice → Option TableSlice
  | [] => none
  | [slice] => some slice
  | first :: rest =>
    if hschema : ∀ slice ∈ rest, slice.schema = first.schema then
      if (first.rows ++ rest.flatMap rows).isEmpty then none
      else
        some
          { first with
            rows := first.rows ++ rest.flatMap rows
            typed := by
              intro row hrow
              rcases List.mem_append.mp hrow with hfirst | hrest
              · exact first.typed row hfirst
              · obtain ⟨slice, hslice, hmem⟩ := List.mem_flatMap.mp hrest
                rw [← hschema slice hslice]
                exact slice.typed row hmem }
    else none

/-- The rows of a slice that hints name and that satisfy an expression, unless there are
none. -/
def filter [Regex] (slice : TableSlice) (expression : Expression) (hints : Bitmap) :
    Option TableSlice :=
  concatenate (slice.select expression hints)

/-- The number of rows that hints name and that satisfy an expression. The expression is
tailored only to see whether it can be. -/
def countMatching [Regex] (slice : TableSlice) (expression : Expression) (hints : Bitmap) : Nat :=
  match expression with
  | .none =>
    let ids := (List.range hints.length).filter hints.test
    ((ids.takeWhile fun id => id < firstId slice + slice.rows.length).filter fun id =>
      firstId slice ≤ id).length
  | expression =>
    match tailor expression slice.schema with
    | .error _ => 0
    | .ok _ => rank (evaluate slice expression hints)

/-- A row with the import time of its slice. -/
abbrev Event := Int64 × List Data

def events (slice : TableSlice) : List Event :=
  slice.rows.map fun row => (slice.importTime, row)

variable {slice : TableSlice} {property : Nat → Bool} {pieces : List (Nat × TableSlice)}
  {slices : List TableSlice}

/-! ## Rows -/

theorem Piece.rows_eq_map {start : Nat} {piece : TableSlice} (hpiece : Piece slice start piece) :
    piece.rows = (range' start piece.rows.length).map fun index =>
      slice.rows.getD index [] := by
  apply ext_getElem
  · simp
  · intro index hindex _
    have hwithin := hpiece.within
    have hget : piece.rows[index]? = slice.rows[start + index]? := by
      conv_lhs => rw [hpiece.rows_eq]
      rw [getElem?_take_of_lt hindex, getElem?_drop]
    rw [getElem?_eq_getElem hindex, getElem?_eq_getElem (by omega), Option.some_inj] at hget
    rw [hget, getElem_map, getElem_range', getD_eq_getElem?_getD, Nat.one_mul,
      getElem?_eq_getElem (by omega), Option.getD_some]

theorem Pieces.flatMap_range' (hpieces : Pieces slice property pieces) :
    (pieces.flatMap fun part => range' part.1 part.2.rows.length) =
      (range slice.rows.length).filter property := by
  have hparts : Ascending id
      (pieces.flatMap fun part => range' part.1 part.2.rows.length) := by
    rw [Ascending, pairwise_flatMap]
    refine ⟨fun part _ => pairwise_lt_range', ?_⟩
    refine hpieces.ascending.imp fun hle index hindex other hother => ?_
    rw [mem_range'_1] at hindex hother
    exact lt_of_lt_of_le hindex.2 (hle.trans hother.1)
  have hrange : Ascending id (range slice.rows.length) := pairwise_lt_range
  apply hparts.ext (hrange.filter _)
  intro index
  simp only [mem_flatMap, mem_range'_1, mem_filter, mem_range]
  constructor
  · rintro ⟨part, hpart, hindex⟩
    have hwithin := (hpieces.piece part hpart).within
    have hlt : index < slice.rows.length := by omega
    exact ⟨hlt, (hpieces.exact index hlt).mpr ⟨part, hpart, hindex⟩⟩
  · rintro ⟨hlt, hprop⟩
    exact (hpieces.exact index hlt).mp hprop

theorem Pieces.flatMap_rows (hpieces : Pieces slice property pieces) :
    (pieces.map Prod.snd).flatMap rows =
      ((range slice.rows.length).filter property).map fun index =>
        slice.rows.getD index [] := by
  rw [← hpieces.flatMap_range', map_flatMap, flatMap_map]
  apply flatMap_congr
  exact fun part hpart => (hpieces.piece part hpart).rows_eq_map

/-- Slices of one schema are put together, unless they have no rows. -/
theorem concatenate_cases {schema : VastType} (hschema : ∀ slice ∈ slices, slice.schema = schema) :
    (concatenate slices = none ∧ slices.flatMap rows = []) ∨
      ∃ result, concatenate slices = some result ∧ result.rows = slices.flatMap rows ∧
        ∃ first ∈ slices, result.schema = first.schema ∧ result.importTime = first.importTime := by
  match slices, hschema with
  | [], _ => exact Or.inl ⟨rfl, rfl⟩
  | [slice], _ => exact Or.inr ⟨slice, rfl, by simp, slice, by simp, rfl, rfl⟩
  | first :: second :: rest, hschema =>
    have hsame : ∀ slice ∈ second :: rest, slice.schema = first.schema := by
      intro slice hslice
      rw [hschema slice (mem_cons_of_mem _ hslice), hschema first mem_cons_self]
    rw [concatenate, dif_pos hsame]
    · split
      next hempty =>
        refine Or.inl ⟨rfl, ?_⟩
        exact isEmpty_iff.mp hempty
      · exact Or.inr ⟨_, rfl, rfl, first, by simp, rfl, rfl⟩
    · simp

theorem events_concatenate
    (hsame : ∀ part ∈ slices, part.schema = slice.schema ∧ part.importTime = slice.importTime) :
    (concatenate slices).toList.flatMap events =
      (slices.flatMap rows).map fun row => (slice.importTime, row) := by
  rcases concatenate_cases fun part hpart => (hsame part hpart).1 with
    ⟨hnone, hrows⟩ | ⟨result, hres, hrows, first, hfirst, -, htime⟩
  · rw [hnone, hrows]
    rfl
  · rw [hres, ← hrows]
    simp [events, htime, (hsame first hfirst).2]

section

variable (slice : TableSlice)

def namedRows (hints : Bitmap) : List (List Data) :=
  ((List.range slice.rows.length).filter fun index =>
    hints.isEmpty || hints.test (firstId slice + index)).map fun index => slice.rows.getD index []

variable [Regex]

/-- Put together, what is selected are the rows that are named and satisfy the expression. -/
theorem flatMap_rows_select (expr : Expression) (hints : Bitmap) :
    (slice.select expr hints).flatMap rows =
      (slice.namedRows hints).filter (slice.satisfies expr) := by
  obtain ⟨pieces, hsel, hpieces⟩ := exists_pieces slice expr hints
  rw [hsel, hpieces.flatMap_rows, namedRows, filter_map, filter_filter]
  congr 1
  apply filter_congr
  intro index _
  rw [Bool.and_comm]
  rfl

/-- Whatever the offset, filtering keeps the events of the rows that are named and satisfy
the expression, in their order. -/
theorem events_filter (expr : Expression) (hints : Bitmap) :
    (slice.filter expr hints).toList.flatMap events =
      ((slice.namedRows hints).filter (slice.satisfies expr)).map fun row =>
        (slice.importTime, row) := by
  have hsame : ∀ part ∈ slice.select expr hints,
      part.schema = slice.schema ∧ part.importTime = slice.importTime := by
    obtain ⟨pieces, hsel, hpieces⟩ := exists_pieces slice expr hints
    rw [hsel, forall_mem_map]
    exact fun part hpart =>
      ⟨(hpieces.piece part hpart).schema_eq, (hpieces.piece part hpart).importTime_eq⟩
  rw [filter, events_concatenate hsame, flatMap_rows_select]

theorem rows_filter (expr : Expression) (hints : Bitmap) :
    (slice.filter expr hints).toList.flatMap rows =
      (slice.namedRows hints).filter (slice.satisfies expr) := by
  have hevents := congrArg (map Prod.snd) (events_filter slice expr hints)
  rw [map_flatMap] at hevents
  simpa [events] using hevents

end

end TableSlice

end Vast
