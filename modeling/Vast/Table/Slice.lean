import Vast.Core.Compatible
import Vast.Core.Record

/-! # Table slices

A table slice holds rows of one schema. A row has a cell for every leaf of the
schema, in the order of the leaves, and the cells of a column have the type of
the leaf or are null.
-/

namespace Vast

open List

def VastType.admits (type : VastType) (value : Data) : Bool :=
  match type.resolveTransparent, value with
  | _, .none => true
  | .basic type, .basic value => value.type == some type
  | .enumeration _, .basic (.enumeration _) => true
  | .list _, .list _ => true
  | .map _ _, .map _ => true
  | _, _ => false

/-- Rows of one schema. The offset is the id of the first row, if assigned. -/
structure TableSlice where
  schema : VastType
  offset : Option Nat
  importTime : Int64
  rows : List (List Data)
  typed : ∀ row ∈ rows, row.length = (RecordType.leaves schema.fields).length ∧
    ∀ entry ∈ (RecordType.leaves schema.fields).zip row, entry.1.type.admits entry.2 = true

namespace TableSlice

def cell (row : List Data) (column : Nat) : Data :=
  row.getD column .none

def column (slice : TableSlice) (column : Nat) : List Data :=
  slice.rows.map fun row => cell row column

theorem admits_cell (slice : TableSlice) {row : List Data} (hrow : row ∈ slice.rows)
    {column : Nat} {leaf : Leaf (List String)}
    (hleaf : (RecordType.leaves slice.schema.fields)[column]? = some leaf) :
    leaf.type.admits (cell row column) = true := by
  obtain ⟨hlen, htyped⟩ := slice.typed row hrow
  obtain ⟨hlt, hget⟩ := List.getElem?_eq_some_iff.mp hleaf
  have hrowlt : column < row.length := by omega
  have hcell : cell row column = row[column] := by
    rw [cell, getD_eq_getElem?_getD, getElem?_eq_getElem hrowlt, Option.getD_some]
  apply htyped (leaf, cell row column)
  rw [mem_iff_getElem]
  refine ⟨column, by rw [length_zip]; omega, ?_⟩
  rw [getElem_zip, hget, hcell]

end TableSlice

end Vast
