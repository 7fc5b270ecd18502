import Vast.Foundation.KeyedList
import Vast.Foundation.NextFit
import Vast.Table.Slice

/-! # Filling partitions with slices

The slices of a schema are filled into partitions one after another. Those of a
partition are numbered without gaps: the id of the first row of a slice is the
number of rows before it.
-/

namespace Vast

open Foundation List NextFit

namespace TableSlice

def rowCount (slice : TableSlice) : Nat :=
  slice.rows.length

/-- What a slice holds, no matter where it is in a partition. -/
def withoutOffset (slice : TableSlice) : TableSlice :=
  { slice with offset := none }

variable (slices : List TableSlice) {slice : TableSlice}

/-- Every slice begins where the slices before it end. -/
def Gapless : Prop :=
  ∀ before slice after, slices = before ++ slice :: after →
    slice.offset = some (NextFit.load rowCount before)

theorem gapless_nil : Gapless [] := by
  intro before slice after heq
  simp at heq

theorem gapless_append_singleton {slices : List TableSlice} :
    Gapless (slices ++ [slice]) ↔
      Gapless slices ∧ slice.offset = some (load rowCount slices) := by
  constructor
  · intro hall
    refine ⟨?_, hall slices slice [] rfl⟩
    intro before other after heq
    exact hall before other (after ++ [slice]) (by rw [heq]; simp)
  · rintro ⟨hslices, hslice⟩ before other after heq
    rcases eq_nil_or_concat after with rfl | ⟨init, last, rfl⟩
    · obtain ⟨rfl, hother⟩ := append_inj' heq rfl
      obtain rfl : slice = other := by simpa using hother
      exact hslice
    · rw [concat_eq_append, ← cons_append, ← append_assoc] at heq
      exact hslices before other init (append_inj_left' heq rfl)

theorem load_map_withoutOffset :
    load rowCount (slices.map withoutOffset) = load rowCount slices := by
  rw [load, map_map]
  rfl

/-! ## Partitions of a schema -/

def ofSchema (schema : VastType) : List TableSlice :=
  KeyedList.group TableSlice.schema slices schema

theorem ofSchema_append_self (slice : TableSlice) :
    ofSchema (slices ++ [slice]) slice.schema = ofSchema slices slice.schema ++ [slice] := by
  simp [ofSchema, KeyedList.group]

theorem ofSchema_append_of_ne {schema : VastType} (hne : schema ≠ slice.schema) :
    ofSchema (slices ++ [slice]) schema = ofSchema slices schema := by
  simp [ofSchema, KeyedList.group, hne.symm]

/-- A slice of a schema without columns. -/
def blank (name : String) (rows : Nat) : TableSlice where
  schema := .enriched (.record []) (some name) []
  offset := none
  importTime := 0
  rows := List.replicate rows []
  typed := by
    intro row hrow
    rw [List.eq_of_mem_replicate hrow]
    exact ⟨rfl, by simp⟩

end TableSlice

end Vast
