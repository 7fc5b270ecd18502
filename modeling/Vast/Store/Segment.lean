import Vast.Bitmap.SelectWith
import Vast.Table.Filter
import Vast.Table.Offsets

/-! # Segments

A segment stores slices in its own table. Slices that do not fit there overflow into the
chunks behind it. The ids of all slices are stored together, first those of the slices in
the table. A lookup takes both kinds of slices into account, but erasing looks only at
the table.
-/

namespace Vast

open Foundation List Bitmap TableSlice
open Evaluate
open SelectWith

/-- The slices of the table, those that overflow, and the intervals of their ids. -/
structure Segment where
  slices : List TableSlice
  overflowSlices : List TableSlice
  ids : List (Nat × Nat)
  rows_eq : List.Forall₂ (fun slice interval => interval.1 + slice.rows.length = interval.2)
    (slices ++ overflowSlices) ids
  sorted : ids.Pairwise fun a b => a.2 ≤ b.1

namespace TableSlice

def startingAt (slice : TableSlice) (offset : Nat) : TableSlice :=
  { slice with offset := some offset }

/-- The rows whose ids are not in a bitmap, if the first one has the given id. -/
def rowsOutside (slice : TableSlice) (first : Nat) (xs : Bitmap) : List (List Data) :=
  ((List.range slice.rows.length).filter fun i => !xs.test (first + i)).map fun i =>
    slice.rows.getD i []

end TableSlice

namespace Segment

variable (segment : Segment)

def numSlices : Nat :=
  segment.slices.length + segment.overflowSlices.length

def getSlice (idx : Nat) : Option TableSlice :=
  if idx < segment.slices.length then segment.slices[idx]?
  else segment.overflowSlices[idx - segment.slices.length]?

def interval (idx : Nat) : Nat × Nat :=
  segment.ids.getD idx (0, 0)

/-- A segment with slices that overflow does not pass the assertion. There is no result
if the program dies. -/
def lookup (assertions : Bool) (xs : Bitmap) : Option (List TableSlice) :=
  if assertions && segment.ids.length != segment.slices.length then none
  else
    let indices := List.range segment.numSlices
    some ((selectWith xs segment.interval (nextFrom xs 0) indices).filterMap fun idx =>
      (segment.getSlice idx).map fun slice => slice.startingAt (segment.interval idx).1)

section

variable [Regex]

/-- The mask of ids to keep is extended as far as the ids of the slices go. -/
def eraseLoop : Bitmap → List (TableSlice × (Nat × Nat)) → List TableSlice
  | _, [] => []
  | keepMask, (slice, interval) :: rest =>
    let slice := slice.startingAt interval.1
    let keepMask := keepMask.fill true (interval.1 + slice.rows.length)
    slice.select .none keepMask ++ eraseLoop keepMask rest

/-- The intervals behind those of the table's slices are not used. -/
def erase (xs : Bitmap) : List TableSlice :=
  eraseLoop xs.flip (segment.slices.zip segment.ids)

/-! ## What is found and what is kept -/

def entries : List (TableSlice × (Nat × Nat)) :=
  (segment.slices ++ segment.overflowSlices).zip segment.ids

/-- The slices that overflow with the intervals of their ids. -/
def overflowEntries : List (TableSlice × (Nat × Nat)) :=
  segment.overflowSlices.zip (segment.ids.drop segment.slices.length)

/-- A lookup returns the slices whose interval contains an id. -/
def LooksUp (assertions : Bool) (xs : Bitmap) : Prop :=
  segment.lookup assertions xs =
    some ((segment.entries.filter fun entry => decide (Hit xs entry.2)).map fun entry =>
      entry.1.startingAt entry.2.1)

/-- Erasing keeps the rows whose ids are not to be erased. -/
def Erases (xs : Bitmap) : Prop :=
  (segment.erase xs).flatMap TableSlice.rows =
    segment.entries.flatMap fun entry => entry.1.rowsOutside entry.2.1 xs

end

theorem length_ids : segment.ids.length = segment.numSlices := by
  rw [← segment.rows_eq.length_eq, length_append, numSlices]

theorem map_interval : (range segment.numSlices).map segment.interval = segment.ids := by
  apply ext_getElem
  · simp [length_ids]
  · intro idx _ hidx
    simp [interval, hidx]

theorem map_getSlice (idx : Nat) :
    (segment.getSlice idx).map (fun slice => (slice, segment.interval idx)) =
      segment.entries[idx]? := by
  have hlen := segment.rows_eq.length_eq
  rw [getSlice, ← getElem?_append, entries, zip, getElem?_zipWith]
  rcases lt_or_ge idx segment.ids.length with hlt | hge
  · rw [getElem?_eq_getElem (hlen ▸ hlt), getElem?_eq_getElem hlt, interval,
      getD_eq_getElem _ _ hlt]
    rfl
  · rw [getElem?_eq_none (hlen ▸ hge)]
    rfl

theorem rows_of_mem_entries {slice : TableSlice} {interval : Nat × Nat}
    (hentry : (slice, interval) ∈ segment.entries) : interval.1 + slice.rows.length = interval.2 :=
  (forall₂_iff_zip.mp segment.rows_eq).2 hentry

theorem proper {interval : Nat × Nat} (hint : interval ∈ segment.ids) :
    interval.1 ≤ interval.2 := by
  rw [← map_snd_zip (le_of_eq segment.rows_eq.length_eq.symm)] at hint
  obtain ⟨⟨slice, interval⟩, hentry, rfl⟩ := mem_map.mp hint
  exact Nat.le.intro (segment.rows_of_mem_entries hentry)

theorem filterMap_getElem? {α : Type} (items : List α) :
    (range items.length).filterMap (fun idx => items[idx]?) = items := by
  induction items with
  | nil => rfl
  | cons item items ih => simpa [range_succ_eq_map]

theorem entries_eq_filterMap :
    segment.entries = (range segment.numSlices).filterMap fun idx =>
      (segment.getSlice idx).map fun slice => (slice, segment.interval idx) := by
  have hlen : segment.entries.length = segment.numSlices := by
    simp [entries, length_ids, numSlices]
  simp [map_getSlice, ← hlen, filterMap_getElem?]

/-- Without the assertion the lookup takes all slices into account. -/
theorem looksUp_iff (assertions : Bool) (xs : Bitmap) :
    segment.LooksUp assertions xs ↔ (assertions = true → segment.overflowSlices = []) := by
  have hsel : (selectWith xs segment.interval (nextFrom xs 0)
      (range segment.numSlices)).filterMap (fun idx =>
        (segment.getSlice idx).map fun slice => slice.startingAt (segment.interval idx).1) =
      (segment.entries.filter fun entry => decide (Hit xs entry.2)).map fun entry =>
        entry.1.startingAt entry.2.1 := by
    rw [selectWith_eq_hitsFrom, entries_eq_filterMap]
    · simp only [hitsFrom, Nat.zero_max]
      rw [filterMap_filter, filter_filterMap, map_filterMap]
      apply filterMap_congr
      intro idx _
      cases segment.getSlice idx with
      | none => simp
      | some slice =>
        simp only [Option.map_some, Option.filter_some]
        split <;> rfl
    · intro idx hidx
      have hentry : segment.interval idx ∈ segment.ids := by
        rw [← map_interval]
        exact mem_map_of_mem hidx
      exact segment.proper hentry
    · rw [← pairwise_map (R := fun a b : Nat × Nat => a.2 ≤ b.1), map_interval]
      exact segment.sorted
  simp only [LooksUp, lookup, hsel, length_ids]
  cases assertions <;> simp [numSlices]

theorem zip_append_left {α β : Type} (first second : List α) (others : List β) :
    (first ++ second).zip others = first.zip others ++ second.zip (others.drop first.length) := by
  induction first generalizing others with
  | nil => simp
  | cons item first ih =>
    cases others with
    | nil => simp
    | cons other others => simp [ih]

section

variable [Regex]

/-- The mask says which ids are not erased, as far as it goes. -/
theorem flatMap_rows_eraseLoop {xs keepMask : Bitmap} (hlen : xs.length ≤ keepMask.length)
    (hkeep : ∀ i < keepMask.length, keepMask.test i = !xs.test i)
    (slices : List (TableSlice × (Nat × Nat))) :
    (eraseLoop keepMask slices).flatMap rows =
      slices.flatMap fun entry => entry.1.rowsOutside entry.2.1 xs := by
  induction slices generalizing keepMask with
  | nil => rfl
  | cons entry slices ih =>
    obtain ⟨slice, interval⟩ := entry
    change ((slice.startingAt interval.1).select .none
      (keepMask.fill true (interval.1 + slice.rows.length)) ++ eraseLoop
      (keepMask.fill true (interval.1 + slice.rows.length)) slices).flatMap _ = _
    generalize hmask : keepMask.fill true (interval.1 + slice.rows.length) = mask
    have hsize : mask.length = max keepMask.length (interval.1 + slice.rows.length) := by
      rw [← hmask, length_fill]
    have hfill : ∀ i < mask.length, mask.test i = !xs.test i := by
      intro i hi
      by_cases hlt : i < keepMask.length
      · rw [← hmask, fill, test_append_left hlt, hkeep i hlt]
      · rw [← hmask, test_fill_true_of_length_le (by omega) (by omega),
          test_of_length_le (by omega), Bool.not_false]
    rw [flatMap_append, ih (by omega) hfill, flatMap_rows_select,
      show (slice.startingAt interval.1).satisfies .none = fun _ => true from rfl, filter_true]
    congr 1
    apply congrArg (map _)
    apply filter_congr
    intro i hi
    have hi : i < slice.rows.length := mem_range.mp hi
    have hne : mask.isEmpty = false := by
      rw [isEmpty_eq_false_iff_exists_mem]
      exact exists_mem_of_length_pos (by omega)
    rw [hne]
    exact hfill (interval.1 + i) (by omega)

/-- The rows of the table's slices are kept as they should be, those of others are lost. -/
theorem erases_iff (xs : Bitmap) :
    segment.Erases xs ↔ ∀ entry ∈ segment.overflowEntries, ∀ id, entry.2.1 ≤ id →
      id < entry.2.2 → xs.test id = true := by
  rw [Erases, erase, flatMap_rows_eraseLoop (by rw [length_flip])
    (fun i hi => test_flip (by rwa [length_flip] at hi)), entries, zip_append_left,
    flatMap_append, self_eq_append_right, flatMap_eq_nil_iff]
  apply forall₂_congr
  rintro ⟨slice, interval⟩ hentry
  have hmem : (slice, interval) ∈ segment.entries := by
    rw [entries, zip_append_left]
    exact mem_append_right _ hentry
  simp only [← segment.rows_of_mem_entries hmem, rowsOutside, map_eq_nil_iff,
    filter_eq_nil_iff]
  constructor
  · intro hall id hle hlt
    have hid := hall (id - interval.1) (mem_range.mpr (by omega))
    simpa [Nat.add_sub_cancel' hle] using hid
  · intro hall i hi
    simp [hall (interval.1 + i) (by omega) (by simpa using hi)]

/-- Lookups are exact, and erasing keeps exactly the other rows, if the lookup does not die
and all rows of slices that overflow are to be erased. -/
theorem lookup_erase_exact_iff (assertions : Bool) (xs : Bitmap) :
    segment.LooksUp assertions xs ∧ segment.Erases xs ↔
      (assertions = true → segment.overflowSlices = []) ∧
        ∀ entry ∈ segment.overflowEntries, ∀ id, entry.2.1 ≤ id → id < entry.2.2 →
          xs.test id = true := by
  rw [looksUp_iff, erases_iff]

end

/-- Two slices with one row each, of which the second one overflows. -/
def overflowing : Segment where
  slices := [TableSlice.blank "event" 1]
  overflowSlices := [TableSlice.blank "event" 1]
  ids := [(0, 1), (1, 2)]
  rows_eq := .cons rfl (.cons rfl .nil)
  sorted := by decide

/-- Erasing nothing loses the row of the slice that overflows, and a lookup dies. -/
theorem overflowing_loses_row :
    ¬@Erases overflowing literalRegex [] ∧ overflowing.lookup true [true] = none := by
  let := literalRegex
  refine ⟨fun herases => ?_, rfl⟩
  have hid := (overflowing.erases_iff []).mp herases _ (mem_singleton.mpr rfl) 1
    (Nat.le_refl 1) (Nat.lt_succ_self 1)
  cases hid

end Segment

end Vast
