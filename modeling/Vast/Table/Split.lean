import Vast.Table.Select

/-! # Splitting a table slice

The first and the last rows of a slice become slices of their own. Both get the
offset of the slice, so the last rows change their ids.
-/

namespace Vast

open List

namespace TableSlice

/-- A number of rows from a row on, as a slice with the offset of the original one. -/
def window (slice : TableSlice) (start count : Nat) : TableSlice where
  schema := slice.schema
  offset := slice.offset
  importTime := slice.importTime
  rows := (slice.rows.drop start).take count
  typed := fun row hrow => slice.typed row (List.mem_of_mem_drop (List.mem_of_mem_take hrow))

variable (slice : Option TableSlice)

/-- The first rows. A slice without an encoding has none. -/
def head (numRows : Nat) : Option TableSlice :=
  match slice with
  | none => none
  | some slice =>
    if slice.rows.length ≤ numRows then some slice else some (slice.window 0 numRows)

def tail (numRows : Nat) : Option TableSlice :=
  match slice with
  | none => none
  | some slice =>
    if slice.rows.length ≤ numRows then some slice
    else some (slice.window (slice.rows.length - numRows) numRows)

def split (slice : TableSlice) (partitionPoint : Nat) : Option TableSlice × Option TableSlice :=
  if partitionPoint = 0 then (none, some slice)
  else if slice.rows.length ≤ partitionPoint then (some slice, none)
  else
    (head (some slice) partitionPoint, tail (some slice) (slice.rows.length - partitionPoint))

/-- The rows of a slice; one without an encoding has none. -/
def rowsOf : List (List Data) :=
  slice.elim [] rows

variable {slice : TableSlice}

/-! ## Rows -/

section

variable (slice : TableSlice)

theorem rowsOf_head (numRows : Nat) :
    rowsOf (head (some slice) numRows) = slice.rows.take numRows := by
  simp only [head]
  split
  next hle => exact (take_of_length_le hle).symm
  · simp [rowsOf, window]

theorem rowsOf_tail (numRows : Nat) :
    rowsOf (tail (some slice) numRows) = slice.rows.drop (slice.rows.length - numRows) := by
  simp only [tail]
  split
  next hle =>
    rw [Nat.sub_eq_zero_of_le hle]
    rfl
  next hlt =>
    apply take_of_length_le
    rw [length_drop]
    omega

/-- The parts of a slice, whether it is cut or not. -/
theorem rowsOf_split (partitionPoint : Nat) :
    rowsOf (split slice partitionPoint).1 = slice.rows.take partitionPoint ∧
      rowsOf (split slice partitionPoint).2 = slice.rows.drop partitionPoint := by
  unfold split
  split
  next hzero => simp [hzero, rowsOf]
  · split
    next hle =>
      rw [take_of_length_le hle, drop_of_length_le hle]
      exact ⟨rfl, rfl⟩
    next hlt =>
      refine ⟨rowsOf_head slice partitionPoint, ?_⟩
      rw [rowsOf_tail, Nat.sub_sub_self (by omega)]

/-! ## Ids -/

/-- The rows of a part keep their ids, if they have any: its first row is a given row of
the slice. -/
def StartsAt (start : Nat) (part : Option TableSlice) : Prop :=
  ∀ piece ∈ part, piece.rows ≠ [] → piece.offset = slice.offset.map (· + start)

/-- The parts of a slice hold its rows, with their ids. -/
structure SplitsAt (point : Nat) : Prop where
  rows_eq : rowsOf (split slice point).1 ++ rowsOf (split slice point).2 = slice.rows
  length_first : (rowsOf (split slice point).1).length = min point slice.rows.length
  first_ids : StartsAt slice 0 (split slice point).1
  second_ids : StartsAt slice (min point slice.rows.length) (split slice point).2
  head_rows : rowsOf (head (some slice) point) = slice.rows.take point
  head_ids : StartsAt slice 0 (head (some slice) point)
  tail_rows : rowsOf (tail (some slice) point) = slice.rows.drop (slice.rows.length - point)
  tail_ids : StartsAt slice (slice.rows.length - min point slice.rows.length)
    (tail (some slice) point)

theorem startsAt_head (numRows : Nat) : StartsAt slice 0 (head (some slice) numRows) := by
  intro piece hpiece _
  simp only [head] at hpiece
  split at hpiece
  · cases hpiece
    simp
  · cases hpiece
    simp [window]

end

/-- The last rows are given the id of the first one. -/
theorem startsAt_tail_iff {numRows : Nat} (hlt : numRows < slice.rows.length) (start : Nat) :
    StartsAt slice start (tail (some slice) numRows) ↔
      numRows = 0 ∨ start = 0 ∨ slice.offset = none := by
  have htail : tail (some slice) numRows =
      some (slice.window (slice.rows.length - numRows) numRows) := if_neg (not_le.mpr hlt)
  have hrows : (slice.window (slice.rows.length - numRows) numRows).rows = [] ↔ numRows = 0 := by
    rw [window, take_eq_nil_iff, drop_eq_nil_iff]
    omega
  simp only [StartsAt, htail, Option.mem_some_iff, forall_eq', ne_eq, hrows]
  show (¬numRows = 0 → slice.offset = slice.offset.map (· + start)) ↔ _
  cases slice.offset with
  | none => simp
  | some offset => simp [or_iff_not_imp_left]

theorem startsAt_self (slice : TableSlice) : StartsAt slice 0 (some slice) := by
  intro piece hpiece _
  cases hpiece
  simp

/-- Rows keep their ids if and only if nothing is cut off, or there are no ids. -/
theorem splitsAt_iff (slice : TableSlice) (point : Nat) :
    SplitsAt slice point ↔ point = 0 ∨ slice.rows.length ≤ point ∨ slice.offset = none := by
  obtain ⟨hfirst, hsecond⟩ := rowsOf_split slice point
  have hsplits : SplitsAt slice point ↔
      StartsAt slice 0 (split slice point).1 ∧
        StartsAt slice (min point slice.rows.length) (split slice point).2 ∧
        StartsAt slice (slice.rows.length - min point slice.rows.length)
          (tail (some slice) point) := by
    constructor
    · exact fun hsplits => ⟨hsplits.first_ids, hsplits.second_ids, hsplits.tail_ids⟩
    · rintro ⟨hfirstIds, hsecondIds, htailIds⟩
      refine ⟨?_, ?_, hfirstIds, hsecondIds, rowsOf_head slice point, startsAt_head slice point,
        rowsOf_tail slice point, htailIds⟩
      · rw [hfirst, hsecond, take_append_drop]
      · rw [hfirst, length_take]
  rw [hsplits]
  by_cases hzero : point = 0
  · subst hzero
    refine iff_of_true ⟨by simp [split, StartsAt], by simpa [split] using startsAt_self slice, ?_⟩
      (Or.inl rfl)
    by_cases hrows : slice.rows.length = 0
    · simpa [tail, hrows] using startsAt_self slice
    · exact (startsAt_tail_iff (by omega) _).mpr (Or.inl rfl)
  · by_cases hle : slice.rows.length ≤ point
    · refine iff_of_true ⟨?_, ?_, ?_⟩ (Or.inr (Or.inl hle))
      · simpa [split, hzero, hle] using startsAt_self slice
      · simp [split, hzero, hle, StartsAt]
      · simpa [tail, hle] using startsAt_self slice
    · have hsplit : split slice point =
          (head (some slice) point, tail (some slice) (slice.rows.length - point)) := by
        rw [split, if_neg hzero, if_neg hle]
      rw [hsplit, startsAt_tail_iff (by omega), startsAt_tail_iff (by omega),
        and_iff_right (startsAt_head slice point), or_iff_right (by omega), or_iff_right (by omega),
        or_iff_right hzero, or_iff_right (by omega), and_self, or_iff_right hzero, or_iff_right hle]

/-- The last of the events 10 and 11 gets the id 10. -/
theorem last_event_moved : (split twoEvents 1).2.map (fun piece => (piece.offset, piece.rows)) =
        some (some 10, [[.basic (.int64 2)]]) ∧
      (tail (some twoEvents) 1).map (fun piece => (piece.offset, piece.rows)) =
        some (some 10, [[.basic (.int64 2)]]) ∧ ¬SplitsAt twoEvents 1 := by
  refine ⟨rfl, rfl, fun hsplits => ?_⟩
  have hoffset := hsplits.second_ids _ rfl (by simp [twoEvents, window])
  cases hoffset

end TableSlice

end Vast
