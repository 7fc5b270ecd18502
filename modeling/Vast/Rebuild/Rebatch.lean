import Vast.Table.Filter
import Vast.Table.Split

/-! # Rebatching

The rebatch operator collects the slices of one schema until there are enough rows
for a batch. It is meant to split the slice that completes the batch. The split
point is computed from a negative difference of unsigned numbers and lies behind the
slice, so every batch ends with a whole slice.
-/

namespace Vast

open Foundation List TableSlice Option

namespace Rebatch

def wrappingSub (x y : Nat) : Nat :=
  (x + 2 ^ 64 - y) % 2 ^ 64

def rows (slices : List (Option TableSlice)) : Nat :=
  (slices.map fun slice => (TableSlice.rowsOf slice).length).sum

end Rebatch

/-- The rows that wait for a batch, and the batches. -/
structure RebatchOperator where
  desiredBatchSize : Nat
  buffer : List (Option TableSlice) := []
  results : List (Option TableSlice) := []

namespace RebatchOperator

open Rebatch

/-- Put slices together, without those that have no encoding. -/
def concatenate (slices : List (Option TableSlice)) : Option TableSlice :=
  TableSlice.concatenate (slices.filterMap id)

def add (operator : RebatchOperator) (slice : TableSlice) : RebatchOperator :=
  let bufferedRows := (rows operator.buffer + slice.rows.length) % 2 ^ 64
  if bufferedRows < operator.desiredBatchSize then
    { operator with buffer := operator.buffer ++ [some slice] }
  else
    let remainder := wrappingSub operator.desiredBatchSize bufferedRows
    let parts := TableSlice.split slice (wrappingSub slice.rows.length remainder)
    { operator with
      buffer := [parts.2]
      results := operator.results ++ [concatenate (operator.buffer ++ [parts.1])] }

def finish (operator : RebatchOperator) : List (Option TableSlice) :=
  if 0 < rows operator.buffer then operator.results ++ [concatenate operator.buffer]
  else operator.results

end RebatchOperator

namespace Rebatch

/-- Slices of one schema. The lengths of Arrow arrays are signed numbers of 64 bits, and
so is the number of rows altogether. -/
structure Input where
  schema : VastType
  slices : List TableSlice
  homogeneous : ∀ slice ∈ slices, slice.schema = schema
  fits : (slices.map fun slice => slice.rows.length).sum < 2 ^ 63

def rebatch (desiredBatchSize : Nat) (slices : List TableSlice) : List (Option TableSlice) :=
  (slices.foldl RebatchOperator.add { desiredBatchSize := desiredBatchSize }).finish

/-! ## What is asked for -/

/-- All sizes but the last one are the batch size, and the last one is not greater. -/
def WellSized (batchSize : Nat) (sizes : List Nat) : Prop :=
  (∀ size ∈ sizes.dropLast, size = batchSize) ∧ ∀ size ∈ sizes.getLast?, size ≤ batchSize

/-- The batches hold the rows in their order and have the right sizes. -/
structure Rebatches (batchSize : Nat) (slices : List TableSlice)
    (batches : List (Option TableSlice)) : Prop where
  rows_eq : batches.flatMap TableSlice.rowsOf = slices.flatMap TableSlice.rows
  sizes : WellSized batchSize (batches.map fun batch => (TableSlice.rowsOf batch).length)

/-- No slice reaches over the end of a batch: after a number of rows, every slice fits
into what is left of the batch. -/
def Aligned (batchSize : Nat) : Nat → List TableSlice → Prop
  | _, [] => True
  | before, slice :: rest =>
    before % batchSize + slice.rows.length ≤ batchSize ∧
      Aligned batchSize (before + slice.rows.length) rest

instance Aligned.decidable (batchSize : Nat) :
    ∀ before slices, Decidable (Aligned batchSize before slices)
  | _, [] => isTrue trivial
  | before, slice :: rest =>
    have := Aligned.decidable batchSize (before + slice.rows.length) rest
    inferInstanceAs (Decidable (_ ∧ _))

/-! ## Sizes -/

def batchSizes (batchSize : Nat) : Nat → List Nat → List Nat
  | level, [] => if 0 < level then [level] else []
  | level, count :: rest =>
    if level + count < batchSize then batchSizes batchSize (level + count) rest
    else (level + count) :: batchSizes batchSize 0 rest

theorem wellSized_cons {batchSize size : Nat} (hsize : batchSize ≤ size) (sizes : List Nat) :
    WellSized batchSize (size :: sizes) ↔ size = batchSize ∧ WellSized batchSize sizes := by
  cases sizes with
  | nil =>
    simp only [WellSized, dropLast_singleton, getLast?_singleton, dropLast_nil,
      getLast?_nil, not_mem_nil, mem_some_iff, forall_eq']
    simp only [false_implies, implies_true, true_and, not_mem_none, and_true]
    omega
  | cons next rest =>
    rw [WellSized, dropLast_cons_cons, forall_mem_cons, and_assoc]
    rfl

/-- The sizes are right if and only if no slice reaches over the end of a batch. -/
theorem wellSized_batchSizes_iff {batchSize : Nat} (hpos : 0 < batchSize) {before level : Nat}
    (hlevel : level = before % batchSize) (slices : List TableSlice) :
    WellSized batchSize (batchSizes batchSize level (slices.map fun slice => slice.rows.length)) ↔
      Aligned batchSize before slices := by
  induction slices generalizing before level with
  | nil =>
    have hlt : level < batchSize := hlevel ▸ Nat.mod_lt _ hpos
    rw [map_nil, batchSizes]
    refine iff_of_true ?_ trivial
    split
    · exact ⟨by simp, by simpa using hlt.le⟩
    · exact ⟨by simp, by simp⟩
  | cons slice rest ih =>
    have hmod : (before + slice.rows.length) % batchSize =
        (level + slice.rows.length) % batchSize := by
      rw [hlevel, Nat.mod_add_mod]
    rw [map_cons, batchSizes, Aligned, ← hlevel]
    split
    next hlt =>
      rw [ih (by rw [hmod, Nat.mod_eq_of_lt hlt]), and_iff_right hlt.le]
    next hge =>
      rw [wellSized_cons (Nat.not_lt.mp hge)]
      constructor
      · rintro ⟨hsize, hrest⟩
        exact ⟨hsize.le, (ih (by rw [hmod, hsize, Nat.mod_self])).mp hrest⟩
      · rintro ⟨hle, hrest⟩
        have hsize : level + slice.rows.length = batchSize := by omega
        exact ⟨hsize, (ih (by rw [hmod, hsize, Nat.mod_self])).mpr hrest⟩

/-! ## The operator -/

variable {operator : RebatchOperator} {schema : VastType}

/-- There is less than a batch in the buffer, all of one schema. -/
structure Buffers (schema : VastType) (operator : RebatchOperator) : Prop where
  level : rows operator.buffer < operator.desiredBatchSize
  homogeneous : ∀ slice, some slice ∈ operator.buffer → slice.schema = schema

theorem length_flatMap_rowsOf (slices : List (Option TableSlice)) :
    (slices.flatMap rowsOf).length = rows slices := by
  simp [rows]

theorem rowsOf_concatenate {slices : List (Option TableSlice)}
    (hschema : ∀ slice, some slice ∈ slices → slice.schema = schema) :
    rowsOf (RebatchOperator.concatenate slices) = slices.flatMap rowsOf := by
  have hencoded : (slices.filterMap id).flatMap TableSlice.rows =
      slices.flatMap rowsOf := by
    induction slices with
    | nil => rfl
    | cons slice rest ih =>
      have hrest := ih fun slice hslice => hschema slice (mem_cons_of_mem _ hslice)
      cases slice with
      | none | some slice => simpa [rowsOf] using hrest
  have hsame : ∀ slice ∈ slices.filterMap id, slice.schema = schema := by
    intro slice hslice
    obtain ⟨other, hother, heq⟩ := mem_filterMap.mp hslice
    exact hschema slice (heq ▸ hother)
  rw [← hencoded, RebatchOperator.concatenate]
  rcases concatenate_cases hsame with ⟨hnone, hrows⟩ | ⟨result, hres, hrows, -⟩
  · rw [hnone, hrows]
    rfl
  · rw [hres, ← hrows]
    rfl

theorem add_eq (hbuffers : Buffers schema operator) {slice : TableSlice}
    (hfits : rows operator.buffer + slice.rows.length < 2 ^ 63) : operator.add slice =
      if rows operator.buffer + slice.rows.length < operator.desiredBatchSize then
        { operator with buffer := operator.buffer ++ [some slice] }
      else
        { operator with
          buffer := [none]
          results := operator.results ++
            [RebatchOperator.concatenate (operator.buffer ++ [some slice])] } := by
  have hmod : (rows operator.buffer + slice.rows.length) % 2 ^ 64 =
      rows operator.buffer + slice.rows.length := Nat.mod_eq_of_lt (by omega)
  unfold RebatchOperator.add
  simp only [hmod]
  split
  · rfl
  next hfull =>
    have hlevel := hbuffers.level
    have hsplit : split slice (wrappingSub slice.rows.length
        (wrappingSub operator.desiredBatchSize (rows operator.buffer + slice.rows.length))) =
          (some slice, none) := by
      unfold wrappingSub
      rw [split, if_neg (by omega), if_pos (by omega)]
    rw [hsplit]

def sizesOf (slices : List (Option TableSlice)) : List Nat :=
  slices.map fun slice => (TableSlice.rowsOf slice).length

/-- What comes out: first the batches that are there, and then those of the buffer and of
the slices to come. -/
structure Yields (operator : RebatchOperator) (slices : List TableSlice)
    (batches : List (Option TableSlice)) : Prop where
  rows_eq : batches.flatMap TableSlice.rowsOf = operator.results.flatMap TableSlice.rowsOf ++
    operator.buffer.flatMap TableSlice.rowsOf ++ slices.flatMap TableSlice.rows
  sizes_eq : sizesOf batches = sizesOf operator.results ++
    batchSizes operator.desiredBatchSize (rows operator.buffer)
      (slices.map fun slice => slice.rows.length)

theorem yields_finish (hbuffers : Buffers schema operator) :
    Yields operator [] operator.finish := by
  have hrows := rowsOf_concatenate hbuffers.homogeneous
  unfold RebatchOperator.finish
  split
  next hpos =>
    constructor
    · rw [flatMap_append, flatMap_singleton, hrows, flatMap_nil, append_nil]
    · rw [sizesOf, map_append, map_singleton, hrows, length_flatMap_rowsOf, map_nil,
        batchSizes, if_pos hpos]
      rfl
  next hzero =>
    have hnil : operator.buffer.flatMap rowsOf = [] := by
      apply eq_nil_of_length_eq_zero
      rw [length_flatMap_rowsOf]
      omega
    constructor
    · simp [hnil]
    · simp [batchSizes, hzero]

theorem yields_rebatch (hbuffers : Buffers schema operator) (slices : List TableSlice)
    (hschema : ∀ slice ∈ slices, slice.schema = schema)
    (hfits : rows operator.buffer + (slices.map fun slice => slice.rows.length).sum < 2 ^ 63) :
    Yields operator slices (slices.foldl RebatchOperator.add operator).finish := by
  induction slices generalizing operator with
  | nil => exact yields_finish hbuffers
  | cons slice rest ih =>
    rw [map_cons, sum_cons] at hfits
    obtain ⟨hslice, hrest⟩ := forall_mem_cons.mp hschema
    have hpushed : ∀ other, some other ∈ operator.buffer ++ [some slice] →
        other.schema = schema := by
      intro other hother
      rcases mem_append.mp hother with hold | hnew
      · exact hbuffers.homogeneous other hold
      · rw [mem_singleton, some_inj] at hnew
        rw [hnew, hslice]
    have hlevel : rows (operator.buffer ++ [some slice]) =
        rows operator.buffer + slice.rows.length := by
      simp [rows, rowsOf]
    rw [foldl_cons, add_eq hbuffers (by omega)]
    split
    next hlt =>
      have hbuffers' : Buffers schema
          { operator with buffer := operator.buffer ++ [some slice] } :=
        ⟨hlevel.trans_lt hlt, hpushed⟩
      obtain ⟨hrows, hsizes⟩ := ih hbuffers' hrest (by dsimp only; omega)
      constructor
      · rw [hrows]
        simp [rowsOf]
      · rw [hsizes, hlevel, map_cons, batchSizes, if_pos hlt]
    next hfull =>
      have hempty : rows [none] = 0 := rfl
      have hpos : 0 < operator.desiredBatchSize := Nat.zero_lt_of_lt hbuffers.level
      have hbatch := rowsOf_concatenate hpushed
      have hbuffers' : Buffers schema
          { operator with
            buffer := [none]
            results := operator.results ++
              [RebatchOperator.concatenate (operator.buffer ++ [some slice])] } :=
        ⟨hpos, by simp⟩
      obtain ⟨hrows, hsizes⟩ := ih hbuffers' hrest (by dsimp only; omega)
      constructor
      · rw [hrows, flatMap_append, flatMap_singleton, hbatch]
        simp [rowsOf]
      · rw [hsizes, map_cons, batchSizes, if_neg hfull]
        rw [sizesOf, map_append, map_singleton, hbatch, length_flatMap_rowsOf, hlevel, append_assoc]
        rfl

/-- Rows are always kept. The batches have the right sizes if and only if no slice reaches
over the end of a batch. -/
theorem rebatches_iff {batchSize : Nat} (hpos : 0 < batchSize) (input : Input) :
    Rebatches batchSize input.slices (rebatch batchSize input.slices) ↔
      Aligned batchSize 0 input.slices := by
  have hbuffers : Buffers input.schema { desiredBatchSize := batchSize } := ⟨hpos, by simp⟩
  have hempty : rows [] = 0 := rfl
  have hyields := yields_rebatch hbuffers input.slices input.homogeneous
    (by rw [hempty, Nat.zero_add]; exact input.fits)
  have hsizes : WellSized batchSize (sizesOf (rebatch batchSize input.slices)) ↔
      Aligned batchSize 0 input.slices := by
    rw [rebatch, hyields.sizes_eq]
    exact wellSized_batchSizes_iff hpos (Nat.zero_mod _).symm input.slices
  constructor
  · exact fun hrebatches => hsizes.mp hrebatches.sizes
  · exact fun haligned => ⟨hyields.rows_eq, hsizes.mpr haligned⟩

def countedSlice (count : Nat) : TableSlice where
  schema := .enriched (.record [("x", .basic .int64)]) (some "event") []
  offset := none
  importTime := 0
  rows := List.replicate count [.basic (.int64 1)]
  typed := by
    intro row hrow
    rw [List.eq_of_mem_replicate hrow]
    decide

def countedInput (first second : Nat) (hfits : first + second < 2 ^ 63) : Input where
  schema := (countedSlice 0).schema
  slices := [countedSlice first, countedSlice second]
  homogeneous := by
    intro slice hslice
    rcases List.mem_pair.mp hslice with rfl | rfl <;> rfl
  fits := by simpa [countedSlice] using hfits

/-- Two slices of two rows become one batch of four rows and not one of three. -/
theorem batch_exceeds_size : (rebatch 3 (countedInput 2 2 (by decide)).slices).map
        (fun batch => (rowsOf batch).length) = [4] ∧
      ¬Rebatches 3 (countedInput 2 2 (by decide)).slices
        (rebatch 3 (countedInput 2 2 (by decide)).slices) := by
  refine ⟨rfl, fun hrebatches => ?_⟩
  have hlast := hrebatches.sizes.2 4 rfl
  omega

/-- Slices of two rows and of one row become a batch of three rows. -/
theorem batch_hits_size : Rebatches 3 (countedInput 2 1 (by decide)).slices
      (rebatch 3 (countedInput 2 1 (by decide)).slices) :=
  (rebatches_iff (by decide) (countedInput 2 1 (by decide))).mpr (by decide)

end Rebatch

end Vast
