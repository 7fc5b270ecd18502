import Vast.Catalog.SynopsisCoverage
import Vast.Evaluate.Cell

/-! # Synopses as summaries of slices

An active partition adds every slice to its synopsis, extends the interval in
which the slices were imported, and shrinks the synopsis when it is persisted. The
result is a summary of the slices: the synopses have received the columns, and the
interval contains the times of all imports. If the synopses are sound, then a partition is a
candidate for every predicate on a column that matches in one of its rows.
-/

namespace Vast

open Int64 (le_of_lt le_refl le_trans not_lt)

open Foundation RecordType List TableSlice Option

section Soundness

variable [BloomFilters] [Regex]

/-- A synopsis does not deny a predicate that a received value satisfies. -/
def Synopsis.SoundFor (synopsis : Synopsis) (op : RelationalOperator) (rhs : Data) : Prop :=
  ∀ value ∈ synopsis.received, Cell.evaluate op (.basic value) rhs = true →
    synopsis.lookup op rhs ≠ some false

/-- All synopses can read the literal and are sound. -/
def PartitionSynopsis.SoundFor (synopsis : PartitionSynopsis) (op : RelationalOperator)
    (rhs : Data) : Prop :=
  (∀ entry ∈ synopsis.fieldSynopses, ∀ own ∈ entry.2,
      own.reads op rhs = true ∧ own.SoundFor op rhs) ∧
    ∀ entry ∈ synopsis.typeSynopses, ∀ shared ∈ entry.2,
      shared.reads op rhs = true ∧ shared.SoundFor op rhs

instance (synopsis : Synopsis) (op : RelationalOperator) (rhs : Data) :
    Decidable (synopsis.SoundFor op rhs) :=
  inferInstanceAs (Decidable (∀ value ∈ synopsis.received, _ → _))

instance (synopsis : PartitionSynopsis) (op : RelationalOperator) (rhs : Data) :
    Decidable (synopsis.SoundFor op rhs) :=
  inferInstanceAs (Decidable (_ ∧ _))

end Soundness

/-- No synopsis answers whether there are null values. -/
theorem Synopsis.lookup_nil [BloomFilters] (synopsis : Synopsis) {op : RelationalOperator}
    (hop : op = .equal ∨ op = .notEqual) : synopsis.lookup op .none = none := by
  unfold Synopsis.lookup
  rcases hop with rfl | rfl <;> cases synopsis.state <;> rfl

namespace PartitionSynopsis

structure Summarises (synopsis : PartitionSynopsis) (slices : List TableSlice) : Prop where
  schema_eq : ∀ slice ∈ slices, slice.schema = synopsis.schema
  covers : ∃ config, Covers config synopsis.schema synopsis (slices.flatMap columns)
  imported : ∀ slice ∈ slices,
    synopsis.minImportTime ≤ slice.importTime ∧ slice.importTime ≤ synopsis.maxImportTime

/-! ## Active partitions -/

section Active

variable [BloomFilters] {config : IndexConfig} {schema : VastType} {synopsis : PartitionSynopsis}
  {seen : List (Leaf (List String) × List Data)} {slice : TableSlice} {slices : List TableSlice}

def earlier (a b : Int64) : Int64 :=
  if b < a then b else a

def later (a b : Int64) : Int64 :=
  if a < b then b else a

omit [BloomFilters] in
theorem earlier_le (a b : Int64) : earlier a b ≤ a ∧ earlier a b ≤ b := by
  unfold earlier
  split
  next hlt => exact ⟨le_of_lt hlt, le_refl b⟩
  next hge => exact ⟨le_refl a, not_lt.mp hge⟩

omit [BloomFilters] in
theorem le_later (a b : Int64) : a ≤ later a b ∧ b ≤ later a b := by
  unfold later
  split
  next hlt => exact ⟨le_of_lt hlt, le_refl b⟩
  next hge => exact ⟨le_refl a, not_lt.mp hge⟩

section

variable (config : IndexConfig)

/-- An active partition receives a slice. -/
def ingest (synopsis : PartitionSynopsis) (slice : TableSlice) : PartitionSynopsis :=
  add config { synopsis with
    minImportTime := earlier synopsis.minImportTime slice.importTime
    maxImportTime := later synopsis.maxImportTime slice.importTime } slice

def persisted (version : UInt64) (slices : List TableSlice) : PartitionSynopsis :=
  { (slices.foldl (ingest config) (initial version)).shrink with
    events := UInt64.ofNat (slices.map fun slice => slice.rows.length).sum }

/-- One slice extends the interval of import times to its own. -/
theorem ingest_importTimes (synopsis : PartitionSynopsis)
    (slice : TableSlice) : (ingest config synopsis slice).minImportTime =
        earlier synopsis.minImportTime slice.importTime ∧
      (ingest config synopsis slice).maxImportTime =
        later synopsis.maxImportTime slice.importTime := by
  obtain ⟨_, _, heq⟩ := foldl_addColumn_eq config _ (columns slice)
  rw [ingest, add, heq]
  exact ⟨rfl, rfl⟩

end

section

variable (hschema : HasSchema schema synopsis)

include hschema

theorem Covers.ingest (hcovers : Covers config schema synopsis seen)
    (hslice : slice.schema = schema) :
    Covers config schema (ingest config synopsis slice)
      (seen ++ columns slice) := by
  have hextended : Covers config schema { synopsis with
      minImportTime := earlier synopsis.minImportTime slice.importTime
      maxImportTime := later synopsis.maxImportTime slice.importTime } seen :=
    ⟨hcovers.ruled, hcovers.fields, hcovers.types⟩
  exact hextended.add hschema hslice

theorem ingest_schema (hslice : slice.schema = schema) :
    (ingest config synopsis slice).schema = schema := by
  apply add_schema _ hslice
  exact hschema

theorem Covers.foldl_ingest (hcovers : Covers config schema synopsis seen)
    (hslices : ∀ slice ∈ slices, slice.schema = schema) :
    Covers config schema (slices.foldl (PartitionSynopsis.ingest config) synopsis)
      (seen ++ slices.flatMap columns) := by
  induction slices generalizing synopsis seen with
  | nil => simpa using hcovers
  | cons slice slices ih =>
    rw [forall_mem_cons] at hslices
    have hrest := ih (Or.inr (ingest_schema hschema hslices.1))
      (hcovers.ingest hschema hslices.1) hslices.2
    rwa [append_assoc] at hrest

theorem foldl_ingest_schema (hslices : ∀ slice ∈ slices, slice.schema = schema)
    (hne : slices ≠ []) :
    (slices.foldl (ingest config) synopsis).schema = schema := by
  induction slices generalizing synopsis with
  | nil => exact absurd rfl hne
  | cons slice slices ih =>
    rw [forall_mem_cons] at hslices
    have hfirst : (ingest config synopsis slice).schema = schema :=
      ingest_schema hschema hslices.1
    cases slices with
    | nil => exact hfirst
    | cons second rest => exact ih (Or.inr hfirst) hslices.2 (cons_ne_nil second rest)

end

/-- The interval only grows, and contains the import times of all slices. -/
theorem foldl_ingest_importTimes (config : IndexConfig) (synopsis : PartitionSynopsis)
    (slices : List TableSlice) :
    ((slices.foldl (ingest config) synopsis).minImportTime ≤ synopsis.minImportTime ∧
        synopsis.maxImportTime ≤ (slices.foldl (ingest config) synopsis).maxImportTime) ∧
      ∀ slice ∈ slices, (slices.foldl (ingest config) synopsis).minImportTime ≤ slice.importTime ∧
          slice.importTime ≤ (slices.foldl (ingest config) synopsis).maxImportTime := by
  induction slices generalizing synopsis with
  | nil => exact ⟨⟨le_refl _, le_refl _⟩, by simp⟩
  | cons slice slices ih =>
    obtain ⟨⟨hmin, hmax⟩, hslices⟩ := ih (ingest config synopsis slice)
    obtain ⟨hmin', hmax'⟩ := ingest_importTimes config synopsis slice
    rw [hmin'] at hmin
    rw [hmax'] at hmax
    have hearlier := earlier_le synopsis.minImportTime slice.importTime
    have hlater := le_later synopsis.maxImportTime slice.importTime
    refine ⟨⟨le_trans hmin hearlier.1, le_trans hlater.1 hmax⟩, ?_⟩
    rw [forall_mem_cons]
    exact ⟨⟨le_trans hmin hearlier.2, le_trans hlater.2 hmax⟩, hslices⟩

/-- The synopsis of a persisted partition is a summary of its slices. -/
theorem summarises_persisted (config : IndexConfig) (version : UInt64)
    (hslices : ∀ slice ∈ slices, slice.schema = schema) (hne : slices ≠ []) :
    (persisted config version slices).Summarises slices := by
  have hinitial : Covers config schema (initial version) [] :=
    ⟨by simp [initial], Fed.nil _, Fed.nil _⟩
  have hcovers := (hinitial.foldl_ingest (Or.inl rfl) hslices).shrink
  have hschema : (persisted config version slices).schema = schema :=
    foldl_ingest_schema (Or.inl rfl) hslices hne
  refine ⟨?_, ⟨config, ?_⟩, (foldl_ingest_importTimes config (initial version) slices).2⟩
  · rw [hschema]
    exact hslices
  · rw [hschema]
    exact ⟨hcovers.ruled, hcovers.fields, hcovers.types⟩

end Active

/-! ## Candidates for a predicate on a column -/

variable {synopsis : PartitionSynopsis} {field : QualifiedRecordField} {consulted : Synopsis}

theorem Covers.type_of_consulted {config : IndexConfig} {schema : VastType}
    {seen : List (Leaf (List String) × List Data)} (hcovers : Covers config schema synopsis seen)
    (hcons : synopsis.consulted field = some consulted) :
    field.type.resolveTransparent = .basic consulted.type := by
  unfold PartitionSynopsis.consulted consultedFor at hcons
  split at hcons
  next hown =>
    cases hcons
    exact hcovers.fields.typed field consulted (join_eq_some_iff.mp hown)
  · have htyped := hcovers.types.typed _ consulted (join_eq_some_iff.mp hcons)
    rwa [id_eq, VastType.resolveTransparent_idem] at htyped

variable {op : RelationalOperator} {rhs : Data}

theorem soundFor_of_consulted [BloomFilters] [Regex] (hsound : synopsis.SoundFor op rhs)
    (hcons : synopsis.consulted field = some consulted) : consulted.SoundFor op rhs := by
  unfold PartitionSynopsis.consulted consultedFor at hcons
  split at hcons
  next hown =>
    cases hcons
    exact (hsound.1 _ (AssocList.mem_of_lookup (join_eq_some_iff.mp hown)) consulted rfl).2
  · have hlookup := join_eq_some_iff.mp hcons
    exact (hsound.2 _ (AssocList.mem_of_lookup hlookup) consulted rfl).2

/-- A partition is a candidate for a predicate on a column that matches in one of
its rows. -/
theorem Summarises.selects_of_column [BloomFilters] [Regex] {slices : List TableSlice}
    (hsum : synopsis.Summarises slices) {slice : TableSlice} (hslice : slice ∈ slices)
    {row : List Data} (hrow : row ∈ slice.rows) {column : Nat} {leaf : Leaf (List String)}
    (hleaf : (leaves slice.schema.fields)[column]? = some leaf) (hsound : synopsis.SoundFor op rhs)
    (hcol : Cell.column op leaf.type (cell row column) rhs = true)
    {matching : QualifiedRecordField → Bool}
    (hmatching : matching (QualifiedRecordField.ofLeaf synopsis.schema leaf) = true) :
    synopsis.selects matching op rhs = true := by
  obtain ⟨config, hcovers⟩ := hsum.covers
  have hseen : (leaf, slice.column column) ∈ slices.flatMap columns :=
    mem_flatMap.mpr ⟨slice, hslice, mem_columns.mpr ⟨column, hleaf, rfl⟩⟩
  obtain ⟨entry, hentry⟩ := hcovers.fields.present _ (mem_map_of_mem hseen)
  apply selects_of_consulted hentry hmatching
  intro consulted hcons
  by_cases hnil : rhs = .none
  · subst hnil
    have hop : op = .equal ∨ op = .notEqual := by
      cases op <;> simp_all [Cell.column]
    rw [consulted.lookup_nil hop]
    exact some_ne_none false |>.symm
  · have htype : leaf.type.resolveTransparent = .basic consulted.type :=
      hcovers.type_of_consulted hcons
    obtain ⟨hnull, hevaluate⟩ : cell row column ≠ .none ∧
        Cell.evaluate op (cell row column) rhs = true := by
      simpa [Cell.column, htype, hnil] using hcol
    have hvalue : cell row column ∈ slice.column column :=
      mem_map_of_mem (f := fun row => cell row column) hrow
    obtain ⟨element, helem, heq⟩ :=
      hcovers.received_of_consulted hseen hcons hvalue hnull
    rw [heq] at hevaluate
    exact soundFor_of_consulted hsound hcons element helem hevaluate

end PartitionSynopsis

end Vast
