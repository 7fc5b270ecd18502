import Mathlib.Logic.Function.Iterate
import Vast.Catalog.PartitionSynopsis

/-! # What the synopses of a partition have received

The writer decides per column and per type when to make a synopsis and when to
share one, and the reader picks a synopsis by a rule of its own. The two fit:
the synopsis that is consulted for a column has received the column.
-/

namespace Vast

open Foundation RecordType List AssocList QualifiedRecordField PartitionSynopsis Synopsis

/-- A map of synopses in which every column that was fed under a key has an
entry, and the synopsis of the entry, if any, has received the column. -/
structure Fed {κ : Type} [DecidableEq κ] (typeOf : κ → VastType)
    (entries : List (κ × Option Synopsis)) (seen : List (κ × List Data)) : Prop where
  typed : ∀ key synopsis, entries.lookup key = some (some synopsis) →
    (typeOf key).resolveTransparent = .basic synopsis.type
  present : ∀ column ∈ seen, ∃ entry, entries.lookup column.1 = some entry
  received : ∀ column ∈ seen, ∀ synopsis, entries.lookup column.1 = some (some synopsis) →
    ∀ value ∈ column.2, value ≠ .none → synopsis.HasReceived value

namespace Fed

variable {κ : Type} [DecidableEq κ] {typeOf : κ → VastType}
  {entries : List (κ × Option Synopsis)} {seen : List (κ × List Data)} {key : κ}
  {values : List Data}

theorem nil (typeOf : κ → VastType) : Fed typeOf [] [] where
  typed := by simp
  present := by simp
  received := by simp

theorem lookup_feed (key other : κ) (fresh : Option Synopsis) (values : List Data) :
    (feed key fresh values entries).lookup other =
      if other = key then
        some (((entries.lookup key).getD fresh).map fun synopsis => synopsis.addColumn values)
      else entries.lookup other := by
  rw [feed, lookup_adjust, lookup_emplace, lookup_emplace]
  split
  · simp
  · rfl

omit [DecidableEq κ] in
theorem mem_of_ne_key {column : κ × List Data} (hcol : column ∈ seen ++ [(key, values)])
    (hne : column.1 ≠ key) : column ∈ seen := by
  rcases mem_concat.mp hcol with hold | rfl
  · exact hold
  · exact absurd rfl hne

/-- Feeding a column keeps what was received and adds the column. -/
theorem feed (hfed : Fed typeOf entries seen) {fresh : Option Synopsis}
    (hfresh : ∀ synopsis, fresh = some synopsis →
      (typeOf key).resolveTransparent = .basic synopsis.type)
    (hvalues : ∀ value ∈ values, (typeOf key).admits value = true) :
    Fed typeOf (feed key fresh values entries) (seen ++ [(key, values)]) := by
  -- The synopsis that the column is added to has the type of the key.
  have hbefore : ∀ synopsis, (entries.lookup key).getD fresh = some synopsis →
      (typeOf key).resolveTransparent = .basic synopsis.type := by
    intro synopsis hsyn
    cases hlookup : entries.lookup key with
    | none => exact hfresh synopsis (by simpa [hlookup] using hsyn)
    | some entry =>
      rw [hlookup, Option.getD_some] at hsyn
      exact hfed.typed key synopsis (by rw [hlookup, hsyn])
  constructor
  · intro other synopsis hlookup
    rw [lookup_feed] at hlookup
    split at hlookup
    next heq =>
      subst heq
      obtain ⟨before, hold, rfl⟩ := Option.map_eq_some_iff.mp (Option.some.inj hlookup)
      rw [Synopsis.addColumn, Synopsis.foldl_add_type]
      exact hbefore before hold
    · exact hfed.typed other synopsis hlookup
  · intro column hcol
    rw [lookup_feed]
    split
    · exact ⟨_, rfl⟩
    next hne => exact hfed.present column (mem_of_ne_key hcol hne)
  · intro column hcol synopsis hlookup value hvalue hnull
    rw [lookup_feed] at hlookup
    split at hlookup
    next heq =>
      obtain ⟨before, hbeforeeq, rfl⟩ := Option.map_eq_some_iff.mp (Option.some.inj hlookup)
      rcases mem_append.mp hcol with hold | hnew
      · obtain ⟨entry, hentry⟩ := hfed.present column hold
        have hsome : entries.lookup column.1 = some (some before) := by
          rw [← hbeforeeq, ← heq, hentry, Option.getD_some]
        exact (hfed.received column hold before hsome value hvalue hnull).addColumn values
      · obtain rfl := mem_singleton.mp hnew
        exact hasReceived_addColumn (hbefore before hbeforeeq) hvalues hvalue hnull
    next hne =>
      exact hfed.received column (mem_of_ne_key hcol hne) synopsis hlookup value hvalue hnull

/-- A column under a key without a synopsis only needs an entry. -/
theorem emplace_none (hfed : Fed typeOf entries seen) (values : List Data)
    (hnone : ∀ synopsis, entries.lookup key ≠ some (some synopsis)) :
    Fed typeOf (emplace key none entries) (seen ++ [(key, values)]) := by
  -- No key has got a synopsis.
  have hsame : ∀ other synopsis,
      (emplace key none entries).lookup other = some (some synopsis) →
        entries.lookup other = some (some synopsis) := by
    intro other synopsis hlookup
    rw [lookup_emplace] at hlookup
    split at hlookup
    next heq =>
      subst heq
      cases hentry : entries.lookup other with
      | none => simp [hentry] at hlookup
      | some entry =>
        rw [hentry] at hlookup
        exact hlookup
    · exact hlookup
  constructor
  · exact fun other synopsis hlookup => hfed.typed other synopsis (hsame other synopsis hlookup)
  · intro column hcol
    rw [lookup_emplace]
    split
    · exact ⟨_, rfl⟩
    next hne => exact hfed.present column (mem_of_ne_key hcol hne)
  · intro column hcol synopsis hlookup
    rcases mem_concat.mp hcol with hold | rfl
    · exact hfed.received column hold synopsis (hsame column.1 synopsis hlookup)
    · exact absurd (hsame key synopsis hlookup) (hnone synopsis)

theorem shrink [BloomFilters] (hfed : Fed typeOf entries seen) :
    Fed typeOf (mapValues shrinkEntry entries) seen := by
  have hcases : ∀ key synopsis,
      (mapValues shrinkEntry entries).lookup key =
        some (some synopsis) →
      ∃ before, entries.lookup key = some (some before) ∧
        synopsis = before.shrink.getD before := by
    intro key synopsis hlookup
    rw [lookup_mapValues] at hlookup
    obtain ⟨entry, hentry, hshrunk⟩ := Option.map_eq_some_iff.mp hlookup
    obtain ⟨before, rfl, heq⟩ := Option.map_eq_some_iff.mp hshrunk
    exact ⟨before, hentry, heq.symm⟩
  constructor
  · intro key synopsis hlookup
    obtain ⟨before, hbefore, rfl⟩ := hcases key synopsis hlookup
    rw [hfed.typed key before hbefore]
    cases hshrink : before.shrink with
    | none => rfl
    | some shrunk => rw [Option.getD_some, shrink_type hshrink]
  · intro column hcol
    obtain ⟨entry, hentry⟩ := hfed.present column hcol
    exact ⟨_, by rw [lookup_mapValues, hentry]; rfl⟩
  · intro column hcol synopsis hlookup value hvalue hnull
    obtain ⟨before, hbefore, rfl⟩ := hcases column.1 synopsis hlookup
    have hrecv := hfed.received column hcol before hbefore value hvalue hnull
    cases hshrink : before.shrink with
    | none => exact hrecv
    | some shrunk => exact hrecv.shrink hshrink

end Fed

namespace PartitionSynopsis

variable [BloomFilters] {config : IndexConfig} {schema : VastType} {synopsis : PartitionSynopsis}
  {leaf : Leaf (List String)} {values : List Data} {slice : TableSlice} {slices : List TableSlice}

/-- The synopses of a partition have received the columns seen so far, and only
columns with a rule have a synopsis of their own. -/
structure Covers (config : IndexConfig) (schema : VastType) (synopsis : PartitionSynopsis)
    (seen : List (Leaf (List String) × List Data)) : Prop where
  ruled : ∀ key own, synopsis.fieldSynopses.lookup key = some (some own) →
    (config.fieldFpRate key).isSome
  fields : Fed QualifiedRecordField.type synopsis.fieldSynopses
    (seen.map fun column => (QualifiedRecordField.ofLeaf schema column.1, column.2))
  types : Fed id synopsis.typeSynopses
    (seen.map fun column => (column.1.type.resolveTransparent, column.2))

theorem makeSynopsis_type {type : VastType} {options : Synopsis.Options} {synopsis : Synopsis}
    (hmake : makeSynopsis type options = some synopsis) :
    type.resolveTransparent = .basic synopsis.type := by
  unfold makeSynopsis at hmake
  split at hmake
  · cases hmake
  · exact make_type hmake

variable {seen : List (Leaf (List String) × List Data)}
  (hcovers : Covers config schema synopsis seen)

include hcovers in
/-- One column: the entry of the field and the entry of the type receive it. -/
theorem Covers.addColumn (hschema : synopsis.schema = schema)
    (hvalues : ∀ value ∈ values, leaf.type.admits value = true) :
    Covers config schema (synopsis.addColumn config leaf values) (seen ++ [(leaf, values)]) := by
  subst hschema
  rw [addColumn]
  refine ⟨?_, ?_, ?_⟩
  · intro key own hlookup
    split at hlookup
    next fpRate hrate =>
      rw [Fed.lookup_feed] at hlookup
      split at hlookup
      next heq => rw [heq, hrate, Option.isSome_some]
      · exact hcovers.ruled key own hlookup
    next hrate =>
      rw [lookup_emplace] at hlookup
      split at hlookup
      next heq =>
        subst heq
        cases hentry : synopsis.fieldSynopses.lookup
            (ofLeaf synopsis.schema leaf) with
        | none => simp [hentry] at hlookup
        | some entry =>
          rw [hentry] at hlookup
          exact hcovers.ruled _ own (hentry.trans hlookup)
      · exact hcovers.ruled key own hlookup
  · rw [map_append]
    split
    next fpRate hrate =>
      apply hcovers.fields.feed
      · exact fun fresh hmake => makeSynopsis_type hmake
      · exact hvalues
    next hrate =>
      apply hcovers.fields.emplace_none
      intro own hlookup
      have hruled := hcovers.ruled _ own hlookup
      rw [hrate] at hruled
      cases hruled
  · rw [map_append]
    apply hcovers.types.feed
    · intro fresh hmake
      rw [id_eq, VastType.resolveTransparent_idem]
      exact makeSynopsis_type hmake
    · intro value hvalue
      simpa only [id_eq, VastType.admits, VastType.resolveTransparent_idem] using
        hvalues value hvalue

theorem foldl_addColumn_eq (config : IndexConfig) (synopsis : PartitionSynopsis)
    (columns : List (Leaf (List String) × List Data)) : ∃ fieldSynopses typeSynopses,
      columns.foldl (fun synopsis column => addColumn config synopsis column.1 column.2) synopsis =
        { synopsis with fieldSynopses, typeSynopses } := by
  induction columns generalizing synopsis with
  | nil => exact ⟨_, _, rfl⟩
  | cons column columns ih => exact ih (addColumn config synopsis column.1 column.2)

include hcovers in
theorem Covers.foldl_addColumn (hschema : synopsis.schema = schema)
    {columns : List (Leaf (List String) × List Data)}
    (hcols : ∀ column ∈ columns, ∀ value ∈ column.2, column.1.type.admits value = true) :
    Covers config schema (columns.foldl
        (fun synopsis column => PartitionSynopsis.addColumn config synopsis column.1 column.2)
        synopsis) (seen ++ columns) := by
  induction columns generalizing synopsis seen with
  | nil => rwa [append_nil]
  | cons column columns ih =>
    have hstep := hcovers.addColumn hschema (hcols column mem_cons_self)
    have hrest := ih hstep hschema
      (fun other hother => hcols other (mem_cons_of_mem column hother))
    rwa [append_assoc] at hrest

omit [BloomFilters] in
theorem mem_columns : (leaf, values) ∈ columns slice ↔
      ∃ position, (leaves slice.schema.fields)[position]? = some leaf ∧
        values = slice.column position := by
  simp only [columns, mem_map, Prod.exists, mem_zipIdx_iff_getElem?, Prod.mk.injEq]
  constructor
  · rintro ⟨other, position, hget, rfl, rfl⟩
    exact ⟨position, hget, rfl⟩
  · rintro ⟨position, hget, rfl⟩
    exact ⟨leaf, position, hget, rfl, rfl⟩

omit [BloomFilters] in
theorem columns_admitted (slice : TableSlice) :
    ∀ column ∈ columns slice, ∀ value ∈ column.2, column.1.type.admits value = true := by
  rintro ⟨leaf, values⟩ hcol value hvalue
  obtain ⟨position, hleaf, rfl⟩ := mem_columns.mp hcol
  obtain ⟨row, hrow, rfl⟩ := mem_map.mp hvalue
  exact slice.admits_cell hrow hleaf

def HasSchema (schema : VastType) (synopsis : PartitionSynopsis) : Prop :=
  synopsis.schema = .none ∨ synopsis.schema = schema

omit [BloomFilters] in
theorem HasSchema.eq (hschema : HasSchema schema synopsis) (hslice : slice.schema = schema) :
    (if synopsis.schema.hasValue then synopsis.schema else slice.schema) = schema := by
  rcases hschema with hnone | heq
  · simp [hnone, VastType.hasValue, VastType.resolveTransparent, hslice]
  · simp [heq, hslice]

theorem add_schema (hschema : HasSchema schema synopsis) (hslice : slice.schema = schema) :
    (synopsis.add config slice).schema = schema := by
  obtain ⟨_, _, heq⟩ := foldl_addColumn_eq config _ (columns slice)
  rw [add, heq]
  exact hschema.eq hslice

include hcovers in
theorem Covers.add (hschema : HasSchema schema synopsis) (hslice : slice.schema = schema) :
    Covers config schema (synopsis.add config slice) (seen ++ columns slice) := by
  rw [PartitionSynopsis.add, hschema.eq hslice]
  have hrenamed : Covers config schema { synopsis with schema := schema } seen :=
    ⟨hcovers.ruled, hcovers.fields, hcovers.types⟩
  exact hrenamed.foldl_addColumn rfl (columns_admitted slice)

include hcovers in
theorem Covers.foldl_add (hschema : HasSchema schema synopsis)
    (hslices : ∀ slice ∈ slices, slice.schema = schema) :
    Covers config schema (slices.foldl (PartitionSynopsis.add config) synopsis)
        (seen ++ slices.flatMap columns) ∧
      HasSchema schema (slices.foldl (PartitionSynopsis.add config) synopsis) := by
  induction slices generalizing synopsis seen with
  | nil => exact ⟨by simpa using hcovers, hschema⟩
  | cons slice slices ih =>
    have hslice := hslices slice mem_cons_self
    have hrest := ih (hcovers.add hschema hslice) (Or.inr (add_schema hschema hslice))
      (fun other hother => hslices other (mem_cons_of_mem slice hother))
    rwa [append_assoc] at hrest

include hcovers in
theorem Covers.shrink : Covers config schema synopsis.shrink seen := by
  refine ⟨?_, hcovers.fields.shrink, hcovers.types.shrink⟩
  intro key own hlookup
  rw [PartitionSynopsis.shrink, lookup_mapValues] at hlookup
  obtain ⟨entry, hentry, hshrunk⟩ := Option.map_eq_some_iff.mp hlookup
  obtain ⟨before, rfl, -⟩ := Option.map_eq_some_iff.mp hshrunk
  exact hcovers.ruled key before hentry

/-- The synopsis of a partition that was given the slices and then shrunk. -/
def build (config : IndexConfig) (version : UInt64) (slices : List TableSlice) (shrinks : Nat) :
    PartitionSynopsis :=
  shrink^[shrinks] (slices.foldl (add config) (initial version))

theorem build_covers (config : IndexConfig) (version : UInt64)
    (hslices : ∀ slice ∈ slices, slice.schema = schema) (shrinks : Nat) :
    Covers config schema (build config version slices shrinks) (slices.flatMap columns) ∧
      HasSchema schema (build config version slices shrinks) := by
  induction shrinks with
  | zero =>
    have hinitial : Covers config schema (initial version) [] :=
      ⟨by simp [initial], Fed.nil _, Fed.nil _⟩
    have hslices := hinitial.foldl_add (Or.inl rfl) hslices
    rwa [nil_append] at hslices
  | succ shrinks ih =>
    rw [build, Function.iterate_succ_apply']
    exact ⟨ih.1.shrink, ih.2⟩

/-- A partition is a candidate when the consulted synopsis of a matching field
does not say no. -/
theorem selects_of_consulted {field : QualifiedRecordField} {entry : Option Synopsis}
    (hentry : synopsis.fieldSynopses.lookup field = some entry)
    {matching : QualifiedRecordField → Bool} (hmatching : matching field = true)
    {op : RelationalOperator} {rhs : Data}
    (hanswer : ∀ consulted, synopsis.consulted field = some consulted →
      consulted.lookup op rhs ≠ some false) : synopsis.selects matching op rhs = true := by
  rw [selects, any_eq_true]
  refine ⟨(field, entry), mem_of_lookup hentry, ?_⟩
  rw [consulted, hentry] at hanswer
  rw [hmatching]
  split
  next own hown => simpa using hanswer own hown
  · rfl

include hcovers in
omit [BloomFilters] in
theorem Covers.received_of_consulted (hseen : (leaf, values) ∈ seen)
    {consulted : Synopsis} (hcons : synopsis.consulted (ofLeaf schema leaf) = some consulted)
    {value : Data} (hvalue : value ∈ values) (hnull : value ≠ .none) :
    consulted.HasReceived value := by
  have hfield := mem_map_of_mem
    (f := fun column : Leaf (List String) × List Data =>
      (ofLeaf schema column.1, column.2)) hseen
  have htype := mem_map_of_mem
    (f := fun column : Leaf (List String) × List Data =>
      (column.1.type.resolveTransparent, column.2)) hseen
  obtain ⟨entry, hentry⟩ := hcovers.fields.present _ hfield
  rw [PartitionSynopsis.consulted, hentry, Option.join_some] at hcons
  cases entry with
  | some own =>
    obtain rfl := Option.some.inj hcons
    exact hcovers.fields.received _ hfield own hentry value hvalue hnull
  | none =>
    rw [consultedFor, Option.join_eq_some_iff] at hcons
    exact hcovers.types.received _ htype consulted hcons value hvalue hnull

/-- A partition without slices has no columns. -/
theorem leaves_build_nil (config : IndexConfig) (version : UInt64) (shrinks : Nat) :
    leaves (build config version [] shrinks).schema.fields = [] := by
  have hnil : ∀ slice ∈ ([] : List TableSlice), slice.schema = .none := by simp
  have hschema : (build config version [] shrinks).schema = .none :=
    or_self_iff.mp (build_covers config version hnil shrinks).2
  rw [hschema]
  rfl

/-- The synopsis that a lookup consults for a column has received every non-null
value of the column, and without such a synopsis the partition is a candidate for
every predicate that matches the column. -/
theorem consulted_synopsis_complete (config : IndexConfig) (version : UInt64) (schema : VastType)
    (slices : List TableSlice) (hslices : ∀ slice ∈ slices, slice.schema = schema)
    (shrinks : Nat) (position : Nat) (leaf : Leaf (List String))
    (hleaf : (leaves (build config version slices shrinks).schema.fields)[position]? = some leaf) :
    (∀ consulted, (build config version slices shrinks).consulted (ofLeaf
          (build config version slices shrinks).schema leaf) = some consulted →
        ∀ slice ∈ slices, ∀ value ∈ slice.column position, value ≠ .none →
          consulted.HasReceived value) ∧
      ((build config version slices shrinks).consulted (ofLeaf
          (build config version slices shrinks).schema leaf) = none →
        ∀ (matching : QualifiedRecordField → Bool) (op : RelationalOperator) (rhs : Data),
          matching (ofLeaf
            (build config version slices shrinks).schema leaf) = true →
          (build config version slices shrinks).selects matching op rhs = true) := by
  obtain ⟨hcovers, hschema⟩ := build_covers config version hslices shrinks
  have hschema : (build config version slices shrinks).schema = schema := by
    rcases hschema with hnone | hschema
    · rw [hnone] at hleaf
      simp [VastType.fields, VastType.resolveTransparent, leaves, visits_eq, descendFields] at hleaf
    · exact hschema
  have hseen : ∀ slice ∈ slices, (leaf, slice.column position) ∈ slices.flatMap columns := by
    intro slice hslice
    apply mem_flatMap.mpr
    refine ⟨slice, hslice, mem_columns.mpr ⟨position, ?_, rfl⟩⟩
    rwa [hslices slice hslice, ← hschema]
  rw [hschema]
  constructor
  · intro consulted hconsulted slice hslice value hvalue hnull
    exact hcovers.received_of_consulted (hseen slice hslice) hconsulted hvalue hnull
  · intro hconsulted matching op rhs hmatching
    -- There is a slice, and its column has made an entry.
    cases slices with
    | nil => simp [leaves_build_nil] at hleaf
    | cons slice slices =>
      obtain ⟨entry, hentry⟩ := hcovers.fields.present _
        (mem_map_of_mem (hseen slice mem_cons_self))
      apply selects_of_consulted hentry hmatching
      intro consulted hsome
      rw [hconsulted] at hsome
      cases hsome

/-- Two columns of one type, the second of which makes no synopsis. -/
def skipSchema : VastType :=
  .enriched (.record [("a", .basic .string),
    ("b", .enriched (.basic .string) none [("skip", none)])]) (some "sample") []

def skipSlice : TableSlice where
  schema := skipSchema
  offset := some 0
  importTime := 0
  rows := [[.basic (.string "x"), .none], [.none, .basic (.string "y")]]
  typed := by decide

@[reducible]
def exactFilters : BloomFilters where
  parse := fun _ => none
  makes := fun _ => true
  contains := fun _ elements value => decide (value ∈ elements)

def skipLeaf : Leaf (List String) :=
  ⟨[1], "b", .enriched (.basic .string) none [("skip", none)], []⟩

omit [BloomFilters] in
/-- The skipped column is answered by the synopsis that the first column made. -/
theorem consulted_synopsis_complete_skip : ∃ consulted,
      (@build exactFilters ⟨[], 0⟩ 1 [skipSlice, skipSlice] 2).consulted
          (ofLeaf skipSchema skipLeaf) = some consulted ∧
        consulted.HasReceived (.basic (.string "y")) := by
  let := exactFilters
  have hsome : ((build ⟨[], 0⟩ 1 [skipSlice, skipSlice] 2).consulted
      (ofLeaf skipSchema skipLeaf)).isSome = true := by decide
  obtain ⟨consulted, hconsulted⟩ := Option.isSome_iff_exists.mp hsome
  refine ⟨consulted, hconsulted, ?_⟩
  exact (consulted_synopsis_complete ⟨[], 0⟩ 1 skipSchema [skipSlice, skipSlice]
    (by simp [skipSlice]) 2 1 skipLeaf (by decide)).1 consulted hconsulted skipSlice (by simp) _
    (by decide) (by decide)

end PartitionSynopsis

end Vast
