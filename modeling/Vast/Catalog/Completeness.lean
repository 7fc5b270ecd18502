import Vast.Catalog.Lookup
import Vast.Catalog.MinMaxSynopsis
import Vast.Query.ColumnMatch

/-! # Completeness of a catalog lookup

The candidates of an expression are the partitions that its loose reading does
not exclude. A row that matches the resolved and tailored expression of a user
also matches loosely, and pruning keeps the loose reading as long as the merged
predicates are about string columns only. So no partition with a matching row is
lost, except where a literal string is compared with something else than a
string, or where the catalog does not recognise a field that the evaluation finds.
-/

namespace Vast

open Foundation RecordType List PartitionSynopsis Taxonomies Evaluate Bool AssocList Ascending Cell
open Expression hiding none

namespace CatalogState

/-! ## Partitions are filed under their schema -/

/-- The partitions of a map have the schema that the map is filed under. -/
def FiledUnder (type : VastType) (map : FlatMap Uuid PartitionSynopsis) : Prop :=
  ∀ entry ∈ map.entries, entry.2.schema = type

/-- Every partition is filed under its schema. -/
def Filed (maps : List (VastType × FlatMap Uuid PartitionSynopsis)) : Prop :=
  ∀ entry ∈ maps, FiledUnder entry.1 entry.2

variable {maps : List (VastType × FlatMap Uuid PartitionSynopsis)} {state : CatalogState}

/-- Changing the map of one schema, which may be new. -/
theorem Filed.adjust_emplace (hfiled : Filed maps) {type : VastType}
    {f : FlatMap Uuid PartitionSynopsis → FlatMap Uuid PartitionSynopsis}
    (hchange : ∀ map, FiledUnder type map → FiledUnder type (f map)) :
    Filed (adjust type f (emplace type FlatMap.empty maps)) := by
  have hemplace : Filed (emplace type FlatMap.empty maps) :=
    forall_mem_emplace hfiled fun _ _ => nofun
  exact forall_mem_adjust (fun map hmap => hchange map (hemplace (type, map) hmap))
    fun entry hentry _ => hemplace entry hentry

theorem Filed.eraseFrom (hfiled : Filed maps) (partition : Uuid) :
    Filed (eraseFrom partition maps) := by
  induction maps with
  | nil => exact hfiled
  | cons head rest ih =>
    obtain ⟨hhead, hrest⟩ := forall_mem_cons.mp hfiled
    rw [CatalogState.eraseFrom]
    split
    · split
      · exact hrest
      · refine forall_mem_cons.mpr ⟨?_, hrest⟩
        exact fun entry hentry => hhead entry (mem_of_mem_filter hentry)
    · exact forall_mem_cons.mpr ⟨hhead, ih hrest⟩

theorem foldl_updateUnprunableFields_eq (partitions : List (Uuid × PartitionSynopsis))
    (state : CatalogState) : ∃ unprunableFields,
      partitions.foldl (fun state entry => state.updateUnprunableFields entry.2) state =
        { state with unprunableFields } := by
  induction partitions generalizing state with
  | nil => exact ⟨_, rfl⟩
  | cons entry rest ih => exact ih (state.updateUnprunableFields entry.2)

theorem filedUnder_withSchema (partitions : List (Uuid × PartitionSynopsis)) (type : VastType) :
    FiledUnder type (withSchema partitions type) := by
  intro entry hentry
  have hmem := FlatMap.mem_of_mem_ofList hentry
  simpa using (mem_filter.mp hmem).2

/-- Every operation keeps partitions under their schema. -/
theorem Filed.step (hfiled : Filed state.synopsesPerType) (operation : Operation) :
    Filed (state.step operation).synopsesPerType := by
  cases operation with
  | createFrom partitions =>
    obtain ⟨_, heq⟩ := foldl_updateUnprunableFields_eq partitions state
    simp only [CatalogState.step, createFrom, heq]
    generalize state.synopsesPerType = maps at hfiled
    generalize schemas partitions = types
    induction types generalizing maps with
    | nil => exact hfiled
    | cons type rest ih =>
      exact ih _ (hfiled.adjust_emplace fun _ _ => filedUnder_withSchema partitions type)
  | merge partition synopsis =>
    have hinsert : ∀ map, FiledUnder synopsis.schema map →
        FiledUnder synopsis.schema (map.insert partition synopsis) := by
      intro map hmap entry hentry
      rcases FlatMap.mem_of_mem_insert hentry with rfl | hold
      · rfl
      · exact hmap entry hold
    exact hfiled.adjust_emplace hinsert
  | erase partition => exact hfiled.eraseFrom partition

/-- In every state reached, every partition is filed under its schema. -/
theorem filed_after (taxonomies : Taxonomies) (operations : List Operation) :
    Filed (after taxonomies operations).synopsesPerType := by
  have hrun : ∀ state : CatalogState, Filed state.synopsesPerType →
      Filed (operations.foldl step state).synopsesPerType := by
    induction operations with
    | nil => exact fun _ hfiled => hfiled
    | cons operation rest ih => exact fun state hfiled => ih _ (hfiled.step operation)
  exact hrun (initial taxonomies) (by simp [Filed, initial])

theorem taxonomies_after (taxonomies : Taxonomies) (operations : List Operation) :
    (after taxonomies operations).taxonomies = taxonomies := by
  have hrun : ∀ state : CatalogState,
      (operations.foldl step state).taxonomies = state.taxonomies := by
    induction operations with
    | nil => exact fun _ => rfl
    | cons operation rest ih =>
      intro state
      rw [foldl_cons, ih]
      cases operation with
      | createFrom partitions =>
        obtain ⟨_, heq⟩ := foldl_updateUnprunableFields_eq partitions state
        simp only [CatalogState.step, createFrom, heq]
      | merge => rfl
      | erase => rfl
  exact hrun (initial taxonomies)

section Candidates

variable [BloomFilters] [Regex] {property : PartitionSynopsis → Bool} {time bound : Int64}
  {op : RelationalOperator} {synopsis : PartitionSynopsis} {slices : List TableSlice}
  {slice : TableSlice} {rhs : Data} {row : List Data} {pred : Predicate} {type : VastType}
  {steps : Nat} {taxonomies : Taxonomies} {unprunable : List String} {expr : Expression}

/-- Whether a partition is not excluded by a predicate. -/
def mayHold (synopsis : PartitionSynopsis) (pred : Predicate) : Bool :=
  match pred.lhs, pred.rhs with
  | .metaExtractor .type, .data rhs =>
    synopsis.fieldSynopses.any fun entry =>
      Data.evaluate (.basic (.string entry.1.schemaName)) pred.op rhs
  | .metaExtractor .importTime, .data rhs =>
    (importTimeSynopsis synopsis).lookup pred.op rhs != some false
  | .fieldExtractor key, .data rhs =>
    synopsis.selects (fun field => matchName key field && compatible field.type pred.op rhs)
      pred.op rhs
  | .typeExtractor extractor, .data rhs =>
    (if !extractor.hasValue then
        synopsis.selects (fun field => TypeResolver.namedLike extractor pred.op rhs field.type)
          pred.op rhs
      else synopsis.selects (fun field => field.type.congruent extractor) pred.op rhs) ||
      (extractor.name = "timestamp" &&
        synopsis.selects (fun field => TypeResolver.hasTimestampAttribute field.type)
          pred.op rhs)
  | _, _ => true

variable {partitions : FlatMap Uuid PartitionSynopsis}

variable (first second : PartitionSynopsis → Bool)

section

omit [BloomFilters] [Regex]

theorem unify_select :
    unify PartitionInfo.uuid (select partitions first) (select partitions second) =
      select partitions fun synopsis => first synopsis || second synopsis := by
  have hkey : ∀ entry : Uuid × PartitionSynopsis, (partitionInfo entry).uuid = entry.1 :=
    fun _ => rfl
  exact unify_filter hkey partitions.ascending _ _

theorem intersect_select :
    intersect PartitionInfo.uuid (select partitions first) (select partitions second) =
      select partitions fun synopsis => first synopsis && second synopsis := by
  have hkey : ∀ entry : Uuid × PartitionSynopsis, (partitionInfo entry).uuid = entry.1 :=
    fun _ => rfl
  exact intersect_filter hkey partitions.ascending _ _

theorem select_congr {first second : PartitionSynopsis → Bool}
    (hcongr : ∀ entry ∈ partitions.entries, first entry.2 = second entry.2) :
    select partitions first = select partitions second := by
  rw [select, select, filter_congr hcongr]

theorem eq_false_of_select_isEmpty (hempty : (select partitions property).isEmpty = true) :
    ∀ entry ∈ partitions.entries, property entry.2 = false := by
  intro entry hentry
  rw [select, List.isEmpty_iff, List.map_eq_nil_iff, List.filter_eq_nil_iff] at hempty
  exact eq_false_iff.mpr (hempty entry hentry)

theorem eq_true_of_length_select
    (hlen : (select partitions property).length = partitions.entries.length) :
    ∀ entry ∈ partitions.entries, property entry.2 = true := by
  rw [select, length_map, length_filter_eq_length_iff] at hlen
  exact hlen

end

theorem lookupPredicate_eq (pred : Predicate) :
    lookupPredicate partitions pred = select partitions fun synopsis => mayHold synopsis pred := by
  obtain ⟨lhs, op, rhs⟩ := pred
  cases lhs with
  | metaExtractor kind => cases kind <;> cases rhs <;> rfl
  | typeExtractor extractor =>
    cases rhs with
    | data value =>
      simp only [lookupPredicate, mayHold, search]
      by_cases hname : extractor.name = "timestamp" <;>
        by_cases hvalue : extractor.hasValue = true <;>
        simp [hname, hvalue, unify_select]
    | _ => rfl
  | _ => cases rhs <;> rfl

mutual

/-- The candidates are the partitions that the loose reading does not exclude. -/
theorem candidates_eq : ∀ expr : Expression, candidates partitions expr =
      select partitions fun synopsis => loosely (mayHold synopsis) expr
  | .none => rfl
  | .negation _ => rfl
  | .predicate pred => by
    rw [candidates, lookupPredicate_eq]
    rfl
  | .conjunction [] => rfl
  | .conjunction (operand :: rest) => by
    simp only [candidates, candidates_eq operand]
    split
    next hempty =>
      apply select_congr
      intro entry hentry
      have hfalse := eq_false_of_select_isEmpty hempty entry hentry
      rw [hfalse, loosely_conjunction, all_cons, hfalse, Bool.false_and]
    · rw [intersectAll_eq]
      simp only [loosely_conjunction, all_cons]
  | .disjunction operands => by
    have hnone : select partitions (fun _ => false) = [] := by
      simp [select]
    rw [candidates, ← hnone, unifyAll_eq]
    simp only [loosely_disjunction, Bool.false_or]

theorem intersectAll_eq (property : PartitionSynopsis → Bool) : ∀ operands : List Expression,
    intersectAll partitions (select partitions property) operands =
      select partitions fun synopsis =>
        property synopsis && operands.all (loosely (mayHold synopsis))
  | [] => by simp [intersectAll]
  | operand :: rest => by
    simp only [intersectAll, candidates_eq operand]
    split
    next hempty =>
      apply select_congr
      intro entry hentry
      have hfalse := eq_false_of_select_isEmpty hempty entry hentry
      rw [hfalse, all_cons, hfalse, Bool.false_and, Bool.and_false]
    · rw [intersect_select, intersectAll_eq]
      simp only [all_cons, Bool.and_assoc]

theorem unifyAll_eq (property : PartitionSynopsis → Bool) : ∀ operands : List Expression,
    unifyAll partitions (select partitions property) operands =
      select partitions fun synopsis =>
        property synopsis || operands.any (loosely (mayHold synopsis))
  | [] => by simp [unifyAll]
  | operand :: rest => by
    simp only [unifyAll, candidates_eq operand]
    split
    next hall =>
      apply select_congr
      intro entry hentry
      have htrue := eq_true_of_length_select hall entry hentry
      rw [htrue, any_cons, htrue, Bool.true_or, Bool.or_true]
    · rw [unify_select, unifyAll_eq]
      simp only [any_cons, Bool.or_assoc]

end

/-! ## Predicates that match a row -/

/-- The interval of import times does not deny what an import time satisfies. -/
theorem importTimeSynopsis_lookup (hmin : synopsis.minImportTime ≤ time)
    (hmax : time ≤ synopsis.maxImportTime) (hop : isOrdering op = true)
    (hcell : evaluate op (.basic (.time time)) (.basic (.time bound)) = true) :
    (importTimeSynopsis synopsis).lookup op (.basic (.time bound)) = some true := by
  have hcomparison : MinMaxSynopsis.isComparison op = true := by
    cases op <;> first | rfl | cases hop
  have hlookup : (importTimeSynopsis synopsis).lookup op (.basic (.time bound)) =
      some (Synopsis.minMaxLookup synopsis.minImportTime synopsis.maxImportTime op bound) := by
    cases op <;> first | rfl | cases hop
  rw [hlookup, MinMaxSynopsis.lookup_comparison hmin hmax hcomparison hcell]

/-- What a predicate has to meet so that the catalog decides as the evaluation
does: operands that fit, and a field key without gaps. -/
structure Answerable (schema : VastType) (pred : Predicate) : Prop where
  valid : ∀ kind rhs, pred.lhs = .metaExtractor kind → pred.rhs = .data rhs →
    validateOperands pred.lhs pred.op pred.rhs = .ok ()
  gapFree : ∀ key rhs, pred.lhs = .fieldExtractor key → pred.rhs = .data rhs →
    GapFree key (compatible · pred.op rhs) schema

omit [BloomFilters] in
theorem columnMatches_or {first second : Leaf (List String) → Bool}
    (hcols : columnMatches slice row (fun leaf => first leaf || second leaf) op rhs = true) :
    columnMatches slice row first op rhs = true ∨ columnMatches slice row second op rhs = true := by
  obtain ⟨column, leaf, hleaf, hprop, hcell⟩ := columnMatches_iff.mp hcols
  rw [or_eq_true] at hprop
  rw [columnMatches_iff, columnMatches_iff]
  exact hprop.imp (fun h => ⟨column, leaf, hleaf, h, hcell⟩)
    (fun h => ⟨column, leaf, hleaf, h, hcell⟩)

section

variable (hsum : synopsis.Summarises slices) (hslice : slice ∈ slices)

include hsum hslice

theorem mayHold_type (hleaves : leaves slice.schema.fields ≠ [])
    (hvalid : validateOperands (.metaExtractor .type) op (.data rhs) = .ok ())
    (hcell : evaluate op (.basic (.string slice.schema.name)) rhs = true) :
    mayHold synopsis ⟨.metaExtractor .type, op, .data rhs⟩ = true := by
  have hrhs : rhs.isString = true ∨ rhs.isPattern = true := by
    rw [validateOperands] at hvalid
    split at hvalid
    next hcases => rwa [or_eq_true] at hcases
    · cases hvalid
  obtain ⟨leaf, rest, hfirst⟩ := exists_cons_of_ne_nil hleaves
  have hleaf : (leaves slice.schema.fields)[0]? = some leaf := by rw [hfirst]; rfl
  -- The first column of the slice has made an entry for its field.
  obtain ⟨config, hcovers⟩ := hsum.covers
  have hseen : (leaf, slice.column 0) ∈ slices.flatMap columns :=
    mem_flatMap.mpr ⟨slice, hslice, mem_columns.mpr ⟨0, hleaf, rfl⟩⟩
  obtain ⟨entry, hentry⟩ := hcovers.fields.present _ (mem_map_of_mem hseen)
  simp only [mayHold]
  rw [any_eq_true]
  refine ⟨_, mem_of_lookup hentry, ?_⟩
  simp only [← hsum.schema_eq slice hslice]
  exact Data.evaluate_of_cell hrhs hcell

theorem mayHold_importTime
    (hvalid : validateOperands (.metaExtractor .importTime) op (.data rhs) = .ok ())
    (hcell : evaluate op (.basic (.time slice.importTime)) rhs = true) :
    mayHold synopsis ⟨.metaExtractor .importTime, op, .data rhs⟩ = true := by
  rw [validateOperands] at hvalid
  split at hvalid
  next hcases =>
    rw [and_eq_true] at hcases
    obtain ⟨htime, hop⟩ := hcases
    obtain ⟨hmin, hmax⟩ := hsum.imported slice hslice
    match rhs, htime with
    | .basic (.time bound), _ =>
      simp [mayHold, importTimeSynopsis_lookup hmin hmax hop hcell]
  · cases hvalid

/-- A column that matches in a row makes the partition a candidate. -/
theorem selects_of_columnMatches (hrow : row ∈ slice.rows) (hsound : synopsis.SoundFor op rhs)
    {property : Leaf (List String) → Bool} (hcols : columnMatches slice row property op rhs = true)
    {matching : QualifiedRecordField → Bool}
    (hmatching : ∀ leaf ∈ leaves slice.schema.fields, property leaf = true →
      matching (QualifiedRecordField.ofLeaf slice.schema leaf) = true) :
    synopsis.selects matching op rhs = true := by
  obtain ⟨column, leaf, hleaf, hprop, hcell⟩ := columnMatches_iff.mp hcols
  apply hsum.selects_of_column hslice hrow hleaf hsound hcell
  rw [← hsum.schema_eq slice hslice]
  exact hmatching leaf (mem_of_getElem? hleaf) hprop

theorem mayHold_typeExtractor (hrow : row ∈ slice.rows) {extractor : VastType}
    (hsound : synopsis.SoundFor op rhs)
    (hmay : mayMatch slice row ⟨.typeExtractor extractor, op, .data rhs⟩ = true) :
    mayHold synopsis ⟨.typeExtractor extractor, op, .data rhs⟩ = true := by
  simp only [mayMatch] at hmay
  simp only [mayHold]
  -- A property of the types decides for the columns and for the fields.
  have hsel : ∀ property : VastType → Bool,
      columnMatches slice row (fun leaf => property leaf.type) op rhs = true →
      synopsis.selects (fun field => property field.type) op rhs = true :=
    fun _ hcols => selects_of_columnMatches hsum hslice hrow hsound hcols
      fun _ _ hprop => hprop
  by_cases hvalue : extractor.hasValue = true
  · simp only [extractsType, hvalue] at hmay ⊢
    rw [or_eq_true]
    exact Or.inl (hsel (fun type => type.congruent extractor) hmay)
  · simp only [extractsType, hvalue] at hmay ⊢
    rw [or_eq_true]
    rcases columnMatches_or hmay with hnamed | hattribute
    · exact Or.inl (hsel (TypeResolver.namedLike extractor op rhs) hnamed)
    · obtain ⟨column, leaf, hleaf, hprop, hcell⟩ := columnMatches_iff.mp hattribute
      rw [and_eq_true] at hprop
      right
      rw [hprop.1]
      apply hsel TypeResolver.hasTimestampAttribute
      exact columnMatches_iff.mpr ⟨column, leaf, hleaf, hprop.2, hcell⟩

/-- A partition with a row that may match a predicate is not excluded by it. -/
theorem mayHold_of_mayMatch (hrow : row ∈ slice.rows) (hleaves : leaves slice.schema.fields ≠ [])
    (hanswerable : Answerable slice.schema pred)
    (hsound : ∀ rhs, pred.rhs = .data rhs → synopsis.SoundFor pred.op rhs)
    (hmay : mayMatch slice row pred = true) : mayHold synopsis pred = true := by
  obtain ⟨lhs, op, rhs⟩ := pred
  obtain ⟨hvalid, hgap⟩ := hanswerable
  cases rhs with
  | data value =>
    cases lhs with
    | metaExtractor kind =>
      cases kind with
      | type => exact mayHold_type hsum hslice hleaves (hvalid _ _ rfl rfl) hmay
      | importTime => exact mayHold_importTime hsum hslice (hvalid _ _ rfl rfl) hmay
    | fieldExtractor key =>
      simp only [mayHold]
      apply selects_of_columnMatches hsum hslice hrow (hsound value rfl) hmay
      intro leaf hleaf hextracts
      rw [extractsField, and_eq_true, decide_eq_true_eq] at hextracts
      rw [and_eq_true]
      exact ⟨matchName_of_mem_resolveKeySuffix (hgap key value rfl rfl) hleaf hextracts.2
        hextracts.1, hextracts.2⟩
    | typeExtractor extractor =>
      exact mayHold_typeExtractor hsum hslice hrow (hsound value rfl) hmay
    | _ => rfl
  | _ =>
    cases lhs with
    | metaExtractor kind => cases kind <;> rfl
    | _ => rfl

end

/-! ## Widened predicates -/

omit [BloomFilters] [Regex] in
theorem congruent_string_of_isBasic (hstring : type.isBasic .string = true) :
    type.congruent (.basic .string) = true := by
  rw [VastType.isBasic, beq_iff_eq] at hstring
  induction type using VastType.resolveTransparent.induct with
  | case1 type name attributes ih =>
    exact ih hstring
  | case2 type hne =>
    have heq : type.resolveTransparent = type := by
      cases type <;> first | rfl | exact absurd rfl (hne _ _ _)
    rw [heq] at hstring
    rw [hstring]
    rfl

omit [BloomFilters] [Regex] in
/-- All columns of a schema that the fields in the place of a predicate stand for are strings. -/
def StringsOnly (steps : Nat) (taxonomies : Taxonomies) (schema : VastType) (pred : Predicate) :
    Prop :=
  ∀ resolved, taxonomies.resolve steps (.predicate pred) schema = .ok resolved →
    ∀ named ∈ predicates resolved, ∀ key value, named.lhs = .fieldExtractor key →
      named.rhs = .data value → ∀ leaf ∈ leaves schema.fields,
        extractsField schema key named.op value leaf = true → leaf.type.isBasic .string = true

omit [BloomFilters] in
theorem mayMatch_widen {field : String}
    (hstrings : ∀ leaf ∈ leaves slice.schema.fields,
      extractsField slice.schema field op rhs leaf = true → leaf.type.isBasic .string = true)
    (hmay : mayMatch slice row ⟨.fieldExtractor field, op, .data rhs⟩ = true) :
    mayMatch slice row ⟨Pruner.stringExtractor, op, .data rhs⟩ = true :=
  columnMatches_mono (fun leaf hleaf hextracts =>
    congruent_string_of_isBasic (hstrings leaf hleaf hextracts)) hmay

omit [BloomFilters] in
/-- A prunable predicate whose columns are strings may be widened, also when its field is a
concept. -/
theorem widens_mayResolved (hprune : Pruner.prunable unprunable pred = true)
    (hstrings : StringsOnly steps taxonomies slice.schema pred) :
    Pruner.Widens (taxonomies.mayResolved steps [(slice.schema.name, [slice.schema])] true
      (mayMatch slice row)) pred := by
  intro hmay
  obtain ⟨lhs, op, rhs⟩ := pred
  unfold Pruner.prunable at hprune
  split at hprune
  next field text hlhs hrhs =>
    obtain rfl : lhs = .fieldExtractor field := hlhs
    obtain rfl : rhs = .data (.basic (.string text)) := hrhs
    obtain ⟨named, hnamed, hmay, rfl | ⟨other, rfl⟩⟩ := exists_of_loosely_resolveConcepts hmay
    · exact mayMatch_widen (hstrings _ rfl _ hnamed _ _ rfl rfl) hmay
    · exact mayMatch_widen (hstrings _ rfl _ hnamed _ _ rfl rfl) hmay
  next type text hlhs hrhs =>
    obtain rfl : lhs = .typeExtractor type := hlhs
    rw [beq_iff_eq] at hprune
    rw [hprune] at hmay
    exact hmay
  · cases hprune

/-! ## The lookup -/

omit [BloomFilters] [Regex] in
theorem isOk_resolve_prune (hresolve : (taxonomies.resolve steps expr type).isOk = true)
    (other : VastType) : (taxonomies.resolve steps (prune unprunable expr) other).isOk = true := by
  rw [resolve, isOk_resolveImpl, all_eq_true] at hresolve ⊢
  intro pred hpred
  rcases mem_predicates_prune hpred with horigin | ⟨origin, -, -, rfl⟩
  · rw [isOk_resolvePredicate steps taxonomies _ [(type.name, [type])]]
    exact hresolve pred horigin
  · rfl

/-- When every schema can be resolved, the lookup has a result for each one. -/
theorem exists_lookupTypes {pruned : Expression}
    {maps : List (VastType × FlatMap Uuid PartitionSynopsis)}
    (hresolve : ∀ entry ∈ maps, (taxonomies.resolve steps pruned entry.1).isOk = true) :
    ∃ infos, lookupTypes steps taxonomies pruned maps = .ok infos ∧
      ∀ entry ∈ maps, ∃ resolved, taxonomies.resolve steps pruned entry.1 = .ok resolved ∧
        (entry.1, ⟨resolved, sortByImportTime (candidates entry.2 resolved)⟩) ∈ infos := by
  induction maps with
  | nil => exact ⟨[], rfl, by simp⟩
  | cons head rest ih =>
    obtain ⟨type, partitions⟩ := head
    obtain ⟨hhead, hrest⟩ := forall_mem_cons.mp hresolve
    obtain ⟨infos, hinfos, hents⟩ := ih hrest
    cases hresolved : taxonomies.resolve steps pruned type with
    | error error => simp [hresolved, Except.toBool] at hhead
    | ok resolved =>
      refine ⟨_, by rw [lookupTypes, hresolved, hinfos]; rfl, ?_⟩
      rw [forall_mem_cons]
      refine ⟨⟨resolved, hresolved, mem_cons_self⟩, fun entry hentry => ?_⟩
      obtain ⟨other, hother, hmem⟩ := hents entry hentry
      exact ⟨other, hother, mem_cons_of_mem _ hmem⟩

/-- The condition under which a lookup loses no partition of a schema. What is merged is about
string columns of the schema, and no field that the lookup asks about is named with a gap. -/
structure Searchable (steps : Nat) (state : CatalogState) (schema : VastType)
    (expression : Expression) : Prop where
  strings : ∀ pred ∈ mergedPredicates state.unprunableFields expression,
    StringsOnly steps state.taxonomies schema pred
  gapFree : ∀ resolved,
    state.taxonomies.resolve steps (prune state.unprunableFields expression) schema =
        .ok resolved →
      ∀ pred ∈ asked resolved, ∀ key value, pred.lhs = .fieldExtractor key →
        pred.rhs = .data value → GapFree key (compatible · pred.op value) schema

omit [BloomFilters] in
/-- The operands of the metadata predicates that the catalog answers fit. -/
theorem valid_of_resolve (hvalid : validate expr = .ok ()) {resolved : Expression}
    (hresolve : taxonomies.resolve steps (prune unprunable expr) type = .ok resolved)
    (hpred : pred ∈ predicates resolved) {kind : MetaExtractor}
    (hkind : pred.lhs = .metaExtractor kind) (hrhs : pred.rhs = .data rhs) :
    validateOperands pred.lhs pred.op pred.rhs = .ok () := by
  obtain ⟨origin, horigin, rfl | ⟨field, hlhs | hfield⟩⟩ :=
    substitutes_resolveImpl hresolve pred hpred
  · rcases mem_predicates_prune horigin with hself | ⟨seen, -, -, rfl⟩
    · exact validateOperands_of_validatePredicate (validatePredicate_of_mem hvalid pred hself)
    · cases hkind
  · cases hkind.symm.trans hlhs
  · cases hrhs.symm.trans hfield

omit [BloomFilters] in
theorem exists_row_of_evaluate {id : Nat} (hmatch : (evaluate slice expr []).test id = true) :
    ∃ row ∈ slice.rows, holds slice row expr = true := by
  rw [test_evaluate, and_eq_true, and_eq_true, and_eq_true,
    decide_eq_true_eq, decide_eq_true_eq] at hmatch
  obtain ⟨⟨hsize, hfirst, -⟩, hholds⟩ := hmatch
  exact ⟨rowAt slice id, rowAt_mem slice hfirst hsize, hholds⟩

/-- The lookup without shortcuts: every partition is held against the whole expression. -/
def plainLookup (steps : Nat) (state : CatalogState) (expression : Expression) :
    Except ResolveError CatalogLookupResult :=
  (state.synopsesPerType.mapM fun entry =>
    (state.taxonomies.resolve steps (prune state.unprunableFields expression) entry.1).map
      fun resolved => (entry.1, ⟨resolved, sortByImportTime (select entry.2 fun synopsis =>
        loosely (mayHold synopsis) resolved)⟩)).map .mk

/-- Merging sorted candidates, with an early end for no or for all of them, finds what the plain
lookup finds. -/
theorem lookup_eq_plainLookup (steps : Nat) (state : CatalogState) (expression : Expression) :
    state.lookup steps expression = state.plainLookup steps expression := by
  rw [lookup, plainLookup]
  congr 1
  generalize prune state.unprunableFields expression = pruned
  induction state.synopsesPerType with
  | nil => rfl
  | cons entry rest ih =>
    rw [mapM_cons, ← ih, lookupTypes]
    dsimp only
    cases state.taxonomies.resolve steps pruned entry.1 with
    | error error => rfl
    | ok resolved =>
      dsimp only [lookupImpl]
      rw [candidates_eq]
      cases lookupTypes steps state.taxonomies pruned rest <;> rfl

end Candidates

/-! ## Instances -/

def fieldEquals (field text : String) : Expression :=
  .predicate ⟨.fieldExtractor field, .equal, .data (.basic (.string text))⟩

def eitherIsX : Expression :=
  .disjunction [fieldEquals "a" "x", fieldEquals "b" "x"]

def noTaxonomies : Taxonomies :=
  ⟨[], []⟩

def stringPartition : Uuid × PartitionSynopsis :=
  (7, @PartitionSynopsis.persisted PartitionSynopsis.exactFilters ⟨[], 0⟩ 1
    [PartitionSynopsis.skipSlice])

/-- Two enumerations, which are compared with strings. -/
def enumSchema : VastType :=
  .enriched (.record [("a", .enumeration [("x", 0), ("y", 1)]),
    ("b", .enumeration [("x", 0), ("y", 1)])]) (some "sample") []

def enumSlice : TableSlice where
  schema := enumSchema
  offset := some 0
  importTime := 0
  rows := [[.basic (.enumeration 0), .basic (.enumeration 1)]]
  typed := by decide

def enumPartition : Uuid × PartitionSynopsis :=
  (7, @PartitionSynopsis.persisted PartitionSynopsis.exactFilters ⟨[], 0⟩ 1 [enumSlice])

/-- A partition of another schema stays in the catalog. -/
def stringOperations : List Operation :=
  [.merge 3 stringPartition.2, .merge stringPartition.1 stringPartition.2,
    .merge 9 enumPartition.2, .erase 3]

end CatalogState

end Vast
