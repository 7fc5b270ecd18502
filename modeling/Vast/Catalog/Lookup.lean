import Mathlib.Data.List.Sort
import Vast.Catalog.MatchName
import Vast.Catalog.PartitionSynopsis
import Vast.Foundation.Ascending
import Vast.Query.Prune
import Vast.Query.Tailor
import Vast.Query.Taxonomies

/-! # The catalog

The catalog keeps the synopses of all partitions by schema and in the order of
their identifiers. A lookup prunes the expression, resolves it for every schema,
and combines the candidates of the predicates along the expression with set
operations on ordered vectors.
-/

namespace Vast

open Foundation PartitionInfo Ascending
open Expression hiding none

/-- Identifiers compare byte by byte, which is the order of the numbers. -/
instance : LinearOrder Uuid where
  le_refl := BitVec.le_refl
  le_trans _ _ _ := BitVec.le_trans
  le_antisymm _ _ := BitVec.le_antisymm
  lt_iff_le_not_ge _ _ := by
    simp only [BitVec.le_def, BitVec.lt_def]
    omega
  le_total := BitVec.le_total
  toDecidableLE := inferInstance

structure CatalogState where
  synopsesPerType : List (VastType × FlatMap Uuid PartitionSynopsis)
  unprunableFields : List String
  taxonomies : Taxonomies

namespace CatalogState

def initial (taxonomies : Taxonomies) : CatalogState where
  synopsesPerType := []
  unprunableFields := []
  taxonomies := taxonomies

/-! ## Updates -/

def fullName (field : QualifiedRecordField) : String :=
  if field.schemaName = "" then field.fieldName
  else if field.fieldName = "" then field.schemaName
  else field.schemaName ++ "." ++ field.fieldName

variable (state : CatalogState)

/-- String fields with a synopsis of their own must not be merged with others. -/
def updateUnprunableFields (synopsis : PartitionSynopsis) : CatalogState :=
  { state with
    unprunableFields := synopsis.fieldSynopses.foldl (fun names entry =>
      if entry.2.isSome && entry.1.type = .basic .string then
        if fullName entry.1 ∈ names then names else names ++ [fullName entry.1]
      else names) state.unprunableFields }

/-- Add a partition, or replace its synopsis. -/
def merge (partition : Uuid) (synopsis : PartitionSynopsis) : CatalogState :=
  let state := state.updateUnprunableFields synopsis
  { state with
    synopsesPerType := AssocList.adjust synopsis.schema (fun map => map.insert partition synopsis)
      (AssocList.emplace synopsis.schema FlatMap.empty state.synopsesPerType) }

variable (partitions : List (Uuid × PartitionSynopsis))

def schemas : List VastType :=
  (partitions.map fun entry => entry.2.schema).dedup

/-- The partitions with a schema. Their identifiers are distinct, so that inserting
them one by one sorts them. -/
def withSchema (type : VastType) : FlatMap Uuid PartitionSynopsis :=
  FlatMap.ofList (partitions.filter fun entry => decide (entry.2.schema = type))

/-- Set the partitions of all schemas that occur. The partitions that the catalog
had for one of these schemas are gone. -/
def createFrom : CatalogState :=
  let state := partitions.foldl (fun state entry => state.updateUnprunableFields entry.2) state
  { state with
    synopsesPerType := (schemas partitions).foldl (fun maps type =>
      AssocList.adjust type (fun _ => withSchema partitions type)
        (AssocList.emplace type FlatMap.empty maps)) state.synopsesPerType }

/-- Remove a partition from the first schema that has it. -/
def eraseFrom (partition : Uuid) :
    List (VastType × FlatMap Uuid PartitionSynopsis) →
      List (VastType × FlatMap Uuid PartitionSynopsis)
  | [] => []
  | (type, map) :: rest =>
    if map.contains partition then
      if (map.erase partition).entries.isEmpty then rest
      else (type, map.erase partition) :: rest
    else (type, map) :: eraseFrom partition rest

def erase (partition : Uuid) : CatalogState :=
  { state with synopsesPerType := eraseFrom partition state.synopsesPerType }

inductive Operation where
  | createFrom (partitions : List (Uuid × PartitionSynopsis))
  | merge (partition : Uuid) (synopsis : PartitionSynopsis)
  | erase (partition : Uuid)

def step : Operation → CatalogState
  | .createFrom partitions => state.createFrom partitions
  | .merge partition synopsis => state.merge partition synopsis
  | .erase partition => state.erase partition

def after (taxonomies : Taxonomies) (operations : List Operation) : CatalogState :=
  operations.foldl step (initial taxonomies)

/-! ## Lookup -/

section Lookup

variable [BloomFilters] [Regex]

def partitionInfo (entry : Uuid × PartitionSynopsis) : PartitionInfo where
  uuid := entry.1
  events := entry.2.events
  maxImportTime := entry.2.maxImportTime
  schema := entry.2.schema
  version := entry.2.version

def importTimeSynopsis (synopsis : PartitionSynopsis) : Synopsis :=
  Synopsis.empty .time (.minMax synopsis.minImportTime synopsis.maxImportTime)

variable (partitions : FlatMap Uuid PartitionSynopsis)

def select (property : PartitionSynopsis → Bool) : List PartitionInfo :=
  (partitions.entries.filter fun entry => property entry.2).map partitionInfo

def allPartitions : List PartitionInfo :=
  select partitions fun _ => true

/-- The partitions that a synopsis does not exclude. -/
def search (matching : QualifiedRecordField → Bool) (op : RelationalOperator) (rhs : Data) :
    List PartitionInfo :=
  select partitions fun synopsis => synopsis.selects matching op rhs

def lookupPredicate (pred : Predicate) : List PartitionInfo :=
  match pred.lhs, pred.rhs with
  | .metaExtractor .type, .data rhs =>
    -- The names of the schemas are enough.
    select partitions fun synopsis => synopsis.fieldSynopses.any fun entry =>
      Data.evaluate (.basic (.string entry.1.schemaName)) pred.op rhs
  | .metaExtractor .importTime, .data rhs =>
    select partitions fun synopsis =>
      (importTimeSynopsis synopsis).lookup pred.op rhs != some false
  | .fieldExtractor key, .data rhs =>
    search partitions (fun field => matchName key field && compatible field.type pred.op rhs)
      pred.op rhs
  | .typeExtractor extractor, .data rhs =>
    let result :=
      if !extractor.hasValue then
        search partitions (fun field => TypeResolver.namedLike extractor pred.op rhs field.type)
          pred.op rhs
      else search partitions (fun field => field.type.congruent extractor) pred.op rhs
    -- Databases from before the timestamp attribute was removed are still read.
    if extractor.name = "timestamp" then
      Ascending.unify PartitionInfo.uuid result
        (search partitions (fun field => TypeResolver.hasTimestampAttribute field.type) pred.op rhs)
    else result
  | _, _ => allPartitions partitions

mutual

/-- The candidates for an expression, in the order of their identifiers. -/
def candidates : Expression → List PartitionInfo
  | .none => allPartitions partitions
  -- The program asserts that there is an operand.
  | .conjunction [] => allPartitions partitions
  | .conjunction (operand :: rest) =>
    let result := candidates operand
    if result.isEmpty then result else intersectAll result rest
  | .disjunction operands => unifyAll [] operands
  -- A synopsis may answer yes by mistake, so that the opposite is no answer.
  | .negation _ => allPartitions partitions
  | .predicate pred => lookupPredicate partitions pred

def intersectAll (result : List PartitionInfo) : List Expression → List PartitionInfo
  | [] => result
  | operand :: rest =>
    let infos := candidates operand
    if infos.isEmpty then infos
    else intersectAll (Ascending.intersect PartitionInfo.uuid result infos) rest

def unifyAll (result : List PartitionInfo) : List Expression → List PartitionInfo
  | [] => result
  | operand :: rest =>
    let infos := candidates operand
    if infos.length = partitions.entries.length then infos
    else unifyAll (Ascending.unify PartitionInfo.uuid result infos) rest

end

/-- The candidates of one schema and the expression for them. -/
def lookupImpl (expression : Expression) : CandidateInfo where
  exp := expression
  partitionInfos := candidates partitions expression

/-- The most recent partitions come first. -/
def sortByImportTime (infos : List PartitionInfo) : List PartitionInfo :=
  infos.insertionSort fun a b => b.maxImportTime ≤ a.maxImportTime

/-- The candidates of all schemas, unless an expression cannot be resolved. -/
def lookupTypes (steps : Nat) (taxonomies : Taxonomies) (pruned : Expression) :
    List (VastType × FlatMap Uuid PartitionSynopsis) →
      Except ResolveError (List (VastType × CandidateInfo))
  | [] => .ok []
  | (type, partitions) :: rest =>
    match taxonomies.resolve steps pruned type with
    | .error error => .error error
    | .ok resolved =>
      let found := lookupImpl partitions resolved
      (lookupTypes steps taxonomies pruned rest).map
        ((type, { found with partitionInfos := sortByImportTime found.partitionInfos }) :: ·)

def lookup (steps : Nat) (state : CatalogState) (expression : Expression) :
    Except ResolveError CatalogLookupResult :=
  (lookupTypes steps state.taxonomies (prune state.unprunableFields expression)
    state.synopsesPerType).map CatalogLookupResult.mk

end Lookup

end CatalogState

/-! ## Operations on sorted candidates -/

/-- The operations on vectors that are sorted by identifiers without repetition leave the
candidates in both vectors, and those in either. -/
theorem inplace_operations {xs ys : List PartitionInfo} (hxs : Ascending uuid xs)
    (hys : Ascending uuid ys) :
    (Ascending uuid (inplaceIntersect uuid xs ys) ∧
      ∀ info, info ∈ inplaceIntersect uuid xs ys ↔
        info ∈ xs ∧ ∃ other ∈ ys, other.uuid = info.uuid) ∧
    Ascending uuid (unify uuid xs ys) ∧
      (∀ info ∈ unify uuid xs ys, info ∈ xs ∨ info ∈ ys) ∧
      ∀ info, info ∈ xs ∨ info ∈ ys →
        ∃ kept ∈ unify uuid xs ys, kept.uuid = info.uuid := by
  rw [inplaceIntersect_eq,
    intersect_eq_filter (fun info _ => decide_eq_true_iff) hxs hys]
  refine ⟨⟨hxs.filter _, fun info => ?_⟩, ascending_unify hxs hys,
    fun info => mem_of_mem_unify hxs hys, fun info => exists_mem_unify _⟩
  rw [List.mem_filter, decide_eq_true_eq]

/-- A partition that only the second result has is in the union. -/
theorem inplace_operations_pair : ∃ kept ∈ unify uuid
    [⟨1, 0, 0, .none, 0⟩] [⟨1, 0, 0, .none, 0⟩, ⟨2, 0, 0, .none, 0⟩], kept.uuid = 2 :=
  (inplace_operations (by decide) (by decide)).2.2.2 ⟨2, 0, 0, .none, 0⟩ (by decide)

end Vast
