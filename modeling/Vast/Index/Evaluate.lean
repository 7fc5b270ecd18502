import Vast.Catalog.Completeness
import Vast.Query.RowEquivalence
import Vast.Queue.QueryQueue

/-! # Evaluating a query at the index

The index asks the catalog for candidates, adds the partitions that the catalog
does not know yet, and installs for every schema the expression that came with
the candidates. That expression was pruned for the lookup. It is the expression
of the user when nothing was merged, and in general selects other rows.
-/

namespace Vast

open Foundation RecordType List AssocList CatalogState PartitionSynopsis Taxonomies
open Expression hiding none

namespace IndexEvaluate

def assign (type : VastType) (context : QueryContext) (contexts : List (VastType × QueryContext)) :
    List (VastType × QueryContext) :=
  AssocList.adjust type (fun _ => context) (AssocList.emplace type context contexts)

variable (query : QueryContext) (version : UInt64) {infos : List (VastType × CandidateInfo)}
  {type : VastType} {expression : Expression}

variable (activePartitions : List (VastType × Uuid))

/-- The partitions that the index keeps itself: one active partition per schema,
and those that are not persisted yet. -/
def localCandidates (unpersisted : List (Uuid × VastType)) : List (Uuid × VastType) :=
  (activePartitions.map fun entry => (entry.2, entry.1)) ++ unpersisted

/-- Add a partition of the index unless the catalog has returned it. A schema that
the catalog does not know gets the expression of the query. -/
def addCandidate (infos : List (VastType × CandidateInfo)) (candidate : Uuid × VastType) :
    List (VastType × CandidateInfo) :=
  AssocList.adjust candidate.2 (fun info =>
      if info.partitionInfos.any fun other => other.uuid = candidate.1 then info
      else { info with
        partitionInfos := info.partitionInfos ++ [⟨candidate.1, 0, 0, candidate.2, version⟩] })
    (AssocList.emplace candidate.2 ⟨query.expr, []⟩ infos)

def addCandidates (unpersisted : List (Uuid × VastType))
    (result : CatalogLookupResult) : CatalogLookupResult :=
  ⟨(localCandidates activePartitions unpersisted).foldl (addCandidate query version)
    result.candidateInfos⟩

def queryContexts (result : CatalogLookupResult) : List (VastType × QueryContext) :=
  result.candidateInfos.foldl
    (fun contexts entry => assign entry.1 { query with expr := entry.2.exp } contexts)
    (activePartitions.foldl (fun contexts entry => assign entry.1 query contexts) [])

theorem lookup_assign (type other : VastType) (context : QueryContext)
    (contexts : List (VastType × QueryContext)) : (assign type context contexts).lookup other =
      if other = type then some context else contexts.lookup other := by
  rw [assign, lookup_adjust, lookup_emplace, lookup_emplace]
  split
  · simp
  · rfl

variable {query version} {result : CatalogLookupResult}

/-- A schema has candidates, and all of them come with one expression. -/
structure Carries (infos : List (VastType × CandidateInfo)) (type : VastType)
    (expression : Expression) : Prop where
  known : ∃ info, (type, info) ∈ infos
  exp_eq : ∀ info, (type, info) ∈ infos → info.exp = expression

/-- A partition of the index does not change the expression of a schema that the
catalog knows. -/
theorem Carries.addCandidate (hcarries : Carries infos type expression)
    (candidate : Uuid × VastType) :
    Carries (addCandidate query version infos candidate) type expression := by
  obtain ⟨⟨info, hinfo⟩, hexp⟩ := hcarries
  have hemplace : ∀ entry ∈ emplace candidate.2 ⟨query.expr, []⟩ infos, entry.1 = type →
      entry.2.exp = expression :=
    forall_mem_emplace (fun entry hentry heq => hexp entry.2 (heq ▸ hentry))
      fun hunknown (heq : candidate.2 = type) => absurd (mem_map_of_mem hinfo) (heq ▸ hunknown)
  have hadjust : ∀ entry ∈ IndexEvaluate.addCandidate query version infos candidate,
      entry.1 = type → entry.2.exp = expression := by
    refine forall_mem_adjust (fun value hvalue heq => ?_) fun entry hentry _ =>
      hemplace entry hentry
    rw [← hemplace _ hvalue heq]
    dsimp only
    split <;> rfl
  have hkey : type ∈ (IndexEvaluate.addCandidate query version infos candidate).map Prod.fst := by
    rw [IndexEvaluate.addCandidate, keys_adjust]
    exact mem_map_of_mem (mem_emplace hinfo)
  obtain ⟨⟨_, known⟩, hknown, rfl⟩ := mem_map.mp hkey
  exact ⟨⟨known, hknown⟩, fun other hother => hadjust _ hother rfl⟩

theorem Carries.foldl (hcarries : Carries infos type expression)
    (candidates : List (Uuid × VastType)) :
    Carries (candidates.foldl (IndexEvaluate.addCandidate query version) infos) type
      expression := by
  induction candidates generalizing infos with
  | nil => exact hcarries
  | cons candidate rest ih => exact ih (hcarries.addCandidate candidate)

/-- The last entry of a schema sets its context. -/
theorem exists_lookup_queryContexts (query : QueryContext)
    (activePartitions : List (VastType × Uuid)) {entry : VastType × CandidateInfo}
    (hentry : entry ∈ result.candidateInfos) :
    ∃ info, (entry.1, info) ∈ result.candidateInfos ∧
      (queryContexts query activePartitions result).lookup entry.1 =
        some { query with expr := info.exp } := by
  rw [queryContexts]
  generalize activePartitions.foldl _ [] = contexts
  generalize result.candidateInfos = infos at hentry ⊢
  induction infos using reverseRecOn with
  | nil => cases hentry
  | append_singleton infos last ih =>
    rw [foldl_append, foldl_cons, foldl_nil, lookup_assign]
    split
    next heq => exact ⟨last.2, by simp [heq], rfl⟩
    next hne =>
      obtain ⟨info, hinfo, heq⟩ := ih ((mem_concat.mp hentry).resolve_right fun hlast =>
        hne (congrArg Prod.fst hlast))
      exact ⟨info, mem_append_left _ hinfo, heq⟩

theorem Carries.lookup_queryContexts (hcarries : Carries result.candidateInfos type expression)
    (activePartitions : List (VastType × Uuid)) :
    (queryContexts query activePartitions result).lookup type =
      some { query with expr := expression } := by
  obtain ⟨⟨_, hinfo⟩, hexp⟩ := hcarries
  obtain ⟨info, hmem, hlookup⟩ := exists_lookup_queryContexts query activePartitions hinfo
  rw [hlookup, hexp info hmem]

/-! ## The query that partitions execute -/

section Rows

variable [Regex] {steps : Nat} {entry : VastType × CandidateInfo}

variable [BloomFilters]

theorem resolve_of_mem_lookupTypes {taxonomies : Taxonomies} {pruned : Expression}
    {maps : List (VastType × FlatMap Uuid PartitionSynopsis)}
    {infos : List (VastType × CandidateInfo)}
    (hlookup : lookupTypes steps taxonomies pruned maps = .ok infos)
    (hentry : entry ∈ infos) : taxonomies.resolve steps pruned entry.1 = .ok entry.2.exp := by
  induction maps generalizing infos with
  | nil =>
    cases hlookup
    simp at hentry
  | cons head rest ih =>
    rw [lookupTypes] at hlookup
    split at hlookup
    · cases hlookup
    next resolved hresolve =>
      obtain ⟨tail, htail, rfl⟩ := exists_of_map_eq_ok hlookup
      rcases mem_cons.mp hentry with rfl | hmem
      · exact hresolve
      · exact ih htail hmem

/-- All candidates of a schema carry the same expression. -/
theorem carries_of_lookup {state : CatalogState} {expression : Expression}
    (hlookup : state.lookup steps expression = .ok result)
    (hentry : entry ∈ result.candidateInfos) :
    Carries result.candidateInfos entry.1 entry.2.exp := by
  obtain ⟨infos, hinfos, rfl⟩ := exists_of_map_eq_ok hlookup
  refine ⟨⟨entry.2, hentry⟩, fun info hinfo => ?_⟩
  have hresolve := resolve_of_mem_lookupTypes hinfos hentry
  have hother := resolve_of_mem_lookupTypes hinfos hinfo
  exact Except.ok.inj (hother.symm.trans hresolve)

/-- The expression that comes with the candidates of a schema, and that the index
installs for its partitions, selects the rows that the expression of the user
selects after it is resolved for the schema, if pruning is exact. -/
theorem executed_query_equivalent (steps : Nat) (state : CatalogState) (query : QueryContext)
    (version : UInt64) (activePartitions : List (VastType × Uuid))
    (unpersisted : List (Uuid × VastType)) (result : CatalogLookupResult)
    (hlookup : state.lookup steps query.expr = .ok result)
    (type : VastType) (info : CandidateInfo) (hinfo : (type, info) ∈ result.candidateInfos)
    (hexact : PrunesExactly steps state.taxonomies state.unprunableFields type query.expr)
    (resolved : Expression)
    (hresolved : state.taxonomies.resolve steps query.expr type = .ok resolved) :
    RowEquivalent type info.exp resolved ∧ ∃ context, (queryContexts query activePartitions
          (addCandidates query version activePartitions unpersisted result)).lookup type =
            some context ∧ RowEquivalent type context.expr resolved := by
  have hcarries := carries_of_lookup hlookup hinfo
  have hequivalent : RowEquivalent type info.exp resolved := by
    obtain ⟨infos, hinfos, rfl⟩ := exists_of_map_eq_ok hlookup
    exact rowEquivalent_prune hexact (resolve_of_mem_lookupTypes hinfos hinfo) hresolved
  exact ⟨hequivalent, _, (hcarries.foldl _).lookup_queryContexts activePartitions, hequivalent⟩

end Rows

/-! ## Instances -/

/-- The query for two fields that both have to be the literal. -/
def bothAreX (first second : String) : QueryContext where
  id := 1
  expr := .conjunction [CatalogState.fieldEquals first "x", CatalogState.fieldEquals second "x"]
  priority := 100

def wordSchema : VastType :=
  .enriched (.record [("word", .basic .string)]) (some "sample") []

def wordState : CatalogState where
  synopsesPerType := [(wordSchema, FlatMap.empty)]
  unprunableFields := []
  taxonomies := CatalogState.noTaxonomies

/-- Two keys of the only string column are merged, and the rows are the same. -/
theorem executed_query_equivalent_word :
    ∃ result info, @CatalogState.lookup exactFilters noRegex 0
        wordState (bothAreX "word" "sample.word").expr = .ok result ∧
      (wordSchema, info) ∈ result.candidateInfos ∧
      info.exp = .predicate ⟨Pruner.stringExtractor, .equal, .data (.basic (.string "x"))⟩ ∧
      @RowEquivalent noRegex wordSchema info.exp
        (bothAreX "word" "sample.word").expr := by
  let := exactFilters
  let := noRegex
  refine ⟨_, _, rfl, mem_cons_self, rfl, ?_⟩
  refine (executed_query_equivalent 0 wordState (bothAreX "word" "sample.word") 0 [] [] _ rfl
    wordSchema _ mem_cons_self (Or.inr ⟨rfl, ?_⟩) _ rfl).1
  have hnames : ∀ pred ∈ predicates (bothAreX "word" "sample.word").expr,
      pred = ⟨.fieldExtractor "word", .equal, .data (.basic (.string "x"))⟩ ∨
        pred = ⟨.fieldExtractor "sample.word", .equal, .data (.basic (.string "x"))⟩ := by decide
  intro pred hpred _ resolved hresolved
  rcases hnames pred hpred with rfl | rfl
  · cases hresolved
    rfl
  · cases hresolved
    rfl

/-- The pruned expression asks for the literal in any string column. It selects a
row that has it in one column only, and the index installs it. -/
theorem executed_query_selects_more :
    ∃ result info context, @CatalogState.lookup exactFilters
        noRegex 0 (after noTaxonomies
          stringOperations) (bothAreX "a" "b").expr = .ok result ∧
      (skipSchema, info) ∈ result.candidateInfos ∧
      (queryContexts (bothAreX "a" "b") [] (addCandidates (bothAreX "a" "b") 0 [] [] result)).lookup
        skipSchema = some context ∧ context.expr = info.exp ∧
      noTaxonomies.resolve 0 (bothAreX "a" "b").expr skipSchema =
        .ok (bothAreX "a" "b").expr ∧
      @selectedRows noRegex skipSlice info.exp [] =
        .ok [true, false] ∧
      @selectedRows noRegex skipSlice (bothAreX "a" "b").expr [] =
        .ok [false, false] :=
  ⟨_, _, _, rfl, mem_cons_self, rfl, rfl, rfl, rfl, rfl⟩

end IndexEvaluate

end Vast
