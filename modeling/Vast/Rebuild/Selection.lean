import Mathlib.Data.List.Perm.Subperm
import Vast.Catalog.LookupResult

/-! # Candidates of a rebuild

A rebuild asks the catalog for the partitions that match an expression, and goes
through the answer schema by schema: it drops the partitions that need no rebuilding,
cuts off what is over the limit, and adds the others to its work. A schema of which
nothing is left is erased from the map that is being traversed.
-/

namespace Vast

open Option (getD_some map_some ne_none_iff_exists' some)

open List

/-- The constants of the rebuilder. The size is the capacity of partitions in the index. -/
structure RebuilderConfig where
  maxPartitionSize : UInt64
  /-- The number of events up to which a partition is undersized, a fraction of the size. -/
  undersizedEvents : UInt64
  currentPartitionVersion : UInt64
  /-- The order of types. -/
  less : VastType → VastType → Bool
  positive : 0 < maxPartitionSize
  undersized_le : undersizedEvents ≤ maxPartitionSize

structure StartOptions where
  all : Bool := false
  undersized : Bool := false
  parallel : Nat := 1
  maxPartitions : Nat := 2 ^ 64 - 1
  automatic : Bool := false

structure RunOptions extends StartOptions where
  parallel_pos : 0 < parallel
  all_of_undersized : undersized = true → all = true

/-- A rebuild requires a non-zero parallel level. Undersized partitions are looked for among
all. -/
def StartOptions.accept (options : StartOptions) : Option RunOptions :=
  if hparallel : options.parallel = 0 then none
  else some
    { options with
      all := options.all || options.undersized
      parallel_pos := Nat.pos_of_ne_zero hparallel
      all_of_undersized := by simp +contextual }

namespace Rebuilder

variable (config : RebuilderConfig) (options : RunOptions) {result : CatalogLookupResult}
  {numTotal : Nat} {entries : List (VastType × CandidateInfo)}

def isOutdated (info : PartitionInfo) : Bool :=
  info.version < config.currentPartitionVersion

/-- Whether the size of a partition is no reason to leave it as it is. -/
def isUndersized (info : PartitionInfo) : Bool :=
  !(info.schema.hasValue && config.undersizedEvents < info.events)

variable (infos : List PartitionInfo)

def outdated : List PartitionInfo :=
  if options.all then infos else infos.filter (isOutdated config)

def candidates : List PartitionInfo :=
  if options.undersized then (outdated config options infos).filter (isUndersized config)
  else outdated config options infos

def sortBySchema : List PartitionInfo :=
  infos.mergeSort fun left right => !config.less right.schema left.schema

/-- The partitions of a schema that are added to the work, unless the schema is erased. -/
def visit : Option (List PartitionInfo) :=
  if !options.all && (outdated config options infos).isEmpty then none
  else
    let infos := candidates config options infos
    if options.maxPartitions < infos.length then
      let infos := (sortBySchema config infos).take options.maxPartitions
      if infos.isEmpty then none else some infos
    else some infos

inductive Selection where
  /-- The traversal goes on from an erased element. -/
  | undefined
  /-- The map is empty, and the run is finished. -/
  | nothing
  /-- The work, and the total that is recorded for it. -/
  | selected (partitions : List PartitionInfo) (numTotal : Nat)
  deriving DecidableEq

/-- Erase the visited schema from a map of a given size. -/
def erase (size : Nat) : Selection :=
  if size - 1 = 0 then .nothing else .undefined

/-- The total is set anew for each schema. -/
def selectLoop (size : Nat) :
    List (VastType × CandidateInfo) → List PartitionInfo → Nat → Selection
  | [], remaining, numTotal => .selected remaining numTotal
  | entry :: rest, remaining, _ =>
    match visit config options entry.2.partitionInfos with
    | none => erase size
    | some infos => selectLoop size rest (remaining ++ infos) infos.length

def select (result : CatalogLookupResult) : Selection :=
  selectLoop config options result.candidateInfos.length result.candidateInfos [] 0

/-! ## What is selected -/

variable {config options} {infos : List PartitionInfo}

theorem length_sortBySchema :
    (sortBySchema config infos).length = infos.length :=
  length_mergeSort _

theorem visit_eq_none_iff : visit config options infos = none ↔
      (options.all = false ∧ outdated config options infos = []) ∨
        (options.maxPartitions = 0 ∧ candidates config options infos ≠ []) := by
  have hsort := @length_sortBySchema config (candidates config options infos)
  unfold visit
  by_cases hnone : options.all = false ∧ outdated config options infos = []
  · simp [hnone.1, hnone.2]
  · rw [if_neg (by simpa using hnone), or_iff_right hnone]
    by_cases hlimit : options.maxPartitions < (candidates config options infos).length
    · have hne : candidates config options infos ≠ [] := ne_nil_of_length_pos (by omega)
      have hsorted : sortBySchema config (candidates config options infos) ≠ [] :=
        ne_nil_of_length_pos (by omega)
      simp [hlimit, hne, hsorted]
    · have hzero : options.maxPartitions = 0 → candidates config options infos = [] := by
        intro hzero
        exact length_eq_zero_iff.mp (by omega)
      simp only [hlimit, if_false, reduceCtorEq, false_iff, not_and, not_not]
      exact hzero

theorem length_visit {chosen : List PartitionInfo}
    (hvisit : visit config options infos = some chosen) :
    chosen.length = min options.maxPartitions (candidates config options infos).length := by
  have hsort := @length_sortBySchema config (candidates config options infos)
  unfold visit at hvisit
  split at hvisit
  · cases hvisit
  · dsimp only at hvisit
    split at hvisit
    next hlimit =>
      split at hvisit
      · cases hvisit
      · cases hvisit
        rw [length_take, hsort]
    next hlimit =>
      cases hvisit
      exact (Nat.min_eq_right (Nat.le_of_not_lt hlimit)).symm

def chosen (config : RebuilderConfig) (options : RunOptions) (entry : VastType × CandidateInfo) :
    List PartitionInfo :=
  (visit config options entry.2.partitionInfos).getD []

theorem selectLoop_eq (size : Nat) (entries : List (VastType × CandidateInfo))
    (remaining : List PartitionInfo) (numTotal : Nat) :
    selectLoop config options size entries remaining numTotal =
      if ∀ entry ∈ entries, visit config options entry.2.partitionInfos ≠ none then
        .selected (remaining ++ entries.flatMap (chosen config options))
          ((entries.getLast?.map fun entry => (chosen config options entry).length).getD numTotal)
      else erase size := by
  induction entries generalizing remaining numTotal with
  | nil => simp [selectLoop]
  | cons entry rest ih =>
    rw [selectLoop]
    simp only [forall_mem_cons]
    cases hvisit : visit config options entry.2.partitionInfos with
    | none => simp
    | some infos =>
      have hchosen : chosen config options entry = infos := by
        rw [chosen, hvisit, getD_some]
      dsimp only
      rw [ih, flatMap_cons, hchosen, ← append_assoc]
      simp only [ne_eq, reduceCtorEq, not_false_eq_true, true_and]
      cases rest with
      | nil => simp [hchosen]
      | cons second others =>
        -- The last schema sets the total.
        obtain ⟨last, hlast⟩ : ∃ last, (second :: others).getLast? = some last :=
          ⟨_, getLast?_eq_getLast_of_ne_nil (by simp)⟩
        rw [getLast?_cons_cons, hlast, map_some, getD_some, getD_some]

theorem select_eq (result : CatalogLookupResult) : select config options result =
      if ∀ entry ∈ result.candidateInfos, visit config options entry.2.partitionInfos ≠ none then
        .selected (result.candidateInfos.flatMap (chosen config options))
          ((result.candidateInfos.getLast?.map fun entry =>
            (chosen config options entry).length).getD 0)
      else erase result.candidateInfos.length :=
  selectLoop_eq _ _ _ _

/-- Something is taken from every schema with candidates. -/
theorem chosen_eq_nil_iff {entry : VastType × CandidateInfo}
    (hvisit : visit config options entry.2.partitionInfos ≠ none) :
    chosen config options entry = [] ↔ candidates config options entry.2.partitionInfos = [] := by
  obtain ⟨infos, hinfos⟩ := ne_none_iff_exists'.mp hvisit
  have hlen := length_visit hinfos
  rw [chosen, hinfos, getD_some, ← length_eq_zero_iff, ← length_eq_zero_iff]
  constructor
  · intro hzero
    by_contra hne
    refine hvisit (visit_eq_none_iff.mpr (Or.inr ⟨by omega, ?_⟩))
    exact fun hnil => hne (by rw [hnil, length_nil])
  · omega

theorem numTotal_eq_iff {partitions : List PartitionInfo}
    (hsel : select config options result = .selected partitions numTotal) :
    numTotal = partitions.length ↔ ∀ entry ∈ result.candidateInfos.dropLast,
      candidates config options entry.2.partitionInfos = [] := by
  rw [select_eq] at hsel
  split at hsel
  next hvisits =>
    cases hsel
    rcases eq_nil_or_concat' result.candidateInfos with hnil | ⟨before, last, hlast⟩
    · simp [hnil]
    · rw [hlast] at hvisits ⊢
      rw [getLast?_concat, dropLast_concat, map_some, getD_some, flatMap_append, length_append,
        flatMap_singleton, eq_comm, Nat.add_eq_right, length_eq_zero_iff, flatMap_eq_nil_iff]
      refine forall₂_congr fun entry hentry => chosen_eq_nil_iff ?_
      exact hvisits entry (mem_append_left _ hentry)
  · unfold erase at hsel
    split at hsel
    · cases hsel
    · cases hsel

theorem length_of_select_nothing (hsel : select config options result = .nothing) :
    result.candidateInfos.length ≤ 1 := by
  rw [select_eq] at hsel
  split at hsel
  · cases hsel
  · unfold erase at hsel
    split at hsel
    next hsize => omega
    · cases hsel

/-- What is taken from a schema is among its partitions, each at most once. -/
theorem subperm_chosen (config : RebuilderConfig) (options : RunOptions)
    (entry : VastType × CandidateInfo) :
    (chosen config options entry).Subperm entry.2.partitionInfos := by
  have houtdated : (outdated config options entry.2.partitionInfos).Sublist
      entry.2.partitionInfos := by
    unfold outdated
    split
    · exact Sublist.refl _
    · exact filter_sublist
  have hcands : (candidates config options entry.2.partitionInfos).Sublist
      entry.2.partitionInfos := by
    unfold candidates
    split
    · exact filter_sublist.trans houtdated
    · exact houtdated
  have hsorted : (sortBySchema config (candidates config options entry.2.partitionInfos)).Perm
      (candidates config options entry.2.partitionInfos) := mergeSort_perm _ _
  unfold chosen visit
  dsimp only
  split
  · exact nil_subperm
  · split
    · split
      · exact nil_subperm
      · exact ((take_sublist _ _).subperm.trans hsorted.subperm).trans hcands.subperm
    · exact hcands.subperm

/-- What is selected is among the candidates, each at most once. -/
theorem subperm_select {partitions : List PartitionInfo}
    (hsel : select config options result = .selected partitions numTotal) :
    partitions.Subperm (result.candidateInfos.flatMap fun entry => entry.2.partitionInfos) := by
  rw [select_eq] at hsel
  split at hsel
  · cases hsel
    induction result.candidateInfos with
    | nil => exact nil_subperm
    | cons entry rest ih =>
      exact (subperm_chosen config options entry).append ih
  · unfold erase at hsel
    split at hsel
    · cases hsel
    · cases hsel

/-! ## The limit -/

def Selection.partitions : Selection → Option (List PartitionInfo)
  | .undefined => none
  | .nothing => some []
  | .selected partitions _ => some partitions

/-- The number of partitions of all schemas that pass the filters. -/
def numCandidates (config : RebuilderConfig) (options : RunOptions)
    (result : CatalogLookupResult) : Nat :=
  (result.candidateInfos.map fun entry =>
    (candidates config options entry.2.partitionInfos).length).sum

/-- As many partitions are selected as there are, up to the limit. -/
def SelectsUpTo (config : RebuilderConfig) (options : RunOptions)
    (result : CatalogLookupResult) : Prop :=
  ∃ partitions, (select config options result).partitions = some partitions ∧
    partitions.length ≤ options.maxPartitions ∧
    partitions.length = min options.maxPartitions (numCandidates config options result)

/-- There is at most one schema; or none is erased, and the limit is not reached or all
candidates have one schema. -/
def LimitApplies (config : RebuilderConfig) (options : RunOptions)
    (result : CatalogLookupResult) : Prop :=
  result.candidateInfos.length ≤ 1 ∨
    (options.all = true ∨ ∀ entry ∈ result.candidateInfos,
      ∃ info ∈ entry.2.partitionInfos, isOutdated config info = true) ∧
    (numCandidates config options result ≤ options.maxPartitions ∨
      0 < options.maxPartitions ∧ (result.candidateInfos.countP fun entry =>
        0 < (candidates config options entry.2.partitionInfos).length) ≤ 1)

theorem min_sum_le (limit : Nat) (counts : List Nat) :
    min limit counts.sum ≤ (counts.map (min limit)).sum := by
  induction counts with
  | nil => simp
  | cons count rest ih =>
    rw [sum_cons, map_cons, sum_cons]
    omega

theorem sum_min_le (limit : Nat) (counts : List Nat) :
    (counts.map (min limit)).sum ≤ counts.sum := by
  induction counts with
  | nil => simp
  | cons count rest ih =>
    rw [sum_cons, map_cons, sum_cons]
    omega

/-- A limit for each part is a limit for the sum if there is nothing to cut off, or only
one part. -/
theorem sum_min_eq_iff {limit : Nat} (hpos : 0 < limit) (counts : List Nat) :
    (counts.map (min limit)).sum = min limit counts.sum ↔
      counts.sum ≤ limit ∨ counts.countP (0 < ·) ≤ 1 := by
  induction counts with
  | nil => simp
  | cons count rest ih =>
    have hle := min_sum_le limit rest
    have hpositive : rest.countP (0 < ·) = 0 ↔ rest.sum = 0 := by
      rw [List.sum_eq_zero_iff_forall_eq_nat]
      simp
    rw [map_cons, sum_cons, sum_cons, countP_cons]
    by_cases hcount : count = 0
    · subst hcount
      simpa using ih
    · rw [if_pos (by simpa using Nat.pos_of_ne_zero hcount)]
      constructor
      · by_contra hneither
        omega
      · rintro (hsum | hone)
        · omega
        · omega

theorem length_flatMap_chosen
    (hvisits : ∀ entry ∈ entries, visit config options entry.2.partitionInfos ≠ none) :
    (entries.flatMap (chosen config options)).length =
      ((entries.map fun entry => (candidates config options entry.2.partitionInfos).length).map
        (min options.maxPartitions)).sum := by
  rw [length_flatMap, map_map]
  congr 1
  apply map_congr_left
  intro entry hentry
  obtain ⟨infos, hinfos⟩ := ne_none_iff_exists'.mp (hvisits entry hentry)
  rw [Function.comp_apply, ← length_visit hinfos, chosen, hinfos, getD_some]

/-- No schema is erased if all have outdated partitions, and the limit is not zero. -/
theorem forall_visit_iff : (∀ entry ∈ entries, visit config options entry.2.partitionInfos ≠ none) ↔
      (options.all = true ∨ ∀ entry ∈ entries,
        ∃ info ∈ entry.2.partitionInfos, isOutdated config info = true) ∧
      (options.maxPartitions = 0 → ∀ entry ∈ entries,
        candidates config options entry.2.partitionInfos = []) := by
  have houtdated : ∀ infos : List PartitionInfo, options.all = false →
      (outdated config options infos ≠ [] ↔ ∃ info ∈ infos, isOutdated config info = true) := by
    intro infos hall
    simp [outdated, hall]
  simp only [ne_eq, visit_eq_none_iff, not_or, not_and, not_not]
  cases hall : options.all with
  | true =>
    simp only [Bool.true_eq_false, false_implies, true_and, true_or]
    exact ⟨fun hnone hzero entry hentry => hnone entry hentry hzero,
      fun hnone entry hentry hzero => hnone hzero entry hentry⟩
  | false =>
    simp only [true_implies, Bool.false_eq_true, false_or]
    constructor
    · intro hvisits
      exact ⟨fun entry hentry => (houtdated _ hall).mp (hvisits entry hentry).1,
        fun hzero entry hentry => (hvisits entry hentry).2 hzero⟩
    · rintro ⟨hsome, hnone⟩ entry hentry
      exact ⟨(houtdated _ hall).mpr (hsome entry hentry), fun hzero => hnone hzero entry hentry⟩

theorem numCandidates_eq_zero_iff : numCandidates config options result = 0 ↔
      ∀ entry ∈ result.candidateInfos, candidates config options entry.2.partitionInfos = [] := by
  rw [numCandidates, List.sum_eq_zero_iff_forall_eq_nat, List.forall_mem_map]
  simp

/-- If one schema is erased, the number of its candidates is zero or the limit is. -/
theorem selectsUpTo_of_single (hsingle : result.candidateInfos.length ≤ 1) :
    SelectsUpTo config options result := by
  unfold SelectsUpTo numCandidates
  rw [select_eq]
  match result.candidateInfos, hsingle with
  | [], _ => simp [Selection.partitions]
  | [entry], _ =>
    cases hvisit : visit config options entry.2.partitionInfos with
    | some infos =>
      have hlen := length_visit hvisit
      simp only [forall_mem_singleton, hvisit, ne_eq, reduceCtorEq, not_false_eq_true, if_true,
        Selection.partitions, some.injEq, exists_eq_left', flatMap_singleton, chosen,
        getD_some, hlen, map_singleton, sum_singleton, and_true]
      exact Nat.min_le_left _ _
    | none =>
      have hzero : min options.maxPartitions
          (candidates config options entry.2.partitionInfos).length = 0 := by
        rcases visit_eq_none_iff.mp hvisit with ⟨-, hnone⟩ | ⟨hzero, -⟩
        · simp [candidates, hnone]
        · simp [hzero]
      simp [hvisit, erase, Selection.partitions, hzero]

/-- The limit is kept in total and used up if and only if it applies. -/
theorem selectsUpTo_iff (config : RebuilderConfig) (options : RunOptions)
    (result : CatalogLookupResult) :
    SelectsUpTo config options result ↔ LimitApplies config options result := by
  by_cases hsingle : result.candidateInfos.length ≤ 1
  · exact iff_of_true (selectsUpTo_of_single hsingle) (Or.inl hsingle)
  · rw [LimitApplies, or_iff_right hsingle, SelectsUpTo, select_eq]
    have hundefined : (erase result.candidateInfos.length).partitions = none := by
      rw [erase, if_neg (by omega), Selection.partitions]
    by_cases hvisits : ∀ entry ∈ result.candidateInfos,
        visit config options entry.2.partitionInfos ≠ none
    · obtain ⟨houtdated, hzero⟩ := forall_visit_iff.mp hvisits
      rw [and_iff_right houtdated, if_pos hvisits]
      have hlength := length_flatMap_chosen hvisits
      have hcandidates := numCandidates_eq_zero_iff.mpr.comp hzero
      simp only [Selection.partitions, some.injEq, exists_eq_left', hlength]
      by_cases hpos : 0 < options.maxPartitions
      · have hcount : (result.candidateInfos.countP fun entry =>
            0 < (candidates config options entry.2.partitionInfos).length) =
              (result.candidateInfos.map fun entry =>
                (candidates config options entry.2.partitionInfos).length).countP (0 < ·) := by
          rw [countP_map]
          rfl
        rw [and_iff_right hpos, hcount]
        refine Iff.trans ?_ (sum_min_eq_iff hpos _)
        rw [and_iff_right_of_imp]
        · rfl
        · intro hsum
          rw [hsum]
          exact Nat.min_le_left _ _
      · have hnone := hcandidates (by omega)
        have hsum := sum_min_le options.maxPartitions (result.candidateInfos.map fun entry =>
          (candidates config options entry.2.partitionInfos).length)
        rw [numCandidates] at hnone ⊢
        refine iff_of_true ⟨by omega, by omega⟩ (Or.inl (by omega))
    · rw [if_neg hvisits, hundefined]
      refine iff_of_false (by simp) fun ⟨houtdated, hlimit⟩ => hvisits ?_
      refine forall_visit_iff.mpr ⟨houtdated, fun hzero => ?_⟩
      exact numCandidates_eq_zero_iff.mp (by omega)

def twoSchemas : CatalogLookupResult where
  candidateInfos :=
    [(.basic .int64, ⟨.none, [⟨1, 5, 0, .basic .int64, 1⟩]⟩),
      (.basic .string, ⟨.none, [⟨2, 5, 0, .basic .string, 1⟩]⟩)]

def smallConfig : RebuilderConfig where
  maxPartitionSize := 10
  undersizedEvents := 8
  currentPartitionVersion := 2
  less left right := left.name < right.name
  positive := by decide
  undersized_le := by decide

def limitedTo (limit : Nat) : RunOptions where
  maxPartitions := limit
  parallel_pos := by decide
  all_of_undersized := by decide

/-- With a limit of one partition, two are selected. -/
theorem two_over_limit :
    (select smallConfig (limitedTo 1) twoSchemas).partitions.map List.length = some 2 ∧
      ¬SelectsUpTo smallConfig (limitedTo 1) twoSchemas := by
  have hselect : (select smallConfig (limitedTo 1) twoSchemas).partitions.map length =
      some 2 := by decide
  refine ⟨hselect, ?_⟩
  rintro ⟨partitions, hpartitions, hlimit, -⟩
  rw [hpartitions, map_some, some.injEq] at hselect
  rw [hselect] at hlimit
  exact absurd hlimit (by decide)

end Rebuilder

end Vast
