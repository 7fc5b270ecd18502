import Vast.Rebuild.Rebuilder

/-! # Progress of a rebuild

Every answer of the index takes partitions out of a run. What a worker puts back is a
single partition that is smaller than what it took, so a run needs no more requests
than there are candidate partitions and events. Workers take partitions out of what
remains, so no two requests share one.
-/

namespace Vast

open Foundation List Option PartitionInfo List.Perm Nat Run

namespace Rebuilder

variable {config : RebuilderConfig} {std : ImportTimeSort} {options : RunOptions}
  {state next : RebuilderState} {run : RebuildRun} {result : CatalogLookupResult}
  {index : Nat} {action : Action} {first second : List PartitionInfo}

/-! ## Requests -/

/-- A request for partitions of one schema of which the last one was needed. -/
structure Formed (config : RebuilderConfig) (request : ApplyRequest) : Prop where
  perm : request.partitions.Perm request.selection
  selection_ne_nil : request.selection ≠ []
  schema : ∃ schema, ∀ info ∈ request.selection, info.schema = schema
  events_lt : numEvents request.selection.dropLast < config.maxPartitionSize.toNat
  oversized : request.isOversized = true →
    config.maxPartitionSize.toNat < numEvents request.selection

theorem Collected.formed {remaining taken left : List PartitionInfo}
    (hcoll : Collected config remaining taken left) :
    Formed config (makeApply config std taken) where
  perm := std.oldestFirst.perm taken
  selection_ne_nil := hcoll.taken_ne_nil
  schema := hcoll.schema
  events_lt := hcoll.events_lt
  oversized := fun hoversized => of_decide_eq_true hoversized

def partitionsAt (state : RebuilderState) (run : RebuildRun) : List PartitionInfo :=
  run.remainingPartitions ++ state.applies.flatMap ApplyRequest.selection

/-- Candidates are distinct, and what the index makes of partitions is new. -/
def Legal (config : RebuilderConfig) (state : RebuilderState) (action : Action) : Prop :=
  Enabled config state action ∧
    match action with
    | .lookup result =>
      ((result.candidateInfos.flatMap fun entry => entry.2.partitionInfos).map
        PartitionInfo.uuid).Nodup
    | .reply _ (.result partitions) => ∀ run, state.run = some run → ∀ info ∈ partitions,
        info.uuid ∉ (partitionsAt state run).map PartitionInfo.uuid
    | _ => True

/-- A run in progress: its requests are formed, and no partition is in two places. -/
structure Progressing (config : RebuilderConfig) (options : RunOptions)
    (state : RebuilderState) : Prop where
  outstanding : Outstanding options state
  formed : ∀ request ∈ state.applies, Formed config request
  distinct : ∀ run, state.run = some run →
    ((partitionsAt state run).map PartitionInfo.uuid).Nodup

theorem nodup_uuid_of_perm_sublist {first second all : List PartitionInfo}
    (hperm : (first ++ second).Perm all) (hnodup : (all.map uuid).Nodup) :
    (second.map uuid).Nodup := by
  have happend := ((hperm.map uuid).nodup_iff).mpr hnodup
  rw [map_append] at happend
  exact (nodup_append.mp happend).2.1

/-- Without an answered request, the partitions are its own and those of the others. -/
theorem perm_partitionsAt (hindex : index < state.applies.length) :
    (state.applies[index].selection ++ (run.remainingPartitions ++
      (state.applies.eraseIdx index).flatMap ApplyRequest.selection)).Perm
        (partitionsAt state run) := by
  have hperm := (getElem_cons_eraseIdx_perm hindex).flatMap_right ApplyRequest.selection
  rw [flatMap_cons] at hperm
  refine Perm.trans ?_ (hperm.append_left run.remainingPartitions)
  rw [← append_assoc, ← append_assoc]
  exact perm_append_comm.append_right _

section

variable (hprog : Progressing config options state)

include hprog

theorem Progressing.formed_step (heffect : Effect config std options state action next) :
    ∀ request ∈ next.applies, Formed config request := by
  cases heffect with
  | sent _ _ hcoll =>
    exact forall_mem_append.mpr
      ⟨hprog.formed, forall_mem_singleton.mpr hcoll.formed⟩
  | replied =>
    exact fun request hreq =>
      hprog.formed request (mem_of_mem_eraseIdx hreq)
  | _ => exact hprog.formed

theorem Progressing.distinct_step
    (hlegal : Legal config state action) (heffect : Effect config std options state action next)
    (hrun : next.run = some run) : ((partitionsAt next run).map uuid).Nodup := by
  cases heffect with
  | idle | failed | nothing | finished => cases hrun
  | ended | counted => exact hprog.distinct run hrun
  | selected h hsel =>
    cases hrun
    obtain ⟨chosen, hperm, hsublist⟩ := subperm_select hsel
    simp only [partitionsAt, h.remaining_eq, applies_of_pending h.pending_eq, flatMap_nil,
      append_nil]
    exact ((hperm.map _).nodup_iff).mp (hlegal.2.sublist (hsublist.map _))
  | @skipped before taken left h _ hcoll =>
    cases hrun
    have hperm : (taken ++ (left ++ state.applies.flatMap ApplyRequest.selection)).Perm
        (partitionsAt state before) := by
      rw [← append_assoc]
      exact hcoll.perm.append_right _
    exact nodup_uuid_of_perm_sublist hperm (hprog.distinct _ h.run_eq)
  | @sent _ taken _ h _ hcoll =>
    cases hrun
    refine (nodup_iff (map _ ?_)).mpr (hprog.distinct _ h.run_eq)
    simp only [partitionsAt, flatMap_append, flatMap_singleton]
    -- What is taken moves from the remaining partitions to the end.
    rw [← append_assoc]
    refine perm_append_comm.trans ?_
    rw [← append_assoc]
    exact hcoll.perm.append_right _
  | @replied before index reply h hindex =>
    cases hrun
    have hothers := nodup_uuid_of_perm_sublist (perm_partitionsAt hindex)
      (hprog.distinct _ h.run_eq)
    rcases remaining_continueRun config std before state.applies[index] reply with
      hsame | ⟨result, info, rfl, hinfo, -, -, hperm⟩
    · simpa [partitionsAt, hsame] using hothers
    · refine (nodup_iff (map _ (hperm.append_right _))).mpr ?_
      rw [cons_append, map_cons, nodup_cons]
      refine ⟨fun hmem => hlegal.2 _ h.run_eq info hinfo ?_, hothers⟩
      refine map_subset _ ?_ hmem
      exact Subset.trans (subset_append_right _ _) (perm_partitionsAt hindex).subset
  | stopped hbefore =>
    cases hrun
    exact nodup_uuid_of_perm_sublist (Perm.refl _) (hprog.distinct _ hbefore)

theorem progressing_step (hlegal : Legal config state action) :
    Progressing config options (step config std state action) := by
  have heffect : Effect config std options state action (step config std state action) :=
    hprog.outstanding.effect hlegal.1
  exact ⟨hprog.outstanding.step heffect, hprog.formed_step heffect,
    fun _ hrun => hprog.distinct_step hlegal heffect hrun⟩

end

/-! ## Bounds -/

def weight (infos : List PartitionInfo) : Nat :=
  numEvents infos + infos.length

section

variable (state : RebuilderState)

/-- What remains to be taken, unless the run is finished. -/
def remaining : List PartitionInfo :=
  (state.run.map RebuildRun.remainingPartitions).getD []

/-- A bound for the requests to come: what remains, and what can be put back. -/
def load : Nat :=
  weight (remaining state) +
    (state.applies.map fun request => weight request.selection - 1).sum

def bound : Nat :=
  2 * (weight (remaining state) + (state.applies.map fun request =>
    weight request.selection).sum) + 2 * state.rebuilds + state.applies.length + state.answers

def sends (config : RebuilderConfig) (std : ImportTimeSort) (state : RebuilderState)
    (action : Action) : Nat :=
  (step config std state action).applies.length - state.applies.length

def isChained : Action → Bool
  | .rebuild => true
  | .reply _ _ => true
  | .answer => true
  | _ => false

theorem weight_append (first second : List PartitionInfo) :
    weight (first ++ second) = weight first + weight second := by
  simp only [weight, numEvents, map_append, List.sum_append, length_append]
  omega

theorem weight_perm (hperm : first.Perm second) : weight first = weight second := by
  rw [weight, weight, numEvents, numEvents, (hperm.map _).sum_nat, hperm.length_eq]

theorem weight_pos {infos : List PartitionInfo} (hne : infos ≠ []) : 0 < weight infos :=
  lt_of_lt_of_le (length_pos_iff.mpr hne) (le_add_left _ _)

theorem Collected.weight_eq {remaining taken left : List PartitionInfo}
    (hcoll : Collected config remaining taken left) :
    weight taken + weight left = weight remaining := by
  rw [← weight_append, weight_perm hcoll.perm]

/-- What is put back is lighter than what was taken. -/
theorem weight_continueRun (std : ImportTimeSort) {request : ApplyRequest}
    (hformed : Formed config request) (run : RebuildRun) (reply : ApplyReply) :
    weight (continueRun config std run request reply).remainingPartitions + 1 ≤
      weight run.remainingPartitions + weight request.selection := by
  have hpos := weight_pos hformed.selection_ne_nil
  rcases remaining_continueRun config std run request reply with
    hsame | ⟨result, info, -, -, hoversized, hevents, hperm⟩
  · rw [hsame]
    omega
  · have hsize := hformed.oversized hoversized
    have hsmall : info.events.toNat ≤ config.undersizedEvents.toNat := hevents
    have hthreshold : config.undersizedEvents.toNat ≤ config.maxPartitionSize.toNat :=
      config.undersized_le
    have hlen := length_pos_iff.mpr hformed.selection_ne_nil
    rw [weight_perm hperm]
    simp only [weight, numEvents_cons, length_cons]
    omega

theorem sum_eraseIdx {applies : List ApplyRequest} (hindex : index < applies.length)
    (f : ApplyRequest → Nat) :
    f applies[index] + ((applies.eraseIdx index).map f).sum = (applies.map f).sum := by
  have hperm := (getElem_cons_eraseIdx_perm hindex).map f
  rw [← hperm.sum_nat, map_cons, sum_cons]

/-- The cost of a message, and the bounds before and after it. -/
structure Pays (state next : RebuilderState) (chained : Nat) : Prop where
  load_le : (next.applies.length - state.applies.length) + load next ≤ load state
  bound_le : chained + bound next ≤ bound state

theorem pays_iff {chained : Nat} : Pays state next chained ↔
    (next.applies.length - state.applies.length) + load next ≤ load state ∧
      chained + bound next ≤ bound state :=
  ⟨fun h => ⟨h.1, h.2⟩, fun h => ⟨h.1, h.2⟩⟩

theorem pays_finish (run : RebuildRun) : Pays state (finish state run) 0 := by
  have hzero : weight [] = 0 := rfl
  rw [pays_iff]
  simp only [load, bound, finish, remaining, map_none, getD_none]
  omega

end

theorem pays_answered (hanswers : 0 < state.answers) : Pays state (answered state) 1 := by
  rw [pays_iff]
  simp only [load, bound, remaining, answered]
  omega

/-- Once there are candidates, every message of a chain is paid for. -/
theorem pays_step (hprog : Progressing config options state)
    (hlooking : state.looking = false) (heffect : Effect config std options state action next) :
    Pays state next (if isChained action then 1 else 0) := by
  have hzero : weight [] = 0 := rfl
  cases heffect with
  | failed h | nothing h | selected h => cases hlooking.symm.trans h.looking_eq
  | idle =>
    change Pays state _ 0
    rw [pays_iff]
    simp only [load, bound, remaining, map_none, getD_none]
    omega
  | ended h hrebuilds =>
    change Pays state _ 1
    rw [pays_iff]
    simp only [load, bound, remaining]
    omega
  | skipped h hrebuilds hcoll =>
    change Pays state _ 1
    have hweight := hcoll.weight_eq
    have hpos := weight_pos hcoll.taken_ne_nil
    rw [pays_iff]
    simp only [load, bound, remaining, h.run_eq, map_some, getD_some]
    omega
  | @sent _ taken _ h hrebuilds hcoll =>
    change Pays state _ 1
    have hweight := hcoll.weight_eq
    have hpos := weight_pos hcoll.taken_ne_nil
    have hsel : (makeApply config std taken).selection = taken := rfl
    rw [pays_iff]
    simp only [load, bound, remaining, h.run_eq, map_some, getD_some, map_append, List.sum_append,
        length_append, map_singleton, sum_singleton, hsel, length_singleton]
    omega
  | @replied before _ reply h hindex =>
    change Pays state _ 1
    have hformed := hprog.formed _ (getElem_mem hindex)
    have hweight := weight_continueRun std hformed before reply
    have hlen := length_eraseIdx_of_lt hindex
    have hsum := sum_eraseIdx hindex fun request => weight request.selection
    have hsum' := sum_eraseIdx hindex fun request => weight request.selection - 1
    rw [pays_iff]
    simp only [load, bound, remaining, h.run_eq, map_some, getD_some]
    omega
  | counted _ hanswers => exact pays_answered hanswers
  | @finished last _ hanswers =>
    have hcount := pays_answered hanswers
    have hfinished := pays_finish (answered state) last
    exact ⟨le_trans hfinished.load_le (le_trans (le_add_left _ _) hcount.load_le),
      Nat.le_trans (Nat.add_le_add_left (Nat.le_trans (Nat.le_add_left _ _) hfinished.bound_le) 1)
        hcount.bound_le⟩
  | stopped hrun =>
    change Pays state _ 0
    rw [pays_iff]
    simp only [load, bound, stop, remaining, map_some, getD_some]
    omega

theorem looking_step (hlooking : state.looking = false)
    (heffect : Effect config std options state action next) : next.looking = false := by
  cases heffect with
  | failed | nothing | selected => rfl
  | _ => exact hlooking

/-! ## Runs -/

theorem total_le {actions : List Action} (hprog : Progressing config options state)
    (hlooking : state.looking = false)
    (hrun : Run.Admissible (step config std) (Legal config) state actions) :
    total (step config std) (sends config std) state actions ≤ load state ∧
      actions.countP isChained ≤ bound state := by
  have hinit : Progressing config options state ∧ state.looking = false := ⟨hprog, hlooking⟩
  have hstep : ∀ state action, Progressing config options state ∧ state.looking = false →
      Legal config state action → Progressing config options (step config std state action) ∧
        (step config std state action).looking = false :=
    fun _ action hinv hlegal => ⟨progressing_step hinv.1 hlegal,
      looking_step hinv.2 (hinv.1.outstanding.effect hlegal.1)⟩
  have hpays : ∀ state action, Progressing config options state ∧ state.looking = false →
      Legal config state action →
      Pays state (step config std state action) (if isChained action then 1 else 0) :=
    fun _ _ hinv hlegal => pays_step hinv.1 hinv.2 (hinv.1.outstanding.effect hlegal.1)
  have hsends := total_add_potential_le load hstep
    (fun _ _ hinv hlegal => (hpays _ _ hinv hlegal).load_le) hinit hrun
  have hchained := total_add_potential_le bound hstep
    (fun _ _ hinv hlegal => (hpays _ _ hinv hlegal).bound_le) hinit hrun
  rw [total_ite_eq_countP] at hchained
  exact ⟨le_trans (le_add_right _ _) hsends, le_trans (le_add_right _ _) hchained⟩

def allCandidates (result : CatalogLookupResult) : List PartitionInfo :=
  result.candidateInfos.flatMap fun entry => entry.2.partitionInfos

theorem weight_subperm (hsubperm : first.Subperm second) : weight first ≤ weight second := by
  obtain ⟨part, hperm, hsublist⟩ := hsubperm
  obtain ⟨others, hothers⟩ := hsublist.exists_perm_append
  rw [weight_perm hothers, weight_append, weight_perm hperm]
  exact le_add_right _ _

theorem bounds_after_lookup (heffect : Effect config std options state (.lookup result) next) :
    next.looking = false ∧ load next ≤ weight (allCandidates result) ∧
      bound next ≤ 2 * weight (allCandidates result) + 2 * options.parallel := by
  have hzero : weight [] = 0 := rfl
  cases heffect with
  | nothing h =>
    have hpend := h.pending_eq
    have happ := applies_of_pending hpend
    unfold pending at hpend
    refine ⟨rfl, ?_, ?_⟩
    · simp [load, finish, remaining, hzero, happ]
    · simp only [bound, finish, remaining, map_none, getD_none, happ, map_nil, sum_nil, length_nil]
      omega
  | selected h hsel =>
    have hweight : _ ≤ weight (allCandidates result) := weight_subperm (subperm_select hsel)
    have hpend := h.pending_eq
    have happ := applies_of_pending hpend
    unfold pending at hpend
    refine ⟨rfl, ?_, ?_⟩
    · simpa [load, remaining, h.remaining_eq, happ] using hweight
    · simp only [bound, remaining, map_some, getD_some, h.remaining_eq,
        nil_append, happ, map_nil, sum_nil, length_nil, h.options_eq]
      omega

def SharesNone (first second : ApplyRequest) : Prop :=
  ∀ info ∈ first.partitions, ∀ other ∈ second.partitions, info.uuid ≠ other.uuid

theorem Progressing.pairwise_sharesNone (hprog : Progressing config options state) :
    state.applies.Pairwise SharesNone := by
  cases hprog.outstanding with
  | finished _ hpend =>
    rw [applies_of_pending hpend]
    exact Pairwise.nil
  | looking hlooking =>
    rw [applies_of_pending hlooking.pending_eq]
    exact Pairwise.nil
  | working hworking =>
    have hdist := hprog.distinct _ hworking.run_eq
    rw [partitionsAt, map_append] at hdist
    have hnodup := (nodup_append.mp hdist).2.1
    rw [map_flatMap, nodup_flatMap] at hnodup
    refine hnodup.2.imp_of_mem ?_
    intro first second hfirst hsecond hdisjoint info hinfo other hother heq
    refine hdisjoint (mem_map_of_mem ((hprog.formed first hfirst).perm.subset hinfo)) ?_
    rw [heq]
    exact mem_map_of_mem ((hprog.formed second hsecond).perm.subset hother)

/-- As long as a run is not finished, there is a message of a chain. -/
theorem Progressing.exists_enabled (hprog : Progressing config options state)
    (hlooking : state.looking = false) (hrun : state.run ≠ none) :
    ∃ action, isChained action = true ∧ Enabled config state action := by
  cases hprog.outstanding with
  | finished hnone => exact absurd hnone hrun
  | looking h => cases hlooking.symm.trans h.looking_eq
  | working h =>
    have hbusy := h.busy
    unfold pending at hbusy
    by_cases hrebuilds : 0 < state.rebuilds
    · exact ⟨.rebuild, rfl, hrebuilds⟩
    · by_cases happ : 0 < state.applies.length
      · exact ⟨.reply 0 .error, rfl, happ⟩
      · exact ⟨.answer, rfl, show 0 < state.answers by omega⟩

/-- Rebuilding ends after a bounded number of requests and messages, with all chains ended.
Outstanding requests are for different partitions, each for one schema, and without its
last partition none would have had enough events. -/
theorem rebuild_terminates (config : RebuilderConfig) (std : ImportTimeSort)
    (options : RunOptions) (actions : List Action)
    (hrun : Run.Admissible (step config std) (Legal config) (initial options) actions) :
    (∀ before result after, actions = before ++ .lookup result :: after →
      total (step config std) (sends config std)
          ((before ++ [.lookup result]).foldl (step config std) (initial options)) after ≤
        numEvents (allCandidates result) + (allCandidates result).length ∧ after.countP isChained ≤
        2 * (numEvents (allCandidates result) + (allCandidates result).length) +
          2 * options.parallel) ∧
    ∀ state, state = actions.foldl (step config std) (initial options) →
      (state.looking = false → state.run ≠ none →
        ∃ action, isChained action = true ∧ Enabled config state action) ∧
      state.applies.Pairwise SharesNone ∧ ∀ request ∈ state.applies,
        (∃ schema, ∀ info ∈ request.partitions, info.schema = schema) ∧
        request.partitions.Perm request.selection ∧
        numEvents request.selection.dropLast < config.maxPartitionSize.toNat := by
  have hprogressing : ∀ {actions}, Run.Admissible (step config std) (Legal config)
      (initial options) actions →
        Progressing config options (actions.foldl (step config std) (initial options)) :=
    invariant _ (fun _ _ hprogressing hlegal => progressing_step hprogressing hlegal)
      ⟨outstanding_initial options, by simp [initial], fun _ hrun => by
        cases hrun
        simp [partitionsAt, initial]⟩
  constructor
  · rintro before result after rfl
    obtain ⟨hbefore, hlookup, hafter⟩ := admissible_append.mp hrun
    have hstart := hprogressing hbefore
    obtain ⟨hlooking, hload, hbound⟩ := bounds_after_lookup (hstart.outstanding.effect hlookup.1)
    obtain ⟨hsends, hchained⟩ := total_le (progressing_step hstart hlookup) hlooking hafter
    rw [foldl_append]
    exact ⟨le_trans hsends hload, le_trans hchained hbound⟩
  · rintro state rfl
    have hend := hprogressing hrun
    refine ⟨hend.exists_enabled, hend.pairwise_sharesNone, fun request hrequest => ?_⟩
    have hformed := hend.formed request hrequest
    obtain ⟨schema, hschema⟩ := hformed.schema
    exact ⟨⟨schema, fun info hinfo => hschema info (hformed.perm.subset hinfo)⟩, hformed.perm,
      hformed.events_lt⟩

/-- Two partitions with 14 events take at most 16 requests. -/
theorem oversized_terminates :
    start {} { maxPartitions := 9 } = (.started, initial (limitedTo 9)) ∧
    total (step smallConfig .insertion) (sends smallConfig .insertion)
      ([.lookup oversized].foldl (step smallConfig .insertion) (initial (limitedTo 9)))
      [.rebuild, .reply 0 rebuilt, .rebuild] ≤ 16 := by
  have hrun : Run.Admissible (step smallConfig .insertion) (Legal smallConfig)
      (initial (limitedTo 9)) [.lookup oversized, .rebuild, .reply 0 rebuilt, .rebuild] := by
    refine ⟨⟨⟨rfl, fun run hrun => ?_⟩, by decide⟩, ⟨zero_lt_one, trivial⟩,
      ⟨zero_lt_one, fun run hrun => ?_⟩, ⟨zero_lt_one, trivial⟩, trivial⟩
    · cases hrun
      decide
    · cases hrun
      decide
  exact ⟨(start_eq_iff (limitedTo 9)).mpr rfl,
    ((rebuild_terminates smallConfig .insertion (limitedTo 9) _ hrun).1 [] oversized _ rfl).1⟩

end Rebuilder

end Vast
