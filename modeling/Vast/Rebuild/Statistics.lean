import Vast.Rebuild.Rebuilder

/-! # The statistics of a rebuild

The rebuilder counts the partitions that are left, in rebuilding, and completed. The
counts are right as long as no request is answered: the continuations of a request
count the partitions of a vector that has been moved away.
-/

namespace Vast

open Foundation List Int

namespace Rebuilder

variable {config : RebuilderConfig} {std : ImportTimeSort} {options : RunOptions}
  {state next : RebuilderState} {run : RebuildRun} {index : Nat} {result : CatalogLookupResult}
  {action : Action}

def numRequested (applies : List ApplyRequest) : Nat :=
  (applies.map fun request => request.partitions.length).sum

/-- The numbers of an ongoing run with outstanding requests. -/
structure Balanced (applies : List ApplyRequest) (run : RebuildRun) : Prop where
  total : run.statistics.numTotal = run.remainingPartitions.length +
    run.statistics.numRebuilding + run.statistics.numCompleted
  rebuilding : run.statistics.numRebuilding = numRequested applies
  total_nonneg : 0 ≤ run.statistics.numTotal
  completed_nonneg : 0 ≤ run.statistics.numCompleted
  results_nonneg : 0 ≤ run.statistics.numResults

/-- The numbers add up and have not wrapped around, and when the run is finished nothing is
in rebuilding. -/
structure AddsUp (state : RebuilderState) : Prop where
  ongoing : ∀ run, state.run = some run → Balanced state.applies run
  finished : ∀ statistics, state.finished = some statistics → statistics.numRebuilding = 0

/-- What keeps the numbers right: candidates of the last schema only, and no answer to a
request. -/
def Countable (config : RebuilderConfig) (options : RunOptions) : Action → Prop
  | .lookup result => ∀ entry ∈ result.candidateInfos.dropLast,
      candidates config options entry.2.partitionInfos = []
  | .reply _ _ => False
  | _ => True

/-- Continuations count no partition, and nothing is counted before there are candidates. -/
structure Counted (options : RunOptions) (state : RebuilderState) : Prop where
  outstanding : Outstanding options state
  requests : ∀ request ∈ state.applies, request.numPartitions = 0 ∧ request.partitions ≠ []
  untouched : ∀ run, state.run = some run → state.looking = true →
    run.statistics.numCompleted = 0

theorem makeApply_counted {selection : List PartitionInfo} (hne : selection ≠ []) :
    (makeApply config std selection).numPartitions = 0 ∧
      (makeApply config std selection).partitions ≠ [] := by
  refine ⟨rfl, fun hnil => hne ?_⟩
  have hlen := std.oldestFirst.length_sort selection
  have hparts : std.oldestFirst.sort selection = [] := hnil
  rw [hparts] at hlen
  exact length_eq_zero_iff.mp hlen.symm

theorem Counted.step (hcount : Counted options state)
    (heffect : Effect config std options state action next) : Counted options next := by
  refine ⟨hcount.outstanding.step heffect, ?_, fun run hrun hlooking => ?_⟩
  · cases heffect with
    | sent _ _ hcoll =>
      exact forall_mem_append.mpr ⟨hcount.requests,
        forall_mem_singleton.mpr (makeApply_counted hcoll.taken_ne_nil)⟩
    | replied =>
      exact fun request hreq => hcount.requests request (mem_of_mem_eraseIdx hreq)
    | _ => exact hcount.requests
  · cases heffect with
    | idle | failed | nothing | finished => cases hrun
    | selected => cases hlooking
    | ended | counted => exact hcount.untouched run hrun hlooking
    | skipped h | sent h | replied _ h => cases h.looking_eq.symm.trans hlooking
    | @stopped before _ hbefore =>
      cases hrun
      exact hcount.untouched before hbefore hlooking

/-! ## Which messages keep the numbers right -/

theorem AddsUp.of_ongoing (hrun : state.run = some run) (hbal : Balanced state.applies run)
    (hfinished : ∀ statistics, state.finished = some statistics → statistics.numRebuilding = 0) :
    AddsUp state where
  ongoing := by
    intro other hother
    rw [hrun] at hother
    cases hother
    exact hbal
  finished := hfinished

section

variable (hbal : Balanced state.applies run)

include hbal

/-- Nothing is in rebuilding when the run is finished without outstanding requests. -/
theorem addsUp_finish (happ : state.applies = []) : AddsUp (finish state run) where
  ongoing := fun _ hnone => by cases hnone
  finished := by
    intro statistics hstatistics
    cases hstatistics
    rw [hbal.rebuilding, numRequested, happ]
    rfl

theorem Balanced.skip {taken left : List PartitionInfo}
    (hcoll : Collected config run.remainingPartitions taken left)
    (hsingle : taken.length = 1) : Balanced state.applies
      { run with
        remainingPartitions := left
        statistics :=
          { run.statistics with
            numRebuilding := run.statistics.numRebuilding + taken.length - 1
            numTotal := run.statistics.numTotal - 1 } } := by
  have htotal := hbal.total
  have hrebuilding := hbal.rebuilding
  have hcompl := hbal.completed_nonneg
  have hlen := hcoll.length_eq
  refine ⟨?_, ?_, ?_, hcompl, hbal.results_nonneg⟩
  all_goals
    dsimp only
    omega

theorem Balanced.send {taken left : List PartitionInfo}
    (hcoll : Collected config run.remainingPartitions taken left) :
    Balanced (state.applies ++ [makeApply config std taken])
      { run with
        remainingPartitions := left
        statistics :=
          { run.statistics with
            numRebuilding := run.statistics.numRebuilding + taken.length } } := by
  have htotal := hbal.total
  have hrebuilding := hbal.rebuilding
  have hlen := hcoll.length_eq
  have hsent : (makeApply config std taken).partitions.length = taken.length :=
    std.oldestFirst.length_sort taken
  have hreq : numRequested (state.applies ++ [makeApply config std taken]) =
      numRequested state.applies + taken.length := by
    simp [numRequested, hsent]
  refine ⟨?_, ?_, hbal.total_nonneg, hbal.completed_nonneg, hbal.results_nonneg⟩
  all_goals
    dsimp only
    omega

/-- The remaining partitions are dropped. -/
theorem Balanced.stop (stopRequests : Nat) :
    Balanced state.applies
      { run with
        statistics :=
          { run.statistics with
            numTotal := run.statistics.numTotal - run.remainingPartitions.length }
        remainingPartitions := []
        stopRequests } := by
  have htotal := hbal.total
  have hrebuilding := hbal.rebuilding
  have hcompl := hbal.completed_nonneg
  refine ⟨?_, hrebuilding, ?_, hcompl, hbal.results_nonneg⟩
  · simp only [length_nil]
    omega
  · dsimp only
    omega

end

theorem numRequested_eraseIdx {applies : List ApplyRequest} (hindex : index < applies.length) :
    numRequested (applies.eraseIdx index) + applies[index].partitions.length =
      numRequested applies := by
  have hperm := (getElem_cons_eraseIdx_perm hindex).map fun request : ApplyRequest =>
    request.partitions.length
  rw [numRequested, numRequested, ← hperm.sum_nat, map_cons, sum_cons, Nat.add_comm]

/-- An answer to a request leaves its partitions in rebuilding. -/
theorem Balanced.not_reply (hbal : Balanced state.applies run)
    (hindex : index < state.applies.length) (hcount : state.applies[index].numPartitions = 0)
    (hne : state.applies[index].partitions ≠ []) (reply : ApplyReply) :
    ¬Balanced (state.applies.eraseIdx index)
      (continueRun config std run state.applies[index] reply) := by
  intro hnext
  have hafter := hnext.rebuilding
  have hbefore := hbal.rebuilding
  have hlen : 0 < state.applies[index].partitions.length := length_pos_iff.mpr hne
  have hsum := numRequested_eraseIdx hindex
  rw [(continueRun_fields ..).2] at hafter
  omega

/-- The numbers after the lookup are right if the candidates have one schema. -/
theorem addsUp_selected_iff {partitions : List PartitionInfo} {numTotal : Nat}
    (hcount : Counted options state) (haddsUp : AddsUp state) (hlooking : Looking options state run)
    (hsel : select config run.options result = .selected partitions numTotal) :
    AddsUp (onLookup config state run result) ↔ Countable config options (.lookup result) := by
  simp only [onLookup, hsel]
  have hbal := haddsUp.ongoing run hlooking.run_eq
  have hcompl := hcount.untouched run hlooking.run_eq hlooking.looking_eq
  have hrebuilding : run.statistics.numRebuilding = 0 := by
    rw [hbal.rebuilding, numRequested, applies_of_pending hlooking.pending_eq]
    rfl
  rw [hlooking.options_eq] at hsel
  rw [Countable, ← numTotal_eq_iff hsel]
  constructor
  · intro hnext
    have htotal := (hnext.ongoing _ rfl).total
    simp only [hlooking.remaining_eq, nil_append, hrebuilding, hcompl] at htotal
    omega
  · rintro rfl
    refine .of_ongoing rfl ⟨?_, ?_, ?_, hbal.completed_nonneg, hbal.results_nonneg⟩
      haddsUp.finished
    · simp [hlooking.remaining_eq, hrebuilding, hcompl]
    · exact hbal.rebuilding
    · exact natCast_nonneg _

/-- A message keeps the numbers right if and only if it is countable. -/
theorem addsUp_step_iff (hcounted : Counted options state) (haddsUp : AddsUp state)
    (heffect : Effect config std options state action next) :
    AddsUp next ↔ Countable config options action := by
  cases heffect with
  | idle => exact iff_of_true ⟨fun _ hnone => (by cases hnone), haddsUp.finished⟩ trivial
  | failed h =>
    exact iff_of_true (addsUp_finish (haddsUp.ongoing _ h.run_eq)
      (applies_of_pending h.pending_eq)) trivial
  | @nothing _ result h hsel =>
    have hlen := length_of_select_nothing hsel
    have hdropLast : result.candidateInfos.dropLast = [] := by
      rw [← length_eq_zero_iff, length_dropLast]
      omega
    refine iff_of_true (addsUp_finish (haddsUp.ongoing _ h.run_eq)
      (applies_of_pending h.pending_eq)) ?_
    rw [Countable, hdropLast]
    simp
  | selected h hsel =>
    have hiff := addsUp_selected_iff hcounted haddsUp h hsel
    rwa [onLookup, hsel] at hiff
  | ended | counted => exact iff_of_true ⟨haddsUp.ongoing, haddsUp.finished⟩ trivial
  | skipped h _ hcoll hsingle =>
    exact iff_of_true (.of_ongoing rfl ((haddsUp.ongoing _ h.run_eq).skip hcoll hsingle)
      haddsUp.finished) trivial
  | sent h _ hcoll =>
    exact iff_of_true (.of_ongoing rfl ((haddsUp.ongoing _ h.run_eq).send hcoll)
      haddsUp.finished) trivial
  | replied reply h hindex =>
    obtain ⟨hcount, hne⟩ := hcounted.requests _ (getElem_mem hindex)
    refine iff_of_false (fun hnext => ?_) id
    exact (haddsUp.ongoing _ h.run_eq).not_reply hindex hcount hne reply (hnext.ongoing _ rfl)
  | finished h _ hlast =>
    exact iff_of_true (addsUp_finish (haddsUp.ongoing _ h.run_eq) (applies_of_pending hlast))
      trivial
  | stopped hrun =>
    exact iff_of_true (.of_ongoing rfl ((haddsUp.ongoing _ hrun).stop _) haddsUp.finished) trivial

/-- The numbers are right in all states of a run if and only if all candidates are of the
last schema and no request is answered. -/
theorem statistics_add_up_iff (config : RebuilderConfig) (std : ImportTimeSort)
    (options : RunOptions) (actions : List Action)
    (hrun : Run.Admissible (step config std) (Enabled config) (initial options) actions) :
    (∀ done rest, actions = done ++ rest →
        AddsUp (done.foldl (step config std) (initial options))) ↔
      ∀ action ∈ actions, Countable config options action := by
  rw [← Run.admissible_iff_forall_mem]
  exact Run.forall_prefix_iff AddsUp
    (fun _ _ hcounted henabled => hcounted.step (hcounted.outstanding.effect henabled))
    (fun _ _ hcounted henabled haddsUp =>
      addsUp_step_iff hcounted haddsUp (hcounted.outstanding.effect henabled))
    ⟨outstanding_initial options, by simp [initial], fun _ hrun _ => by cases hrun; rfl⟩
    (.of_ongoing rfl ⟨rfl, rfl, le_refl _, le_refl _, le_refl _⟩
      fun _ hnone => by cases hnone) hrun

/-- The numbers of a state: total, remaining, rebuilding, requested, and completed. -/
def numbers (state : RebuilderState) : Option (Int × Nat × Int × Nat × Int) :=
  state.run.map fun run => (run.statistics.numTotal, run.remainingPartitions.length,
    run.statistics.numRebuilding, numRequested state.applies, run.statistics.numCompleted)

/-- The result is there, two partitions are still in rebuilding, and the number of completed
partitions has wrapped around. With two schemas, the total is wrong from the start. -/
theorem statistics_wrong : numbers ([.lookup oversized, .rebuild, .reply 0 rebuilt].foldl
        (step smallConfig .insertion) (initial (limitedTo 9))) = some (3, 1, 2, 0, -1) ∧
      numbers ([.lookup twoSchemas].foldl
        (step smallConfig .insertion) (initial (limitedTo 9))) = some (1, 2, 0, 0, 0) ∧
      ¬∀ done rest, [.lookup oversized, .rebuild, .reply 0 rebuilt] = done ++ rest →
        AddsUp (done.foldl (step smallConfig .insertion) (initial (limitedTo 9))) := by
  refine ⟨by decide, by decide, fun hall => ?_⟩
  have hlast := hall _ [] (append_nil _).symm
  obtain ⟨run, hrun⟩ : ∃ run, ([.lookup oversized, .rebuild, .reply 0 rebuilt].foldl
      (step smallConfig .insertion) (initial (limitedTo 9))).run = some run := ⟨_, rfl⟩
  have hcompleted := (hlast.ongoing run hrun).completed_nonneg
  cases hrun
  exact absurd hcompleted (by decide)

/-- Until the first request is answered, the numbers are right. -/
theorem statistics_right : AddsUp ([.lookup oversized, .rebuild, .stop true].foldl
      (step smallConfig .insertion) (initial (limitedTo 9))) := by
  have hrun : Run.Admissible (step smallConfig .insertion) (Enabled smallConfig)
      (initial (limitedTo 9)) [.lookup oversized, .rebuild, .stop true] := by
    refine ⟨⟨rfl, fun run hrun => ?_⟩, zero_lt_one, trivial, trivial⟩
    cases hrun
    decide
  refine (statistics_add_up_iff smallConfig .insertion (limitedTo 9) _ hrun).mpr ?_ _ []
    (append_nil _).symm
  simp [Countable, oversized]

end Rebuilder

end Vast
