import Vast.Index.Watched

/-! # The scheduler refines the query queue

The queue of the index is at all times one that a run of queue operations leaves behind,
and the replies that the index waits for are the pairs in flight of that run.
-/

namespace Vast.IndexState

open Foundation QueueRun List

variable {schemaOf : Uuid → VastType} {limit : UInt64} {state : IndexState}
  {queue after : QueryQueue}

/-- Operations that follow the protocol of the queue lead to it. -/
def Operated (queue : QueryQueue) : Prop :=
  ∃ operations, Run.Admissible perform QueueRun.Legal {} operations ∧
    (operations.foldl perform {}).queue = queue

theorem Operated.perform (hoperated : Operated queue)
    (hstep : ∀ pairs, Valid ⟨queue, pairs⟩ → ∃ operation,
      QueueRun.Legal ⟨queue, pairs⟩ operation ∧
        (QueueRun.perform ⟨queue, pairs⟩ operation).queue = after) : Operated after := by
  obtain ⟨operations, hrun, rfl⟩ := hoperated
  obtain ⟨operation, hlegal, rfl⟩ := hstep _ (Run.invariant Valid perform_valid valid_empty hrun)
  refine ⟨operations ++ [operation], Run.admissible_append.mpr ⟨hrun, hlegal, trivial⟩, ?_⟩
  rw [foldl_concat]

/-- The counters of a known query say how many of its partitions are in flight. -/
theorem pending_eq {run : QueueRun} {inflight : Uuid → Nat} {qid : Uuid} (hvalid : run.Valid)
    (hacc : QueryQueue.Accounted run.queue.queries run.queue.entries inflight)
    (hknown : (run.queue.queries qid).isSome) : run.pending qid = inflight qid := by
  obtain ⟨record, hrecord⟩ := Option.isSome_iff_exists.mp hknown
  have hleft := hvalid.accounted.scheduled_eq qid record hrecord
  have hright := hacc.scheduled_eq qid record hrecord
  omega

theorem kept_operated : Kept fun state => Operated state.pendingQueries where
  next := fun _ hoperated => hoperated.perform fun pairs hvalid => ⟨.next, trivial, rfl⟩
  complete := by
    intro state inflight done lookups running hcompletes hoperated
    refine hoperated.perform fun pairs hvalid => ?_
    by_cases hknown : (state.pendingQueries.queries done).isSome
    · have hpos := hcompletes.pos hknown
      rw [← pending_eq hvalid hcompletes.accounted hknown] at hpos
      obtain ⟨⟨qid, pid⟩, hpair, hqid⟩ := countP_pos_iff.mp hpos
      obtain rfl := of_decide_eq_true hqid
      exact ⟨.handleCompletion qid pid, Or.inl hpair, rfl⟩
    · exact ⟨.handleCompletion done done, Or.inr (Option.not_isSome_iff_eq_none.mp hknown), rfl⟩
  ask := fun _ _ hoperated => hoperated

theorem handle_operated (event : Event) (hsound : state.Sound schemaOf limit)
    (hlegal : state.Legal schemaOf event) (hoperated : Operated state.pendingQueries) :
    Operated (state.handle event).pendingQueries := by
  cases event with
  | evaluate std contexts client candidatePartitions requestedPartitions candidates acquire =>
    obtain ⟨hdist, hfresh, hschema⟩ := hlegal
    refine kept_operated.scheduleLookups
      (insert_sound hsound std rfl rfl hdist hfresh hschema) ?_
    exact hoperated.perform fun pairs hvalid => ⟨.insert std contexts client candidatePartitions
      requestedPartitions candidates, hdist, rfl⟩
  | query std qid numPartitions acquire =>
    refine kept_operated.scheduleLookups (activate_sound hsound std qid numPartitions) ?_
    exact hoperated.perform fun pairs hvalid => ⟨.activate std qid numPartitions, trivial, rfl⟩
  | down ids =>
    rw [handle]
    generalize state.pendingQueries = queue at hoperated
    induction ids generalizing queue with
    | nil => exact hoperated
    | cons qid ids ih =>
      exact ih trivial _ (hoperated.perform fun pairs hvalid => ⟨.removeQuery qid, trivial, rfl⟩)
  | erase pid =>
    exact hoperated.perform fun pairs hvalid => ⟨.markPartitionErased pid, trivial, rfl⟩
  | reply index qid acquire => exact kept_operated.handleReply hsound hlegal hoperated

/-- Every run of the index is a run of its queue: operations that follow the protocol of the
queue lead to the same queue, and leave as many partitions of a pending query in flight as
the index waits for replies. -/
theorem scheduler_refines_queue (schemaOf : Uuid → VastType) (limit : UInt64)
    (events : List Event) (hrun : Run.Admissible handle (Legal schemaOf)
      { maxConcurrentPartitionLookups := limit } events) :
    let state := events.foldl handle { maxConcurrentPartitionLookups := limit }
    ∃ operations, Run.Admissible perform QueueRun.Legal {} operations ∧
      let run := operations.foldl perform {}
      run.queue = state.pendingQueries ∧ ∀ qid, (run.queue.queries qid).isSome →
        run.pending qid = outstanding state.lookups qid := by
  intro state
  obtain ⟨⟨hsound, -⟩, operations, hoperations, heq⟩ :
      (state.Sound schemaOf limit ∧ state.Quiet) ∧ Operated state.pendingQueries := by
    refine Run.invariant (fun state => (state.Sound schemaOf limit ∧ state.Quiet) ∧
      Operated state.pendingQueries) (fun state event hinv hlegal => ?_)
      ⟨⟨sound_initial schemaOf limit, fun _ => rfl⟩, [], trivial, rfl⟩ hrun
    exact ⟨handle_sound state event hinv.1 hlegal, handle_operated event hinv.1.1 hlegal hinv.2⟩
  have hvalid := Run.invariant Valid perform_valid valid_empty hoperations
  exact ⟨operations, hoperations, heq, fun qid => pending_eq hvalid (heq ▸ hsound.accounted)⟩

/-- The queue of the sample run is reached by operations of the queue alone. -/
theorem scheduler_refines_queue_sample : ∃ operations,
    Run.Admissible perform QueueRun.Legal {} operations ∧ (operations.foldl perform {}).queue =
      (sampleEvents.foldl handle { maxConcurrentPartitionLookups := 1 }).pendingQueries := by
  obtain ⟨operations, hoperations, heq, -⟩ :=
    scheduler_refines_queue (fun _ => .none) 1 sampleEvents (by decide)
  exact ⟨operations, hoperations, heq⟩

end Vast.IndexState
