import Vast.Transform.TransformerRun

/-! # The reply of the partition transformer

When nothing is outstanding any more, the promise is fulfilled exactly if the
pipeline has succeeded. A reply with partitions lists all of them, and all of
them are written, but their stores may have failed.
-/

namespace Vast

open Foundation List PartitionTransformer Message PartitionSynopsis

namespace PartitionTransformer

variable {π : Type} {state : PartitionTransformer π}

section Handlers

variable [BloomFilters] {options : TransformerOptions π} {message : Message}
  {messages : List Message}

/-! ## The input and the stores along a run -/

/-- What only the input and the stores change. -/
structure Core (π : Type) where
  transform : π
  transformError : Option Error
  doneReceived : Bool
  data : List (VastType × TransformedPartition)
  launched : List Uuid
  stores : List Uuid
  downs : List (Uuid × Option Error)

section

variable (state : PartitionTransformer π)

def core : Core π :=
  ⟨state.transform, state.transformError, state.doneReceived, state.data, state.launched,
    state.stores, state.downs⟩

theorem core_fulfill (streamData : StreamData) :
    (state.fulfill options streamData).core = state.core := by
  unfold fulfill
  repeat' split
  all_goals rfl

theorem core_storeOrFulfill (streamData : StreamData) :
    (state.storeOrFulfill options streamData).core = state.core := by
  unfold storeOrFulfill
  split
  · rfl
  · exact core_fulfill state streamData
  · rfl

section

omit [BloomFilters]

theorem core_finishStores : state.finishStores.core = state.core := by
  unfold finishStores
  split <;> rfl

theorem core_settleCounter : state.settleCounter.core = state.core := by
  unfold settleCounter
  split
  · rfl
  · unfold finishTransformer
    split <;> rfl
  · rfl

end

theorem core_resume :
    ∃ data, (step options state .resume).core = { state.core with data := data } := by
  simp only [step]
  split
  · exact ⟨_, core_storeOrFulfill _ _⟩
  · exact ⟨state.data, rfl⟩

theorem core_persist : (step options state .persist).core = state.core := by
  simp only [step]
  split
  · unfold handlePersist
    split
    · rfl
    · exact core_fulfill _ _
    · rfl
  · rfl

theorem core_wrotePartition (pos : Nat) (error : Option Error) :
    (step options state (.wrotePartition pos error)).core = state.core := by
  simp only [step]
  split
  · rfl
  · split
    · exact core_settleCounter _
    · rfl

end

theorem core_down (options : TransformerOptions π) {pos : Nat} {store : Uuid}
    (hstore : state.stores[pos]? = some store) (reason : Option Error) :
    (step options state (.down pos reason)).core = core { state with
      stores := state.stores.eraseIdx pos
      downs := state.downs ++ [(store, reason)] } := by
  simp only [step, hstore]
  split
  · unfold handleDown
    simp only
    split
    · exact core_finishStores _
    · rfl
  · rfl

omit [BloomFilters] in
theorem core_foldl_addTransformed (options : TransformerOptions π)
    (state : PartitionTransformer π) (slices : List TableSlice) :
    ∃ data, (slices.foldl (addTransformed options) state).core =
      { state.core with data := data } := by
  induction slices generalizing state with
  | nil => exact ⟨state.data, rfl⟩
  | cons slice rest ih =>
    obtain ⟨data, heq⟩ := addTransformed_eq options state slice
    rw [foldl_cons, heq]
    exact ih _

theorem core_launchStores (state : PartitionTransformer π)
    (data : List (VastType × TransformedPartition)) :
    ∃ ids, (state.launchStores options data).core =
      { state.core with stores := state.stores ++ ids, launched := state.launched ++ ids } := by
  obtain ⟨ids, ⟨heq, -⟩ | heq⟩ := launchStores_eq options state data
  · exact ⟨ids, by rw [heq]; rfl⟩
  · exact ⟨ids, by rw [heq, core_storeOrFulfill]; rfl⟩

def partitioned (options : TransformerOptions π) (state : PartitionTransformer π) :
    List (VastType × TransformedPartition) :=
  match options.pipeline.finish state.transform with
  | .error _ => state.data
  | .ok slices => (slices.foldl (addTransformed options) { state with doneReceived := true }).data

theorem core_done (options : TransformerOptions π) (hrunning : state.running = true) :
    ∃ ids, (step options state .done).core = { state.core with
      doneReceived := true
      transformError :=
        match options.pipeline.finish state.transform with
        | .error error => some error
        | .ok _ => state.transformError
      data := partitioned options state
      stores := state.stores ++ ids
      launched := state.launched ++ ids } := by
  have hstep : step options state .done =
      handleDone options { state with doneReceived := true } := if_pos hrunning
  rw [hstep, handleDone, partitioned]
  cases options.pipeline.finish state.transform with
  | error error => exact ⟨[], by simp [core]⟩
  | ok slices =>
    obtain ⟨data, hcore⟩ := core_foldl_addTransformed options
      { state with doneReceived := true } slices
    simp only
    generalize slices.foldl (addTransformed options) { state with doneReceived := true } = after
      at hcore ⊢
    obtain rfl : after.data = data := congrArg Core.data hcore
    split
    · refine ⟨[], ?_⟩
      rw [core_storeOrFulfill, hcore]
      simp [core]
    · split
      · obtain ⟨ids, hlaunch⟩ := @core_launchStores _ _ options after after.data
        refine ⟨ids, hlaunch.trans ?_⟩
        rw [hcore, show after.stores = state.stores from congrArg Core.stores hcore,
          show after.launched = state.launched from congrArg Core.launched hcore]
        rfl
      · refine ⟨[], ?_⟩
        rw [core_storeOrFulfill]
        refine hcore.trans ?_
        simp [core]

/-! ## The input -/

/-- Only slices and the end of the input have to do with the pipeline. -/
def Message.isInput : Message → Bool
  | .slice _ | .done => true
  | _ => false

omit [BloomFilters] in
theorem collected_of_not_isInput (hmsg : message.isInput = false) (transform : π)
    (rest : List Message) :
    collected options transform (message :: rest) = collected options transform rest := by
  cases message with
  | slice slice | done => cases hmsg
  | _ => rfl

def Message.reason? : Message → Option (Option Error)
  | .down _ reason => some reason
  | _ => none

/-- The other messages leave the pipeline, its result and the launched stores alone. -/
theorem core_of_not_isInput (options : TransformerOptions π) (hlegal : state.Legal message)
    (hmsg : message.isInput = false) : ∃ data stores downs, (step options state message).core =
        { state.core with data := data, stores := stores, downs := downs } ∧
      (downs.map Prod.fst ++ stores).Perm (state.downs.map Prod.fst ++ state.stores) ∧
      downs.map Prod.snd = state.downs.map Prod.snd ++ message.reason?.toList := by
  cases message with
  | slice slice | done => cases hmsg
  | resume =>
    obtain ⟨_, hresume⟩ := @core_resume _ _ options state
    exact ⟨_, _, _, hresume, Perm.refl _, (append_nil _).symm⟩
  | persist => exact ⟨_, _, _, core_persist state, Perm.refl _, (append_nil _).symm⟩
  | wroteSynopsis pos error => exact ⟨_, _, _, rfl, Perm.refl _, (append_nil _).symm⟩
  | wrotePartition pos error =>
    exact ⟨_, _, _, core_wrotePartition state pos error, Perm.refl _, (append_nil _).symm⟩
  | down pos reason =>
    have hlt : pos < state.stores.length := hlegal
    refine ⟨_, _, _, core_down options (getElem?_eq_getElem hlt) reason, ?_, by simp [reason?]⟩
    rw [map_append, append_assoc]
    exact (getElem_cons_eraseIdx_perm hlt).append_left _

theorem step_of_not_isInput (options : TransformerOptions π) (hlegal : state.Legal message)
    (hmsg : message.isInput = false) : (step options state message).transform = state.transform ∧
      (step options state message).transformError = state.transformError ∧
      (step options state message).doneReceived = state.doneReceived := by
  obtain ⟨_, _, _, hcore, -, -⟩ := core_of_not_isInput options hlegal hmsg
  exact ⟨congrArg Core.transform hcore, congrArg Core.transformError hcore,
    congrArg Core.doneReceived hcore⟩

theorem doneReceived_step (options : TransformerOptions π) (hlegal : state.Legal message)
    (hne : message ≠ .done) : (step options state message).doneReceived = state.doneReceived := by
  cases hmsg : message.isInput with
  | false => exact (step_of_not_isInput options hlegal hmsg).2.2
  | true =>
    cases message with
    | slice slice =>
      simp only [step]
      split <;> rfl
    | done => exact absurd rfl hne
    | _ => cases hmsg

/-- The input ends once, and the error of the pipeline stays. -/
theorem transformError_of_done (hdone : state.doneReceived = true)
    (hrun : Run.Admissible (step options) Legal state messages) :
    (messages.foldl (step options) state).transformError = state.transformError := by
  induction messages generalizing state with
  | nil => rfl
  | cons message rest ih =>
    obtain ⟨hlegal, hrest⟩ := hrun
    have hstep : (step options state message).transformError = state.transformError ∧
        (step options state message).doneReceived = true := by
      cases hmsg : message.isInput with
      | false =>
        obtain ⟨-, herror, hrecv⟩ := step_of_not_isInput options hlegal hmsg
        exact ⟨herror, hrecv.trans hdone⟩
      | true =>
        cases message with
        | slice slice =>
          simp only [step]
          split <;> exact ⟨rfl, hdone⟩
        | done =>
          rw [show state.doneReceived = false from hlegal] at hdone
          cases hdone
        | _ => cases hmsg
    rw [foldl_cons, ih hstep.2 hrest, hstep.1]

omit [BloomFilters] in
theorem Phase.doneReceived_of_replies (hphase : Phase state) (hreplies : state.replies ≠ []) :
    state.doneReceived = true := by
  by_contra hdone
  exact hreplies (hphase.of_not_done (by simpa using hdone)).replies

/-- The input ends in one step of the run. The transformer is then in its first phase and has
collected the slices. -/
theorem exists_done (hphase : Phase state) (hdone : state.doneReceived = false)
    (hrun : Run.Admissible (step options) Legal state messages)
    (hend : (messages.foldl (step options) state).doneReceived = true) :
    ∃ last rest, last.Collecting ∧ last.transform = collected options state.transform messages ∧
      Phase (step options last .done) ∧
      Run.Admissible (step options) Legal (step options last .done) rest ∧
      messages.foldl (step options) state = rest.foldl (step options) (step options last .done) ∧
      (.resume ∈ messages → .resume ∈ rest) := by
  induction messages generalizing state with
  | nil =>
    rw [foldl_nil, hdone] at hend
    cases hend
  | cons message rest ih =>
    obtain ⟨hlegal, hrest⟩ := hrun
    have hcollecting := hphase.of_not_done hdone
    have hphase' : Phase (step options state message) := hphase.step state message hlegal
    by_cases hmsg : message = .done
    · subst hmsg
      exact ⟨state, rest, hcollecting, by rw [collected], hphase', hrest, rfl,
        fun hmem => (mem_cons.mp hmem).resolve_left Message.noConfusion⟩
    · have hcoll : collected options state.transform (message :: rest) =
          collected options (step options state message).transform rest := by
        cases hinput : message.isInput with
        | false =>
          rw [collected_of_not_isInput hinput, (step_of_not_isInput options hlegal hinput).1]
        | true =>
          cases message with
          | slice slice => simp [collected, step, if_pos hcollecting.running]
          | done => exact absurd rfl hmsg
          | _ => cases hinput
      have hresume : message ≠ .resume := by
        rintro rfl
        rw [(hphase.of_resuming hlegal).doneReceived] at hdone
        cases hdone
      obtain ⟨last, after, hlast, htrans, hnext, hafter, hfold, hmem⟩ :=
        ih hphase' ((doneReceived_step options hlegal hmsg).trans hdone) hrest hend
      exact ⟨last, after, hlast, htrans.trans hcoll.symm, hnext, hafter, hfold,
        fun h => hmem ((mem_cons.mp h).resolve_left (Ne.symm hresume))⟩

/-- The error of the pipeline is stored when the input ends. -/
theorem transformError_isSome_iff (hphase : Phase state) (hdone : state.doneReceived = false)
    (hrun : Run.Admissible (step options) Legal state messages)
    (hend : (messages.foldl (step options) state).doneReceived = true) :
    (messages.foldl (step options) state).transformError.isSome = true ↔
      ∃ error, options.pipeline.finish (collected options state.transform messages) =
        .error error := by
  obtain ⟨last, rest, hlast, htrans, -, hrest, hfold, -⟩ := exists_done hphase hdone hrun hend
  obtain ⟨ids, hcore⟩ := core_done options hlast.running
  rw [hfold, transformError_of_done (congrArg Core.doneReceived hcore) hrest, ← htrans,
    show (step options last .done).transformError = _ from congrArg Core.transformError hcore]
  cases options.pipeline.finish last.transform <;> simp [hlast.transformError]

/-- When nothing is outstanding, the promise has been fulfilled exactly once, and
with an error if the pipeline has failed, if and only if the pipeline has not failed:
otherwise nobody fulfills it. -/
theorem answers_iff_pipeline_finishes (options : TransformerOptions π) (transform : π)
    (messages : List Message) (hreceives : Receives options transform messages)
    (hsettled : (run options transform messages).Settled) :
    ((run options transform messages).replies.length = 1 ∧
      ∀ error, options.pipeline.finish (collected options transform messages) = .error error →
        ∃ reply, (run options transform messages).replies = [.error reply]) ↔
    ∃ slices, options.pipeline.finish (collected options transform messages) = .ok slices := by
  have herror := transformError_isSome_iff (phase_initial transform) rfl hreceives
    hsettled.doneReceived
  have hphase := phase_run hreceives
  change (run options transform messages).transformError.isSome = true ↔ ∃ error,
    options.pipeline.finish (collected options transform messages) = .error error at herror
  cases hphase with
  | collecting h => cases h.doneReceived.symm.trans hsettled.doneReceived
  | launching h => cases h.resuming.symm.trans hsettled.resuming
  | holding _ h => cases h.persistReceived.symm.trans hsettled.persistReceived
  | writing h => exact absurd hsettled.partitionWrites h.partitionWrites
  | written _ h => exact absurd hsettled.stores h.stores
  | failed h =>
    obtain ⟨error, hfinish⟩ := herror.mp h.transformError
    simp [h.replies, hfinish]
  | replied reply h =>
    rw [h.transformError] at herror
    cases hfinish : options.pipeline.finish (collected options transform messages) with
    | error error => simp [hfinish] at herror
    | ok slices => simp [h.replies]

/-! ## The stores -/

/-- Stores that are launched are up until they go down. -/
theorem step_stores (options : TransformerOptions π) (hlegal : state.Legal message) :
    ∃ ids, (step options state message).launched = state.launched ++ ids ∧
      ((step options state message).downs.map Prod.fst ++ (step options state message).stores).Perm
          (state.downs.map Prod.fst ++ state.stores ++ ids) ∧
      (step options state message).downs.map Prod.snd =
        state.downs.map Prod.snd ++ message.reason?.toList := by
  cases hmsg : message.isInput with
  | false =>
    obtain ⟨_, _, _, hcore, hperm, hreasons⟩ := core_of_not_isInput options hlegal hmsg
    simp only [core, Core.mk.injEq] at hcore
    obtain ⟨-, -, -, -, hlaunch, rfl, rfl⟩ := hcore
    exact ⟨[], by simp [hlaunch], by rwa [append_nil], hreasons⟩
  | true =>
    cases message with
    | slice slice =>
      refine ⟨[], ?_⟩
      simp only [step, reason?]
      split <;> simp
    | done =>
      by_cases hrunning : state.running = true
      · obtain ⟨ids, hdone⟩ := core_done options hrunning
        simp only [core, Core.mk.injEq] at hdone
        obtain ⟨-, -, -, -, hlaunch, hstores, hdowns⟩ := hdone
        exact ⟨ids, hlaunch, by rw [hstores, hdowns, append_assoc], by simp [hdowns, reason?]⟩
      · have hstep : step options state .done = { state with doneReceived := true } :=
          if_neg hrunning
        rw [hstep]
        exact ⟨[], by simp, by simp, by simp [reason?]⟩
    | _ => cases hmsg

/-- Along a run, the launched stores are those that are up and those that went down,
and the latter did so for the reasons in the messages. -/
theorem stores_run {transform : π} (hreceives : Receives options transform messages) :
    ((run options transform messages).downs.map Prod.fst ++
        (run options transform messages).stores).Perm (run options transform messages).launched ∧
    (run options transform messages).downs.map Prod.snd = messages.filterMap reason? := by
  refine Run.induction_on_run ⟨Perm.refl _, rfl⟩ ?_ hreceives
  intro received message _ hlegal hbefore
  obtain ⟨ids, hlaunch, hperm, hreasons⟩ := step_stores options hlegal
  have hstep : run options transform (received ++ [message]) =
      step options (run options transform received) message := by
    simp [run]
  rw [hstep]
  refine ⟨?_, ?_⟩
  · rw [run, hlaunch]
    exact hperm.trans (hbefore.1.append_right ids)
  · rw [run, hreasons, filterMap_append]
    have hold := hbefore.2
    rw [run] at hold
    rw [hold]
    cases message <;> rfl

/-! ## The reply -/

/-- A reply with partitions is complete: it lists every partition once, all of them
were written, and all stores have gone down normally. -/
structure Complete (state : PartitionTransformer π) (result : List PartitionSynopsisPair) :
    Prop where
  partitions : (result.map (·.uuid)).Perm state.created
  written : (state.written.map Prod.fst).Perm state.created
  succeeded : ∀ answer ∈ state.written, answer.2 = none
  stores : (state.downs.map Prod.fst).Perm state.launched
  normal : ∀ down ∈ state.downs, down.2 = none

/-- If the promise is fulfilled with partitions, then these are complete if and only
if no store has gone down with an error: the reason is not looked at. -/
theorem complete_iff_stores_normal (options : TransformerOptions π) (transform : π)
    (messages : List Message) (hreceives : Receives options transform messages)
    (result : List PartitionSynopsisPair)
    (hreply : Except.ok result ∈ (run options transform messages).replies) :
    (run options transform messages).Complete result ↔
      ∀ position reason, Message.down position reason ∈ messages → reason = none := by
  obtain ⟨hperm, hreasons⟩ := stores_run hreceives
  have hnormal : (∀ down ∈ (run options transform messages).downs, down.2 = none) ↔
      ∀ position reason, down position reason ∈ messages → reason = none := by
    have hmap : (∀ down ∈ (run options transform messages).downs, down.2 = none) ↔
        ∀ reason ∈ (run options transform messages).downs.map Prod.snd, reason = none := by
      rw [forall_mem_map]
    rw [hmap, hreasons]
    constructor
    · intro hall position reason hmem
      exact hall reason (mem_filterMap.mpr ⟨_, hmem, rfl⟩)
    · intro hall reason hmem
      obtain ⟨message, hmessage, hreason⟩ := mem_filterMap.mp hmem
      cases message with
      | down position other =>
        cases hreason
        exact hall position reason hmessage
      | _ => cases hreason
  have hphase := phase_run hreceives
  constructor
  · intro hcomplete
    exact hnormal.mp hcomplete.normal
  · intro hmessages
    cases hphase with
    | replied reply h =>
      rw [h.replies, mem_singleton] at hreply
      obtain ⟨hwritten, hstores⟩ := h.result result hreply.symm
      rw [hstores, append_nil] at hperm
      exact ⟨hwritten.created, hwritten.written, hwritten.succeeded, hperm, hnormal.mpr hmessages⟩
    | collecting h | failed h | launching h | holding _ h | writing h | written _ h =>
      simp [h.replies] at hreply

end Handlers

/-! ## Runs that go wrong -/

def sampleSlice : TableSlice where
  schema := .none
  offset := none
  importTime := 0
  rows := [[]]
  typed := by decide

variable (failure : Option Error)

def samplePipeline : Pipeline Unit where
  add := fun _ _ => (none, ())
  finish := fun _ =>
    match failure with
    | some error => .error error
    | none => .ok [sampleSlice]
  rows_ne_nil := by
    intro _ slices hfinish slice hslice
    cases failure with
    | some error => cases hfinish
    | none =>
      cases hfinish
      rw [List.mem_singleton.mp hslice]
      simp [sampleSlice]

def sampleOptions : TransformerOptions Unit where
  pipeline := samplePipeline failure
  partitionCapacity := 8
  partitionVersion := 1
  synopsisOpts := ⟨[], 0⟩
  storeId := "feather"
  precedes := fun _ _ => false
  random := fun count => BitVec.ofNat 128 (count + 1)
  findStorePlugin := fun _ => true
  makeStoreBuilder := fun _ => true
  packFull := fun _ _ => .ok []
  packSynopsis := fun _ => .ok (some [])

def sampleError : Error :=
  ⟨.unspecified, "failure"⟩

def sampleRun (messages : List Message) : PartitionTransformer Unit :=
  @run Unit PartitionSynopsis.exactFilters (sampleOptions failure) () messages

/-- A failing pipeline leaves the promise alone. -/
theorem pipeline_failure_unanswered :
    @Receives Unit exactFilters (sampleOptions (some sampleError)) ()
        [.slice sampleSlice, .done, .persist] ∧
      (sampleRun (some sampleError) [.slice sampleSlice, .done, .persist]).Settled ∧
      (sampleRun (some sampleError) [.slice sampleSlice, .done, .persist]).replies = [] :=
  ⟨by decide, ⟨rfl, rfl, rfl, rfl, rfl, rfl⟩, rfl⟩

/-- The messages of a run in which the store goes down for a reason. -/
def sampleMessages (reason : Option Error) : List Message :=
  [.slice sampleSlice, .persist, .done, .resume, .wroteSynopsis 0 none, .wrotePartition 0 none,
    .down 0 reason]

/-- The pipeline finishes, and the request is answered once. -/
theorem sample_answered : (sampleRun none (sampleMessages none)).replies.length = 1 :=
  ((@answers_iff_pipeline_finishes Unit exactFilters (sampleOptions none) ()
    (sampleMessages none) (by decide) ⟨rfl, rfl, rfl, rfl, rfl, rfl⟩).mpr ⟨_, rfl⟩).1

/-- The store of the only partition fails, and the reply is a success. -/
theorem failed_store_unnoticed :
    ∃ result, Except.ok result ∈ (sampleRun none (sampleMessages (some sampleError))).replies ∧
      ¬ (sampleRun none (sampleMessages (some sampleError))).Complete result := by
  refine ⟨_, mem_singleton_self _, fun hcomplete => ?_⟩
  have hnormal := hcomplete.normal (1, some sampleError) (mem_singleton_self _)
  cases hnormal

/-- All stores end normally, and the reply has everything. -/
theorem sample_complete :
    ∃ result, Except.ok result ∈ (sampleRun none (sampleMessages none)).replies ∧
      (sampleRun none (sampleMessages none)).Complete result := by
  refine ⟨_, mem_singleton_self _, ?_⟩
  refine (@complete_iff_stores_normal Unit exactFilters (sampleOptions none) ()
    (sampleMessages none) (by decide) _ (mem_singleton_self _)).mpr ?_
  simp [sampleMessages]

end PartitionTransformer

end Vast
