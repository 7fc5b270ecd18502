import Vast.Store.DefaultStore

/-! # Extractions from start to end

What the store does for one extraction depends only on what it keeps for that
extraction. Projected to it, a run of the store with any number of other queries is
a walk through the results of the extraction, one for each message.
-/

namespace Vast

open Foundation List AssocList StoreState

namespace StoreState

/-! ## One extraction -/

structure View where
  running : Option (RunningQuery TableSlice)
  continuations : Nat
  finished : Nat
  sent : List (Actor × TableSlice)

namespace View

def resume (view : View) : View :=
  match view.running with
  | none => { view with finished := view.finished + 1 }
  | some query =>
    match query.results with
    | [] => { view with finished := view.finished + 1 }
    | slice :: rest =>
      let next : View :=
        { view with
          running := some
            { query with results := rest, numHits := query.numHits + slice.rows.length }
          sent := view.sent ++ [(query.sink, slice)] }
      if rest.isEmpty then { next with finished := next.finished + 1 }
      else { next with continuations := next.continuations + 1 }

end View

def view (state : StoreState) (id : Uuid) : View where
  running := state.runningExtractions.lookup id
  continuations := state.continuations.count (.extract, id)
  finished := state.finished.count (.extract, id)
  sent := (state.sentSlices.filter fun entry => entry.1 = id).map Prod.snd

variable {state : StoreState} {id other : Uuid} {kind : QueryKind} {query : StoreQuery}
  {event : Event} {sent : List (Actor × TableSlice)} {tailored : Expression}

theorem view_delegate_self : (state.delegate .extract id).view id =
    { state.view id with continuations := (state.view id).continuations + 1 } := by
  simp [view, delegate]

theorem view_respond_self : (state.respond .extract id).view id =
    { state.view id with finished := (state.view id).finished + 1 } := by
  simp [view, respond]

theorem view_delegate_of_ne (hne : (kind, other) ≠ (.extract, id)) :
    (state.delegate kind other).view id = state.view id := by
  simp [view, delegate, hne]

theorem view_respond_of_ne (hne : (kind, other) ≠ (.extract, id)) :
    (state.respond kind other).view id = state.view id := by
  simp [view, respond, hne]

/-! ## What concerns other queries -/

theorem view_handleQuery_of_ne [Regex] (hne : query.id ≠ id) :
    (state.handleQuery query).view id = state.view id := by
  unfold handleQuery
  split
  · rfl
  · split
    · rfl
    · unfold startCount
      split
      · rfl
      · exact view_delegate_of_ne (by simp)
    · unfold startExtract
      split
      · rfl
      · rw [view_delegate_of_ne (by simp [hne])]
        simp [view, lookup_emplace, hne.symm]

theorem view_continueCount : (state.continueCount other).view id = state.view id := by
  unfold continueCount
  split
  · exact view_respond_of_ne (by simp)
  · split
    · exact view_respond_of_ne (by simp)
    · split
      · exact view_respond_of_ne (by simp)
      · exact view_delegate_of_ne (by simp)

theorem view_continueExtract_of_ne (hne : other ≠ id) :
    (state.continueExtract other).view id = state.view id := by
  have hkind : (QueryKind.extract, other) ≠ (.extract, id) := by simp [hne]
  unfold continueExtract
  split
  · exact view_respond_of_ne hkind
  · split
    · exact view_respond_of_ne hkind
    · split
      · rw [view_respond_of_ne hkind]
        simp [view, lookup_adjust, hne.symm, hne]
      · rw [view_delegate_of_ne hkind]
        simp [view, lookup_adjust, hne.symm, hne]

theorem view_finishCount : (state.finishCount other).view id = state.view id := by
  unfold finishCount
  split
  · rfl
  · rfl

theorem view_finishExtract_of_ne (hne : other ≠ id) :
    (state.finishExtract other).view id = state.view id := by
  unfold finishExtract
  split
  · rfl
  · simp [view, deliver, lookup_erase, hne.symm]

theorem view_removeDownSource {source : Actor}
    (hsink : ∀ query, (state.view id).running = some query → query.sink ≠ source) :
    (state.removeDownSource source).view id = state.view id := by
  have hlookup : (state.runningExtractions.eraseP fun entry => entry.2.sink = source).lookup id =
      state.runningExtractions.lookup id :=
    lookup_eraseP fun query hquery => by simpa using hsink query hquery
  simp [view, removeDownSource, hlookup]

/-! ## What concerns the extraction -/

theorem view_startExtract_self (query : RunningQuery TableSlice)
    (hfresh : (state.view id).running = none) : (state.startExtract id query).view id =
      { state.view id with
        running := some query
        continuations := (state.view id).continuations + 1 } := by
  have hlookup : state.runningExtractions.lookup id = none := hfresh
  unfold startExtract
  simp only [hlookup]
  rw [view_delegate_self]
  simp [view, lookup_emplace, hlookup]

theorem view_continueExtract_self :
    (state.continueExtract id).view id = (state.view id).resume := by
  have hrunning : (state.view id).running = state.runningExtractions.lookup id := rfl
  unfold continueExtract View.resume
  rw [hrunning]
  cases hlookup : state.runningExtractions.lookup id with
  | none =>
    rw [view_respond_self]
    simp [view, hlookup]
  | some query =>
    obtain ⟨results, numHits, sink⟩ := query
    cases results with
    | nil =>
      rw [view_respond_self]
      simp [view, hlookup]
    | cons slice rest =>
      dsimp only
      split
      · rw [view_respond_self]
        simp [view, lookup_adjust, hlookup]
      · rw [view_delegate_self]
        simp [view, lookup_adjust, hlookup]

theorem view_finishExtract_self :
    (state.finishExtract id).view id = { state.view id with running := none } := by
  unfold finishExtract
  split
  next hlookup => simp [view, deliver, hlookup]
  · simp [view, deliver, lookup_erase]

/-! ## From start to end -/

def hits (slices : List TableSlice) : Nat :=
  (slices.map fun slice => slice.rows.length).sum

/-- How far an extraction is: some results are sent, all are sent, or it is answered. -/
inductive Phase (sink : Actor) (results : List TableSlice) : View → Prop where
  | working (done rest : List TableSlice) (hresults : results = done ++ rest) :
      Phase sink results ⟨some ⟨rest, hits done, sink⟩, 1, 0, done.map fun slice => (sink, slice)⟩
  | sent : Phase sink results
      ⟨some ⟨[], hits results, sink⟩, 0, 1, results.map fun slice => (sink, slice)⟩
  | answered : Phase sink results ⟨none, 0, 0, results.map fun slice => (sink, slice)⟩

variable {sink : Actor} {results : List TableSlice}

theorem Phase.resume {done rest : List TableSlice} (hres : results = done ++ rest) :
    Phase sink results (View.resume
      ⟨some ⟨rest, hits done, sink⟩, 0, 0, done.map fun slice => (sink, slice)⟩) := by
  cases rest with
  | nil =>
    rw [append_nil] at hres
    subst hres
    exact .sent
  | cons slice rest =>
    have hhits : hits done + slice.rows.length = hits (done ++ [slice]) := by
      simp [hits]
    have hsent : (done.map fun slice => (sink, slice)) ++ [(sink, slice)] =
        (done ++ [slice]).map fun slice => (sink, slice) := by
      simp
    rw [append_cons] at hres
    simp only [View.resume, hhits, hsent]
    cases rest with
    | nil =>
      rw [append_nil] at hres
      subst hres
      exact .sent
    | cons next rest => exact .working _ _ hres

/-- Nobody else uses the id of the query, and its sink does not go away. -/
def Event.Spares (id : Uuid) (sink : Actor) : Event → Prop
  | .query asked => asked.id ≠ id
  | .down source => source ≠ sink
  | _ => True

/-- The guard of runs that do not cancel the query. -/
def Serves (id : Uuid) (sink : Actor) (state : StoreState) (event : Event) : Prop :=
  state.Enabled event ∧ event.Spares id sink

theorem view_take_continuation :
    ({ state with continuations := state.continuations.erase (kind, other) } : StoreState).view id =
      if (kind, other) = (.extract, id) then
        { state.view id with continuations := (state.view id).continuations - 1 }
      else state.view id := by
  split
  next heq => simp [view, heq]
  next hne => simp [view, count_erase_of_ne (Ne.symm hne)]

theorem view_take_finished :
    ({ state with finished := state.finished.erase (kind, other) } : StoreState).view id =
      if (kind, other) = (.extract, id) then
        { state.view id with finished := (state.view id).finished - 1 }
      else state.view id := by
  split
  next heq => simp [view, heq]
  next hne => simp [view, count_erase_of_ne (Ne.symm hne)]

theorem Phase.sink_eq {current : View} (hphase : Phase sink results current)
    {query : RunningQuery TableSlice} (hquery : current.running = some query) :
    query.sink = sink := by
  cases hphase with
  | working | sent => cases hquery; rfl
  | answered => cases hquery

variable [Regex]

theorem view_step_resume_self : (state.step (.resume .extract id)).view id =
    View.resume { state.view id with continuations := (state.view id).continuations - 1 } := by
  simp only [step]
  rw [view_continueExtract_self, view_take_continuation, if_pos rfl]

theorem view_step_finish_self : (state.step (.finish .extract id)).view id =
    { state.view id with finished := (state.view id).finished - 1, running := none } := by
  simp only [step]
  rw [view_finishExtract_self, view_take_finished, if_pos rfl]

/-- The own messages of other queries. -/
theorem view_step_of_ne (hne : (kind, other) ≠ (.extract, id))
    (hevent : event = .resume kind other ∨ event = .finish kind other) :
    (state.step event).view id = state.view id := by
  rcases hevent with rfl | rfl
  · cases kind with
    | count =>
      simp only [step]
      rw [view_continueCount, view_take_continuation, if_neg hne]
    | extract =>
      simp only [step]
      rw [view_continueExtract_of_ne (by simpa using hne), view_take_continuation, if_neg hne]
  · cases kind with
    | count =>
      simp only [step]
      rw [view_finishCount, view_take_finished, if_neg hne]
    | extract =>
      simp only [step]
      rw [view_finishExtract_of_ne (by simpa using hne), view_take_finished, if_neg hne]

/-- Every message brings the extraction forward or leaves it alone. -/
theorem Phase.step (hphase : Phase sink results (state.view id))
    (hserves : Serves id sink state event) : Phase sink results ((state.step event).view id) := by
  obtain ⟨henabled, hspares⟩ := hserves
  cases event with
  | query query =>
    rw [step, view_handleQuery_of_ne hspares]
    exact hphase
  | down source =>
    rw [step, view_removeDownSource]
    · exact hphase
    · intro query hquery hsource
      exact hspares (hsource.symm.trans (hphase.sink_eq hquery))
  | resume kind other =>
    by_cases hself : (kind, other) = (.extract, id)
    · cases hself
      have hcount : 0 < (state.view id).continuations := count_pos_iff.mpr henabled
      rw [view_step_resume_self]
      generalize state.view id = current at hphase hcount
      cases hphase with
      | working done rest hres => exact Phase.resume hres
      | sent | answered => simp at hcount
    · rw [view_step_of_ne hself (Or.inl rfl)]
      exact hphase
  | finish kind other =>
    by_cases hself : (kind, other) = (.extract, id)
    · cases hself
      have hcount : 0 < (state.view id).finished := count_pos_iff.mpr henabled
      rw [view_step_finish_self]
      generalize state.view id = current at hphase hcount
      cases hphase with
      | working => simp at hcount
      | sent => exact .answered
      | answered => simp at hcount
    · rw [view_step_of_ne hself (Or.inr rfl)]
      exact hphase

theorem Phase.run (hphase : Phase sink results (state.view id)) {events : List Event}
    (hrun : Run.Admissible StoreState.step (Serves id sink) state events) :
    Phase sink results ((events.foldl StoreState.step state).view id) :=
  Run.invariant (fun state => Phase sink results (state.view id))
    (fun _ _ hphase hserves => hphase.step hserves) hphase hrun

/-- Nothing is left to do for an extraction. -/
def Completed (state : StoreState) (id : Uuid) : Prop :=
  (.extract, id) ∉ state.continuations ∧ (.extract, id) ∉ state.finished

omit [Regex] in
theorem completed_iff : state.Completed id ↔
    (state.view id).continuations = 0 ∧ (state.view id).finished = 0 := by
  simp [Completed, view, count_eq_zero]

/-- The extraction can be completed without cancelling it. -/
def Completable (id : Uuid) (sink : Actor) (state : StoreState) : Prop :=
  ∃ events, Run.Admissible step (Serves id sink) state events ∧
    (events.foldl step state).Completed id

theorem Completable.of_step (event : Event) (hserves : Serves id sink state event)
    (hnext : Completable id sink (state.step event)) : Completable id sink state := by
  obtain ⟨events, hrun, hcompl⟩ := hnext
  exact ⟨event :: events, ⟨hserves, hrun⟩, hcompl⟩

theorem completable_of_sent {query : Option (RunningQuery TableSlice)}
    (hview : state.view id = ⟨query, 0, 1, sent⟩) : Completable id sink state := by
  have henabled : (.extract, id) ∈ state.finished := by
    rw [← count_pos_iff]
    show 0 < (state.view id).finished
    simp [hview]
  apply Completable.of_step (.finish .extract id) ⟨henabled, trivial⟩
  refine ⟨[], trivial, completed_iff.mpr ?_⟩
  rw [foldl_nil, view_step_finish_self, hview]
  exact ⟨rfl, rfl⟩

theorem completable_of_working (rest : List TableSlice) {numHits : Nat}
    (hview : state.view id = ⟨some ⟨rest, numHits, sink⟩, 1, 0, sent⟩) :
    Completable id sink state := by
  induction rest generalizing state numHits sent with
  | nil =>
    apply Completable.of_step (.resume .extract id) ⟨?_, trivial⟩
    · apply completable_of_sent
      rw [view_step_resume_self, hview]
      rfl
    · rw [Enabled, ← count_pos_iff]
      show 0 < (state.view id).continuations
      simp [hview]
  | cons slice rest ih =>
    apply Completable.of_step (.resume .extract id) ⟨?_, trivial⟩
    · cases rest with
      | nil =>
        apply completable_of_sent
        rw [view_step_resume_self, hview]
        rfl
      | cons next rest =>
        apply ih
        rw [view_step_resume_self, hview]
        rfl
    · rw [Enabled, ← count_pos_iff]
      show 0 < (state.view id).continuations
      simp [hview]

theorem Phase.completable (hphase : Phase sink results (state.view id)) :
    Completable id sink state := by
  generalize hview : state.view id = current at hphase
  cases hphase with
  | working done rest _ => exact completable_of_working rest hview
  | sent => exact completable_of_sent hview
  | answered => exact ⟨[], trivial, completed_iff.mpr (by rw [foldl_nil, hview]; simp)⟩

/-! ## What the sink gets -/

/-- The events that a query has brought to a sink. -/
def received (state : StoreState) (id : Uuid) (sink : Actor) : List TableSlice.Event :=
  (state.sentSlices.filter fun entry => entry.1 = id ∧ entry.2.1 = sink).flatMap fun entry =>
    entry.2.2.events

section

omit [Regex]

theorem received_eq (state : StoreState) (id : Uuid) (sink : Actor) :
    state.received id sink = ((state.view id).sent.filter fun entry => entry.1 = sink).flatMap
      fun entry => entry.2.events := by
  simp only [received, view, filter_map, filter_filter, flatMap_map]
  congr 1
  simp [and_comm]

theorem Phase.received (hphase : Phase sink results (state.view id)) (hcompl : state.Completed id) :
    state.received id sink = results.flatMap TableSlice.events := by
  rw [completed_iff] at hcompl
  rw [received_eq]
  generalize state.view id = current at hphase hcompl
  cases hphase with
  | working | sent => simp at hcompl
  | answered => simp [filter_map, Function.comp_def, flatMap_map]

def Fresh (state : StoreState) (id : Uuid) : Prop :=
  state.view id = ⟨none, 0, 0, []⟩

theorem fresh_initial (store : BaseStore) (id : Uuid) : (initial store).Fresh id := by
  simp [Fresh, view, initial]

end

/-- Whatever else the store does, an extraction can always be completed, and then its sink
has got the expected events. -/
def DeliversExactly (store : BaseStore) (query : StoreQuery) (sink : Actor)
    (expected : List TableSlice.Event) : Prop :=
  ∀ (state : StoreState) (events : List Event), state.store = store → state.Fresh query.id →
    Run.Admissible step (Serves query.id sink) (state.step (.query query)) events →
    Completable query.id sink (events.foldl step (state.step (.query query))) ∧
      ((events.foldl step (state.step (.query query))).Completed query.id →
        (events.foldl step (state.step (.query query))).received query.id sink = expected)

theorem phase_handleQuery (hcmd : query.cmd = .extract sink)
    (htailored : tailor query.expr state.store.schema = .ok tailored)
    (hfresh : state.Fresh query.id) : Phase sink (state.store.extract tailored query.ids)
      ((state.step (.query query)).view query.id) := by
  have hstep : state.step (.query query) = state.startExtract query.id
      { results := state.store.extract tailored query.ids, sink := sink } := by
    simp [step, handleQuery, htailored, hcmd]
  rw [hstep, view_startExtract_self _ (by rw [hfresh]), hfresh]
  exact .working [] _ rfl

theorem deliversExactly_iff_extract {store : BaseStore} (hcmd : query.cmd = .extract sink)
    (htailored : tailor query.expr store.schema = .ok tailored) (expected : List TableSlice.Event) :
    DeliversExactly store query sink expected ↔
      (store.extract tailored query.ids).flatMap TableSlice.events = expected := by
  constructor
  · intro hdelivers
    have hinitial : tailor query.expr (initial store).store.schema = .ok tailored := htailored
    have hphase := phase_handleQuery hcmd hinitial (fresh_initial store query.id)
    obtain ⟨events, hrun, hcompl⟩ := hphase.completable
    rw [← (hdelivers (initial store) events rfl (fresh_initial store query.id) hrun).2 hcompl]
    exact ((hphase.run hrun).received hcompl).symm
  · rintro rfl state events rfl hfresh hrun
    have hphase := (phase_handleQuery hcmd htailored hfresh).run hrun
    exact ⟨hphase.completable, hphase.received⟩

end StoreState

end Vast
