import Mathlib.Data.List.Perm.Basic
import Vast.Transform.Transformer

/-! # Runs of the partition transformer

Between two messages the transformer is in one of a few phases. Unless the
pipeline fails, every phase leads to the next one as soon as nothing is
outstanding, and the last one has fulfilled the promise.
-/

namespace Vast

open Foundation List FanoutCounter

namespace PartitionTransformer

variable {π : Type} {state : PartitionTransformer π} {data : List (VastType × TransformedPartition)}
  {slice : TableSlice} {transform : π}

/-! ## Partitions -/

def partitionEvents (data : List (VastType × TransformedPartition)) : Nat :=
  (data.map fun entry => entry.2.events).sum

theorem partitionEvents_appendSlice (hschema : ∃ entry ∈ data, entry.1 = slice.schema) :
    partitionEvents (appendSlice slice data) = partitionEvents data + slice.rows.length := by
  induction data with
  | nil => simp at hschema
  | cons entry rest ih =>
    rw [appendSlice]
    split
    · simp [partitionEvents]; omega
    next hother =>
      have hrest : ∃ entry ∈ rest, entry.1 = slice.schema := by
        by_contra hnone
        push Not at hnone
        obtain ⟨found, hfound, heq⟩ := hschema
        rcases mem_cons.mp hfound with rfl | hmem
        · exact hother ⟨heq, hnone⟩
        · exact hnone found hmem heq
      have htail := ih hrest
      simp only [partitionEvents, map_cons, sum_cons] at htail ⊢
      omega

section Handlers

variable [BloomFilters] (options : TransformerOptions π)
  {data : List (VastType × TransformedPartition)} {chunks : List (Uuid × VastType × Chunk)}

omit [BloomFilters] in
theorem insertPartition_perm (schema : VastType) (partition : TransformedPartition)
    (data : List (VastType × TransformedPartition)) :
    (insertPartition options schema partition data).Perm ((schema, partition) :: data) := by
  induction data with
  | nil => exact Perm.refl _
  | cons entry rest ih =>
    rw [insertPartition]
    split
    · exact Perm.refl _
    · exact (ih.cons entry).trans (Perm.swap _ _ _)

section

variable (state : PartitionTransformer π)

omit [BloomFilters]

theorem createOrGetPartition_data (slice : TableSlice) :
    (∃ entry ∈ (state.createOrGetPartition options slice).data, entry.1 = slice.schema) ∧
      partitionEvents (state.createOrGetPartition options slice).data =
        partitionEvents state.data := by
  unfold createOrGetPartition
  split
  · have hperm := insertPartition_perm options slice.schema
      ⟨options.random state.data.length, 0, []⟩ state.data
    refine ⟨⟨_, hperm.mem_iff.mpr mem_cons_self, rfl⟩, ?_⟩
    have hsum := (hperm.map fun entry => entry.2.events).sum_nat
    simpa [partitionEvents] using hsum
  next hfits =>
    refine ⟨?_, rfl⟩
    rw [needsPartition] at hfits
    split at hfits
    · simp at hfits
    next entry hlast =>
      have hmem := mem_filter.mp (mem_of_getLast? hlast)
      exact ⟨entry, hmem.1, by simpa using hmem.2⟩

/-- The transformer counts the events of its partitions, and has no partition
without having counted an event. -/
structure Balanced : Prop where
  events : state.events = partitionEvents state.data
  data : state.events = 0 → state.data = []

/-- Changes of a transformer while it takes over transformed slices. -/
def withData (data : List (VastType × TransformedPartition))
    (events : Nat) : PartitionTransformer π :=
  { state with data := data, events := events }

theorem addTransformed_eq (slice : TableSlice) : ∃ data, state.addTransformed options slice =
      state.withData data (state.events + slice.rows.length) := by
  unfold addTransformed createOrGetPartition
  split <;> exact ⟨_, rfl⟩

end

section

omit [BloomFilters]

theorem Balanced.addTransformed (hbal : state.Balanced) (hrows : slice.rows ≠ []) :
    (state.addTransformed options slice).Balanced := by
  have hpos : 0 < slice.rows.length := length_pos_of_ne_nil hrows
  obtain ⟨data, heq⟩ := addTransformed_eq options state slice
  have hevents : (state.addTransformed options slice).events =
      state.events + slice.rows.length := by rw [heq]; rfl
  refine ⟨?_, fun hzero => by omega⟩
  obtain ⟨hschema, hsame⟩ := createOrGetPartition_data options state slice
  rw [hevents, hbal.events, ← hsame, ← partitionEvents_appendSlice hschema]
  rfl

theorem foldl_addTransformed {slices : List TableSlice} (hbal : state.Balanced)
    (hrows : ∀ slice ∈ slices, slice.rows ≠ []) :
    ∃ data events, slices.foldl (addTransformed options) state = state.withData data events ∧
      (state.withData data events).Balanced := by
  induction slices generalizing state with
  | nil => exact ⟨state.data, state.events, rfl, hbal⟩
  | cons slice rest ih =>
    rw [forall_mem_cons] at hrows
    obtain ⟨data, events, heq, hres⟩ :=
      ih (hbal.addTransformed options hrows.1) hrows.2
    obtain ⟨first, hfirst⟩ := addTransformed_eq options state slice
    rw [hfirst] at heq hres
    exact ⟨data, events, by rw [foldl_cons, hfirst, heq]; rfl, hres⟩

theorem packPartitions_ids (hpack : packPartitions options data = .ok chunks) :
    chunks.map Prod.fst = data.map fun entry => entry.2.id := by
  induction data generalizing chunks with
  | nil =>
    cases hpack
    rfl
  | cons entry rest ih =>
    rw [packPartitions, mapM_cons] at hpack
    cases hchunk : options.packFull entry.1 entry.2 with
    | error error =>
      rw [hchunk] at hpack
      cases hpack
    | ok chunk =>
      cases hrest : packPartitions options rest with
      | error error =>
        rw [packPartitions] at hrest
        rw [hchunk, hrest] at hpack
        cases hpack
      | ok others =>
        have hothers := ih hrest
        rw [packPartitions] at hrest
        rw [hchunk, hrest] at hpack
        cases hpack
        simp [hothers]

end

theorem pack_partitionChunks (hchunks : (pack options data).partitionChunks = .ok chunks) :
    packPartitions options data = .ok chunks := by
  unfold pack at hchunks
  split at hchunks
  · cases hchunks
  next others hothers =>
    cases hchunks
    exact hothers

end Handlers

/-! ## Stores -/

/-- What the joint of transformer and stores holds while the transformer is not
finished. -/
def storeState (state : PartitionTransformer π) : ShutdownState :=
  if state.stores = [] ∧ state.launched ≠ [] then .storesAreFinished else .monostate

/-- The stores are counted, and the last one that goes down is noted. -/
structure Counted (state : PartitionTransformer π) : Prop where
  storesFinished : state.storesFinished + state.stores.length = state.storesLaunched
  launched : state.launched.length = state.storesLaunched

theorem Counted.stores_eq_nil (hcounted : state.Counted) (hlaunch : state.launched = []) :
    state.stores = [] := by
  obtain ⟨hfinished, hcount⟩ := hcounted
  rw [hlaunch, length_nil] at hcount
  exact length_eq_zero_iff.mp (by omega)

structure Unanswered (state : PartitionTransformer π) : Prop where
  running : state.running = true
  replies : state.replies = []
  counted : state.Counted

structure Idle (state : PartitionTransformer π) : Prop extends Unanswered state where
  shutdownState : state.shutdownState = state.storeState
  partitionWrites : state.partitionWrites = []
  written : state.written = []

/-- Idleness does not depend on the data, on what has been received or on errors. -/
theorem Idle.update (hidle : state.Idle) {streamError : Option TransformerError}
    {transformError : Option Error} {events : Nat} {persist : PersistState}
    {doneReceived persistReceived resuming : Bool} {synopsisWrites : List Uuid} : Idle { state with
      transform := transform
      streamError := streamError
      transformError := transformError
      events := events
      data := data
      persist := persist
      doneReceived := doneReceived
      persistReceived := persistReceived
      resuming := resuming
      synopsisWrites := synopsisWrites } :=
  ⟨⟨hidle.running, hidle.replies, hidle.counted.1, hidle.counted.2⟩, hidle.shutdownState,
    hidle.partitionWrites, hidle.written⟩

def withStores (state : PartitionTransformer π) (ids : List Uuid) : PartitionTransformer π :=
  { state with
    storesLaunched := state.storesLaunched + ids.length
    stores := state.stores ++ ids
    launched := state.launched ++ ids }

theorem withStores_withStores (state : PartitionTransformer π) (first second : List Uuid) :
    (state.withStores first).withStores second = state.withStores (first ++ second) := by
  simp [withStores, Nat.add_assoc]

/-- Store builders are launched when none was before. -/
theorem Idle.withStores (hidle : state.Idle) (hlaunch : state.launched = [])
    (ids : List Uuid) : (state.withStores ids).Idle := by
  obtain ⟨⟨hrunning, hreplies, hfinished, hcount⟩, hshutdown, hwrites, hwritten⟩ := hidle
  rw [hlaunch, length_nil] at hcount
  refine ⟨⟨hrunning, hreplies, ?_, ?_⟩, ?_, hwrites, hwritten⟩
  · simp only [PartitionTransformer.withStores, length_append]
    omega
  · simp only [PartitionTransformer.withStores, hlaunch, nil_append]
    omega
  · change state.shutdownState = _
    rw [hshutdown]
    simp [storeState, PartitionTransformer.withStores, hlaunch]

section Handlers

variable [BloomFilters] (options : TransformerOptions π)

/-- Either a builder is launched for every partition with events, or one of them
cannot be created. -/
theorem launchStores_eq (state : PartitionTransformer π)
    (data : List (VastType × TransformedPartition)) : ∃ ids,
      (launchStores options state data = { state.withStores ids with resuming := true } ∧
        ∀ entry ∈ data, entry.2.events ≠ 0 → entry.2.id ∈ ids) ∨
      launchStores options state data =
        { state.withStores ids with
          streamError :=
            some (.noStoreBuilder options.storeId) }.storeOrFulfill options .empty := by
  induction data generalizing state with
  | nil =>
    refine ⟨[], Or.inl ⟨?_, by simp⟩⟩
    simp [launchStores, withStores]
  | cons entry rest ih =>
    rw [launchStores]
    split
    next hzero =>
      obtain ⟨ids, ⟨heq, hids⟩ | heq⟩ := ih state
      · refine ⟨ids, Or.inl ⟨heq, ?_⟩⟩
        rw [forall_mem_cons]
        exact ⟨fun hpos => absurd hzero hpos, hids⟩
      · exact ⟨ids, Or.inr heq⟩
    · split
      · obtain ⟨ids, hcases⟩ := ih (state.withStores [entry.2.id])
        rw [withStores_withStores] at hcases
        refine ⟨entry.2.id :: ids, hcases.imp ?_ id⟩
        rintro ⟨heq, hids⟩
        refine ⟨heq, ?_⟩
        rw [forall_mem_cons]
        exact ⟨fun _ => mem_cons_self, fun other hother hpos =>
          mem_cons_of_mem _ (hids other hother hpos)⟩
      · refine ⟨[], Or.inr ?_⟩
        simp [withStores]

end Handlers

/-! ## Phases -/

section

variable (state : PartitionTransformer π)

/-- The request to persist is stored if it has arrived. -/
def Awaiting : Prop :=
  state.persist = if state.persistReceived then .pathData else .monostate

/-- The packed data is complete, unless there is an error or nothing to write. -/
structure Ready (streamData : StreamData) : Prop where
  nothing : state.events = 0 → state.data = [] ∧ state.stores = []
  chunks : state.streamError = none → state.events ≠ 0 → state.launched ≠ [] ∧
    ∀ chunks, streamData.partitionChunks = .ok chunks → chunks ≠ [] ∧
      chunks.map Prod.fst = state.created

structure Writing : Prop where
  awaits : state.counter.Awaits state.partitionWrites.length
  launched : state.launched ≠ []
  written : (state.written.map Prod.fst ++ state.partitionWrites.map (·.uuid)).Perm state.created
  succeeded : state.counter.lastError = none → (∀ answer ∈ state.written, answer.2 = none) ∧
    state.counter.state.map (·.uuid) = state.written.map Prod.fst

structure AllWritten (result : List PartitionSynopsisPair) : Prop where
  created : (result.map (·.uuid)).Perm state.created
  partitionWrites : state.partitionWrites = []
  written : (state.written.map Prod.fst).Perm state.created
  succeeded : ∀ answer ∈ state.written, answer.2 = none

structure Collecting : Prop extends Idle state where
  doneReceived : state.doneReceived = false
  resuming : state.resuming = false
  awaiting : state.Awaiting
  launched : state.launched = []
  events : state.events = 0
  data : state.data = []
  streamError : state.streamError = none
  transformError : state.transformError = none

structure Failed : Prop extends Idle state where
  doneReceived : state.doneReceived = true
  resuming : state.resuming = false
  awaiting : state.Awaiting
  launched : state.launched = []
  transformError : state.transformError.isSome = true

structure Launching : Prop extends Idle state where
  doneReceived : state.doneReceived = true
  resuming : state.resuming = true
  awaiting : state.Awaiting
  launched : state.launched ≠ []
  events : state.events ≠ 0
  data : state.data ≠ []
  streamError : state.streamError = none
  transformError : state.transformError = none

/-- The request to persist is missing. -/
structure Holding (streamData : StreamData) : Prop extends Idle state where
  doneReceived : state.doneReceived = true
  resuming : state.resuming = false
  persist : state.persist = .streamData streamData
  persistReceived : state.persistReceived = false
  ready : state.Ready streamData
  transformError : state.transformError = none

/-- The input has ended without an error, and the request to persist has arrived. -/
structure Requested : Prop where
  doneReceived : state.doneReceived = true
  resuming : state.resuming = false
  persistReceived : state.persistReceived = true
  transformError : state.transformError = none

structure WritingSome : Prop extends Unanswered state, Requested state where
  shutdownState : state.shutdownState = state.storeState
  writing : state.Writing
  partitionWrites : state.partitionWrites ≠ []

/-- The partitions are written, but stores are still running. -/
structure AwaitingStores (result : List PartitionSynopsisPair) :
    Prop extends Unanswered state, Requested state where
  shutdownState : state.shutdownState = .transformerIsFinished result
  allWritten : state.AllWritten result
  stores : state.stores ≠ []

structure Replied (reply : TransformerReply) : Prop extends Requested state where
  running : state.running = false
  replies : state.replies = [reply]
  result : ∀ result, reply = .ok result → state.AllWritten result ∧ state.stores = []

end

inductive Phase (state : PartitionTransformer π) : Prop where
  | collecting (hphase : state.Collecting)
  | failed (hphase : state.Failed)
  | launching (hphase : state.Launching)
  | holding (streamData : StreamData) (hphase : state.Holding streamData)
  | writing (hphase : state.WritingSome)
  | written (result : List PartitionSynopsisPair) (hphase : state.AwaitingStores result)
  | replied (reply : TransformerReply) (hphase : state.Replied reply)

theorem phase_initial (transform : π) : Phase ({ transform := transform } :
    PartitionTransformer π) := by
  refine .collecting ⟨⟨⟨rfl, rfl, rfl, rfl⟩, ?_, rfl, rfl⟩, rfl, rfl, rfl, rfl, rfl, rfl, rfl, rfl⟩
  simp [storeState]

/-- Before the end of the input nothing has happened yet. -/
theorem Phase.of_not_done (hphase : Phase state) (hdone : state.doneReceived = false) :
    state.Collecting := by
  have hcontra : ¬ state.doneReceived = true := by simp [hdone]
  cases hphase with
  | collecting h => exact h
  | failed h | launching h | holding _ h | writing h | written _ h | replied _ h =>
    exact absurd h.doneReceived hcontra

/-- Only store builders that have been launched are waited for. -/
theorem Phase.of_resuming (hphase : Phase state) (hresuming : state.resuming = true) :
    state.Launching := by
  have hcontra : ¬ state.resuming = false := by simp [hresuming]
  cases hphase with
  | launching h => exact h
  | collecting h | failed h | holding _ h | writing h | written _ h | replied _ h =>
    exact absurd h.resuming hcontra

theorem Phase.deliver_error (hopen : state.Unanswered) (hreq : state.Requested)
    (error : TransformerError) : Phase (state.deliver (.error error)) := by
  refine .replied (.error error) ⟨{ hreq with }, rfl, ?_, fun _ h => by cases h⟩
  simp [deliver, hopen.replies]

theorem Phase.deliver_ok {result : List PartitionSynopsisPair} (hopen : state.Unanswered)
    (hreq : state.Requested) (hwritten : state.AllWritten result)
    (hstores : state.stores = []) : Phase (state.deliver (.ok result)) := by
  refine .replied (.ok result) ⟨{ hreq with }, rfl, ?_, fun other hother => ?_⟩
  · simp [deliver, hopen.replies]
  · cases hother
    exact ⟨{ hwritten with }, hstores⟩

section Handlers

variable [BloomFilters] {options : TransformerOptions π} {streamData : StreamData} {pos : Nat}
  {pair : PartitionSynopsisPair} {store : Uuid}

theorem Phase.fulfill (hidle : state.Idle) (hreq : state.Requested)
    (hready : state.Ready streamData) : Phase (state.fulfill options streamData) := by
  have hopen := hidle.toUnanswered
  unfold PartitionTransformer.fulfill
  split
  · exact .deliver_error hopen hreq _
  next hsome =>
    rw [hreq.transformError] at hsome
    cases hsome
  next hstream _ =>
    split
    next hzero =>
      -- Without events no partition was created and no store was launched.
      obtain ⟨hdata, hstores⟩ := hready.nothing hzero
      have hcreated : state.created = [] := by simp [created, hdata]
      refine .deliver_ok hopen hreq ?_ hstores
      exact ⟨by simp [hcreated], hidle.partitionWrites, by simp [hidle.written, hcreated],
        by simp [hidle.written]⟩
    next hevents =>
      obtain ⟨hlaunch, hchunks⟩ := hready.chunks hstream hevents
      split
      · exact .deliver_error hopen hreq _
      · exact .deliver_error hopen hreq _
      next chunks synopses hpart _ =>
        obtain ⟨hne, hids⟩ := hchunks chunks hpart
        have huuids : (chunks.map (pairOf options state.data)).map (·.uuid) = state.created := by
          rw [← hids, map_map]
          rfl
        refine .writing { hreq, hopen with
          counted := { hopen.counted with }
          shutdownState := hidle.shutdownState
          writing := ⟨?_, hlaunch, ?_, ?_⟩
          partitionWrites := ?_ }
        · simp only [writePartitions, length_map]
          exact awaits_make _ _
        · simp only [writePartitions, hidle.written, huuids]
          exact Perm.refl _
        · simp [writePartitions, hidle.written, make]
        · simpa [writePartitions] using hne

theorem Phase.storeOrFulfill (hidle : state.Idle) (hdone : state.doneReceived = true)
    (hresuming : state.resuming = false) (hawaiting : state.Awaiting)
    (htrans : state.transformError = none) (hready : state.Ready streamData) :
    Phase (state.storeOrFulfill options streamData) := by
  unfold PartitionTransformer.storeOrFulfill
  by_cases hrecv : state.persistReceived = true
  · have hpersist : state.persist = .pathData := by rw [hawaiting, if_pos hrecv]
    rw [hpersist]
    exact .fulfill hidle ⟨hdone, hresuming, hrecv, htrans⟩ hready
  · have hpersist : state.persist = .monostate := by rw [hawaiting, if_neg hrecv]
    rw [hpersist]
    exact .holding streamData ⟨hidle.update, hdone, hresuming, rfl, by simpa using hrecv,
      { hready with }, htrans⟩

/-! ## Steps -/

omit [BloomFilters] in
/-- A stream error makes any data good enough. -/
theorem Ready.of_streamError (error : TransformerError) (hevents : state.events ≠ 0)
    (streamData : StreamData) : Ready { state with streamError := some error } streamData where
  nothing := fun hzero => absurd hzero hevents
  chunks := fun hnone => by cases hnone

theorem Phase.transformed (hidle : state.Idle) (hdone : state.doneReceived = true)
    (hresuming : state.resuming = false) (hawaiting : state.Awaiting)
    (hlaunch : state.launched = []) (hstream : state.streamError = none)
    (htrans : state.transformError = none) (hbal : state.Balanced) :
    Phase (if state.events = 0 then state.storeOrFulfill options .empty
      else if options.findStorePlugin options.storeId then state.launchStores options state.data
      else
        { state with streamError := some (.noStorePlugin options.storeId) }.storeOrFulfill options
          .empty) := by
  split
  next hzero =>
    refine .storeOrFulfill hidle hdone hresuming hawaiting htrans ⟨fun _ => ?_, fun _ hne =>
      absurd hzero hne⟩
    exact ⟨hbal.data hzero, hidle.counted.stores_eq_nil hlaunch⟩
  next hevents =>
    split
    · obtain ⟨ids, hcases⟩ := launchStores_eq options state state.data
      have hidle' := hidle.withStores hlaunch ids
      rcases hcases with ⟨heq, hids⟩ | heq
      · rw [heq]
        -- A partition with events gets a store.
        have hids_ne : ids ≠ [] := by
          rintro rfl
          have hzero : partitionEvents state.data = 0 := by
            rw [partitionEvents, List.sum_eq_zero_iff_forall_eq_nat]
            simp only [mem_map, forall_exists_index, and_imp]
            rintro _ entry hentry rfl
            by_contra hpos
            exact not_mem_nil (hids entry hentry hpos)
          exact hevents (hbal.events.trans hzero)
        have hdata : state.data ≠ [] := by
          rintro hnil
          exact hevents (by rw [hbal.events, hnil]; rfl)
        refine .launching ⟨hidle'.update, hdone, rfl, hawaiting, ?_, hevents, hdata, hstream,
          htrans⟩
        simp [withStores, hids_ne]
      · rw [heq]
        apply Phase.storeOrFulfill
        exacts [hidle'.update, hdone, hresuming, hawaiting, htrans,
          Ready.of_streamError _ (show (state.withStores ids).events ≠ 0 from hevents) _]
    · apply Phase.storeOrFulfill
      exacts [hidle.update, hdone, hresuming, hawaiting, htrans, .of_streamError _ hevents _]

theorem Phase.done (hphase : Phase state) (hlegal : state.doneReceived = false) :
    Phase (step options state .done) := by
  have h := hphase.of_not_done hlegal
  have hstep : step options state .done = handleDone options { state with doneReceived := true } :=
    if_pos h.running
  rw [hstep, handleDone]
  split
  next error _ => exact .failed ⟨h.update, rfl, h.resuming, h.awaiting, h.launched, rfl⟩
  next transformed hfinish =>
    have hbal : Balanced { state with doneReceived := true } :=
      ⟨by simp [h.events, h.data, partitionEvents], fun _ => h.data⟩
    obtain ⟨data, events, heq, hres⟩ := foldl_addTransformed options hbal
      (options.pipeline.rows_ne_nil hfinish)
    rw [heq]
    exact .transformed h.update rfl h.resuming h.awaiting h.launched h.streamError
      h.transformError hres

theorem Phase.resume (hphase : Phase state) (hlegal : state.resuming = true) :
    Phase (step options state .resume) := by
  have h := hphase.of_resuming hlegal
  have hstep : step options state .resume =
      handleResume options { state with resuming := false } := if_pos h.running
  rw [hstep, handleResume]
  generalize hassigned : state.data.map (fun entry : VastType × TransformedPartition =>
    (entry.1, { entry.2 with slices := assignOffsets 0 entry.2.slices })) = data
  have hcreated : (data.map fun entry => entry.2.id) = state.created := by
    rw [← hassigned, map_map]
    rfl
  have hready : Ready { state with data := data, resuming := false } (pack options data) := by
    refine ⟨fun hzero => absurd hzero h.events, fun _ _ => ⟨h.launched, fun chunks hchunks => ?_⟩⟩
    have hids := packPartitions_ids options (pack_partitionChunks options hchunks)
    refine ⟨?_, hids⟩
    rintro rfl
    rw [hcreated, created, map_nil, nil_eq, map_eq_nil_iff] at hids
    exact h.data hids
  apply Phase.storeOrFulfill
  exacts [h.update, h.doneReceived, rfl, h.awaiting, h.transformError, hready]

theorem Phase.persist (hphase : Phase state) (hlegal : state.persistReceived = false) :
    Phase (step options state .persist) := by
  have hcontra : ¬ state.persistReceived = true := by simp [hlegal]
  have hstep : state.running = true → step options state .persist =
      handlePersist options { state with persistReceived := true } := fun hrunning =>
    if_pos hrunning
  -- While the input has not ended, the request is stored.
  have hstored : state.running = true → state.Awaiting → step options state .persist =
      { state with persistReceived := true, persist := .pathData } := by
    intro hrunning hawaiting
    have hpersist : state.persist = .monostate := by rw [hawaiting, hlegal]; rfl
    rw [hstep hrunning, handlePersist]
    simp [hpersist]
  cases hphase with
  | collecting h =>
    rw [hstored h.running h.awaiting]
    exact .collecting { h with toIdle := h.update, awaiting := rfl }
  | failed h =>
    rw [hstored h.running h.awaiting]
    exact .failed { h with toIdle := h.update, awaiting := rfl }
  | launching h =>
    rw [hstored h.running h.awaiting]
    exact .launching { h with toIdle := h.update, awaiting := rfl }
  | holding streamData h =>
    rw [hstep h.running]
    simp only [h.persist]
    apply Phase.fulfill
    exacts [h.update, ⟨h.doneReceived, h.resuming, rfl, h.transformError⟩, { h.ready with }]
  | writing h | written _ h | replied _ h => exact absurd h.persistReceived hcontra

section

omit [BloomFilters]

theorem Writing.answered (hwriting : state.Writing)
    (hpair : state.partitionWrites[pos]? = some pair) (error : Option Error) :
    ((state.written ++ [(pair.uuid, error)]).map Prod.fst ++
      (state.partitionWrites.eraseIdx pos).map (·.uuid)).Perm state.created := by
  obtain ⟨hlt, hget⟩ := List.getElem?_eq_some_iff.mp hpair
  have hperm := (getElem_cons_eraseIdx_perm hlt).map (·.uuid)
  rw [hget] at hperm
  rw [map_append, append_assoc]
  exact (hperm.append_left _).trans hwriting.written

/-- The last answer lets the transformer finish or fail. -/
theorem Phase.settleCounter (hopen : state.Unanswered) (hreq : state.Requested)
    (hshutdown : state.shutdownState = state.storeState) (hwriting : state.Writing) :
    Phase state.settleCounter := by
  rw [PartitionTransformer.settleCounter, hwriting.awaits.trigger_eq]
  by_cases hwrites : state.partitionWrites = []
  · rw [if_pos (length_eq_zero_iff.mpr hwrites), finish]
    cases herror : state.counter.lastError with
    | some error => exact .deliver_error hopen hreq _
    | none =>
      obtain ⟨hsucceeded, hres⟩ := hwriting.succeeded herror
      have hperm := hwriting.written
      rw [hwrites, map_nil, append_nil] at hperm
      have hwritten : state.AllWritten state.counter.state :=
        ⟨by rw [hres]; exact hperm, hwrites, hperm, hsucceeded⟩
      change Phase (state.finishTransformer state.counter.state)
      unfold finishTransformer
      rw [hshutdown, storeState]
      by_cases hstores : state.stores = []
      · rw [if_pos ⟨hstores, hwriting.launched⟩]
        exact .deliver_ok hopen hreq hwritten hstores
      · rw [if_neg fun h => hstores h.1]
        exact .written state.counter.state { hreq, hopen with
          counted := { hopen.counted with }
          shutdownState := rfl
          allWritten := { hwritten with }
          stores := hstores }
  · rw [if_neg (by simpa using hwrites)]
    exact .writing ⟨hopen, hreq, hshutdown, hwriting, hwrites⟩

/-- Take note of the answer to a write request. -/
def noteWritten (state : PartitionTransformer π) (position : Nat) (pair : PartitionSynopsisPair)
    (error : Option Error) : PartitionTransformer π :=
  { state with
    partitionWrites := state.partitionWrites.eraseIdx position
    written := state.written ++ [(pair.uuid, error)] }

theorem Writing.receive (hwriting : state.Writing)
    (hpair : state.partitionWrites[pos]? = some pair) (error : Option Error) :
    Writing { state.noteWritten pos pair error with
      counter := countAnswer state.counter pair error } := by
  obtain ⟨hlt, -⟩ := List.getElem?_eq_some_iff.mp hpair
  have hawaits := hwriting.awaits
  rw [← length_eraseIdx_add_one hlt] at hawaits
  cases error with
  | none =>
    refine ⟨(hawaits.mapState _).countSuccess, hwriting.launched, hwriting.answered hpair none,
      fun hnone => ?_⟩
    obtain ⟨hsucceeded, hres⟩ := hwriting.succeeded hnone
    constructor
    · change ∀ answer ∈ state.written ++ [(pair.uuid, none)], answer.2 = none
      rw [forall_mem_append]
      exact ⟨hsucceeded, by simp⟩
    · simp [noteWritten, countAnswer, countSuccess, mapState, hres]
  | some error =>
    refine ⟨hawaits.countError error, hwriting.launched, hwriting.answered hpair (some error),
      fun hnone => ?_⟩
    cases hnone

end

theorem Phase.wrotePartition (hphase : Phase state)
    (hlegal : pos < state.partitionWrites.length) (error : Option Error) :
    Phase (step options state (.wrotePartition pos error)) := by
  have hcontra : ¬ state.partitionWrites = [] := ne_nil_of_length_pos (by omega)
  have hpair : state.partitionWrites[pos]? = some state.partitionWrites[pos] :=
    getElem?_eq_getElem hlegal
  generalize state.partitionWrites[pos] = pair at hpair
  cases hphase with
  | collecting h | failed h | launching h | holding _ h => exact absurd h.partitionWrites hcontra
  | written _ h => exact absurd h.allWritten.partitionWrites hcontra
  | writing h =>
    have hstep : step options state (.wrotePartition pos error) =
        handleWritten (state.noteWritten pos pair error) pair error := by
      simp only [step, hpair]
      exact if_pos h.running
    rw [hstep]
    apply Phase.settleCounter
    exacts [⟨h.running, h.replies, { h.counted with }⟩, { h with }, h.shutdownState,
      h.writing.receive hpair error]
  | replied reply h =>
    have hstep : step options state (.wrotePartition pos error) =
        state.noteWritten pos pair error := by
      simp only [step, hpair]
      exact if_neg (by simp [h.running])
    rw [hstep]
    exact .replied reply { h with
      result := fun result hreply => absurd (h.result result hreply).1.partitionWrites hcontra }

def noteDown (state : PartitionTransformer π) (position : Nat) (store : Uuid)
    (reason : Option Error) : PartitionTransformer π :=
  { state with
    stores := state.stores.eraseIdx position
    downs := state.downs ++ [(store, reason)] }

def countDown (state : PartitionTransformer π) (position : Nat) (store : Uuid)
    (reason : Option Error) (shutdown : ShutdownState) : PartitionTransformer π :=
  { state.noteDown position store reason with
    storesFinished := state.storesFinished + 1
    shutdownState := shutdown }

omit [BloomFilters] in
theorem Unanswered.down (hopen : state.Unanswered) (hlt : pos < state.stores.length)
    (reason : Option Error) (shutdown : ShutdownState) :
    (state.countDown pos store reason shutdown).Unanswered := by
  have hlen := length_eraseIdx_add_one hlt
  have hfinished := hopen.counted.storesFinished
  refine ⟨hopen.running, hopen.replies, ?_, hopen.counted.launched⟩
  simp only [countDown, noteDown]
  omega

/-- A store that goes down is counted. The last one is noted, or answers the request if
the transformer is finished already. -/
theorem step_down (options : TransformerOptions π) (hopen : state.Unanswered)
    (hstore : state.stores[pos]? = some store) (reason : Option Error) :
    step options state (.down pos reason) =
      if state.stores.eraseIdx pos = [] then
        (state.countDown pos store reason state.shutdownState).finishStores
      else state.countDown pos store reason state.shutdownState := by
  obtain ⟨hlt, -⟩ := List.getElem?_eq_some_iff.mp hstore
  have hlen := length_eraseIdx_add_one hlt
  have hfinished := hopen.counted.storesFinished
  have hstep : step options state (.down pos reason) =
      handleDown (state.noteDown pos store reason) := by
    simp only [step, hstore]
    exact if_pos hopen.running
  have hiff : state.storesLaunched ≤ state.storesFinished + 1 ↔
      state.stores.eraseIdx pos = [] := by
    rw [← length_eq_zero_iff]
    omega
  rw [hstep]
  unfold handleDown
  simp only [noteDown, hiff]
  rfl

/-- Before the transformer is finished, the end of a store only shows in the joint. -/
theorem step_down_of_storeState (options : TransformerOptions π) (hopen : state.Unanswered)
    (hshutdown : state.shutdownState = state.storeState)
    (hstore : state.stores[pos]? = some store) (reason : Option Error) :
    ∃ shutdown, step options state (.down pos reason) = state.countDown pos store reason shutdown ∧
      shutdown = storeState (state.countDown pos store reason shutdown) := by
  obtain ⟨hlt, -⟩ := List.getElem?_eq_some_iff.mp hstore
  have hstores : state.stores ≠ [] := ne_nil_of_length_pos (by omega)
  have hlaunch : state.launched ≠ [] := by
    have hcount := hopen.counted.launched
    have hfinished := hopen.counted.storesFinished
    exact ne_nil_of_length_pos (by omega)
  have hmono : state.shutdownState = .monostate := by
    rw [hshutdown, storeState, if_neg fun h => hstores h.1]
  rw [step_down options hopen hstore]
  by_cases hlast : state.stores.eraseIdx pos = []
  · refine ⟨.storesAreFinished, ?_, ?_⟩
    · rw [if_pos hlast, hmono]
      rfl
    · simp [storeState, countDown, noteDown, hlast, hlaunch]
  · refine ⟨.monostate, ?_, ?_⟩
    · rw [if_neg hlast, hmono]
    · simp [storeState, countDown, noteDown, hlast]

theorem Phase.down (hphase : Phase state) (hlegal : pos < state.stores.length)
    (reason : Option Error) : Phase (step options state (.down pos reason)) := by
  have hstore : state.stores[pos]? = some state.stores[pos] :=
    getElem?_eq_getElem hlegal
  generalize state.stores[pos] = store at hstore
  have hne : state.stores ≠ [] := ne_nil_of_length_pos (by omega)
  -- The phases in which nothing is written stay idle.
  have hidle_down : state.Idle → ∃ shutdown, step options state (.down pos reason) =
      state.countDown pos store reason shutdown ∧
      (state.countDown pos store reason shutdown).Idle := by
    intro hidle
    obtain ⟨shutdown, heq, hshutdown⟩ := step_down_of_storeState options hidle.toUnanswered
      hidle.shutdownState hstore reason
    exact ⟨shutdown, heq, hidle.toUnanswered.down hlegal _ _, hshutdown, hidle.partitionWrites,
      hidle.written⟩
  cases hphase with
  | collecting h | failed h => exact absurd (h.counted.stores_eq_nil h.launched) hne
  | launching h =>
    obtain ⟨shutdown, heq, hidle⟩ := hidle_down h.toIdle
    rw [heq]
    exact .launching { h with toIdle := hidle }
  | holding streamData h =>
    obtain ⟨shutdown, heq, hidle⟩ := hidle_down h.toIdle
    rw [heq]
    refine .holding streamData { h with toIdle := hidle, ready := ⟨fun hzero => ?_, h.ready.2⟩ }
    obtain ⟨hdata, hstores⟩ := h.ready.nothing hzero
    exact absurd hstores hne
  | writing h =>
    obtain ⟨shutdown, heq, hjoint⟩ := step_down_of_storeState options h.toUnanswered
      h.shutdownState hstore reason
    rw [heq]
    exact .writing { h with
      toUnanswered := h.toUnanswered.down hlegal _ _
      shutdownState := hjoint
      writing := { h.writing with } }
  | written result h =>
    have hopen : ∀ shutdown, (state.countDown pos store reason shutdown).Unanswered :=
      h.toUnanswered.down hlegal reason
    rw [step_down options h.toUnanswered hstore]
    split
    next hlast =>
      simp only [h.shutdownState]
      exact .deliver_ok (hopen _) { h with } { h.allWritten with } hlast
    next hmore =>
      exact .written result { h with
        toUnanswered := hopen _
        allWritten := { h.allWritten with }
        stores := hmore }
  | replied reply h =>
    have hstep : step options state (.down pos reason) =
        state.noteDown pos store reason := by
      simp only [step, hstore]
      exact if_neg (by simp [h.running])
    rw [hstep]
    exact .replied reply { h with
      result := fun result hreply => absurd (h.result result hreply).2 hne }

omit [BloomFilters] in
/-- No phase depends on the state of the pipeline or on the writes of synopses. -/
theorem Phase.update (hphase : Phase state) (transform : π) (synopsisWrites : List Uuid) :
    Phase { state with transform := transform, synopsisWrites := synopsisWrites } := by
  cases hphase with
  | collecting h => exact .collecting { h with toIdle := h.update }
  | failed h => exact .failed { h with toIdle := h.update }
  | launching h => exact .launching { h with toIdle := h.update }
  | holding streamData h =>
    exact .holding streamData { h with toIdle := h.update, ready := { h.ready with } }
  | writing h =>
    exact .writing { h with counted := { h.counted with }, writing := { h.writing with } }
  | written result h =>
    exact .written result { h with
      counted := { h.counted with }
      allWritten := { h.allWritten with } }
  | replied reply h =>
    refine .replied reply { h with result := fun result hreply => ?_ }
    obtain ⟨hwritten, hstores⟩ := h.result result hreply
    exact ⟨{ hwritten with }, hstores⟩

theorem Phase.step (state : PartitionTransformer π) (message : Message) (hphase : Phase state)
    (hlegal : state.Legal message) : Phase (step options state message) := by
  cases message with
  | slice slice =>
    simp only [PartitionTransformer.step]
    split
    · exact hphase.update _ _
    · exact hphase
  | done => exact hphase.done hlegal
  | resume => exact hphase.resume hlegal
  | persist => exact hphase.persist hlegal
  | wroteSynopsis pos error => exact hphase.update _ _
  | wrotePartition pos error => exact hphase.wrotePartition hlegal error
  | down pos reason => exact hphase.down hlegal reason

theorem phase_run {messages : List Message} (hreceives : Receives options transform messages) :
    Phase (run options transform messages) :=
  Run.invariant Phase Phase.step (phase_initial transform) hreceives

end Handlers

end PartitionTransformer

end Vast
