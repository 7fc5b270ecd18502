import Vast.Foundation.Locks
import Vast.Transform.Apply
import Vast.Transform.OperatorPipeline

/-! # Partitions in transformation

A request to apply a pipeline holds its partitions from the moment it is
accepted. Whenever its promise is fulfilled, the partitions are released, except
when the files of the new partitions cannot be renamed.
-/

namespace Vast

open Foundation List PartitionInfo TransformingIndex ApplyRequest PartitionSynopsis Option

namespace TransformingIndex

variable {π : Type} {state : TransformingIndex π} {requests : List (ApplyRequest π)}
  {position : Nat} {change : ApplyRequest π → ApplyRequest π} {request : ApplyRequest π}

/-! ## Requests as holders -/

def holder (request : ApplyRequest π) : Holder Uuid :=
  ⟨request.oldPartitionIds, request.stage.isOpen⟩

/-- The partitions of open requests are in transformation, every one for one request,
and no request is without partitions. -/
structure Holds (state : TransformingIndex π) : Prop where
  locked : Locked (state.requests.map holder) state.partitionsInTransformation
  nonempty : ∀ request ∈ state.requests, request.partitions ≠ []

/-- What a request is given was not in transformation. -/
structure Enlisted (noted : List Uuid) (infos : List PartitionInfo)
    (taken : List Uuid × List PartitionInfo) : Prop where
  noted_eq : taken.1 = noted ++ taken.2.map uuid
  nodup : (taken.2.map uuid).Nodup
  free : ∀ info ∈ taken.2, info.uuid ∉ noted
  selected : ∀ info ∈ taken.2, info ∈ infos

theorem enlisted_foldl (infos : List PartitionInfo) (noted : List Uuid) :
    Enlisted noted infos (infos.foldl enlist (noted, [])) := by
  apply foldlRecOn infos enlist
  · constructor <;> simp
  · intro taken htaken info hinfo
    rw [enlist]
    split
    · exact htaken
    next hnew =>
      rw [htaken.noted_eq, mem_append, not_or] at hnew
      constructor
      · simp [htaken.noted_eq]
      · rw [map_append, map_singleton, ← concat_eq_append]
        exact htaken.nodup.concat hnew.2
      · exact forall_mem_concat htaken.free hnew.1
      · exact forall_mem_concat htaken.selected hinfo

/-- The partitions that are noted for a request are new, and among those that are selected. -/
theorem enlistAll_eq (state : TransformingIndex π) (selected : List PartitionInfo) :
    ∃ taken : List PartitionInfo, state.enlistAll selected =
        (state.partitionsInTransformation ++ taken.map uuid, taken) ∧ (taken.map uuid).Nodup ∧
      (∀ info ∈ taken, info.uuid ∉ state.partitionsInTransformation) ∧
      ∀ info ∈ taken, info ∈ selected := by
  obtain ⟨heq, hnodup, hfree, hmem⟩ := enlisted_foldl
    (selected.filter fun info => info.uuid ∈ state.persistedPartitions)
    state.partitionsInTransformation
  exact ⟨_, Prod.ext heq rfl, hnodup, hfree, fun info hinfo => mem_of_mem_filter (hmem info hinfo)⟩

theorem map_holder_modify {give : Holder Uuid → Holder Uuid}
    (hchange : ∀ request, requests[position]? = some request →
      holder (change request) = give (holder request)) :
    (requests.modify position change).map holder = (requests.map holder).modify position give := by
  apply ext_getElem?
  intro other
  rw [getElem?_map, getElem?_modify, getElem?_modify, getElem?_map]
  cases hreq : requests[other]? with
  | none => rfl
  | some request =>
    by_cases heq : position = other
    · subst heq
      simp [hchange request hreq]
    · simp [heq]

theorem forall_mem_modify {property : ApplyRequest π → Prop}
    (hreqs : ∀ request ∈ requests, property request)
    (hchange : ∀ request, requests[position]? = some request → property request →
      property (change request)) :
    ∀ request ∈ requests.modify position change, property request := by
  intro request hmem
  obtain ⟨other, hother⟩ := mem_iff_getElem?.mp hmem
  rw [getElem?_modify] at hother
  obtain ⟨original, horiginal, rfl⟩ := map_eq_some_iff.mp hother
  have hprop := hreqs original (mem_of_getElem? horiginal)
  split
  next heq => exact hchange original (heq ▸ horiginal) hprop
  · exact hprop

theorem Holds.modify (hholds : state.Holds)
    (hparts : ∀ request, (change request).partitions = request.partitions)
    (hopen : ∀ request, state.requests[position]? = some request →
      (change request).stage.isOpen = request.stage.isOpen) :
    Holds { state with requests := state.requests.modify position change } := by
  constructor
  · have hsame : (state.requests.modify position change).map holder =
        (state.requests.map holder).modify position id := by
      refine map_holder_modify fun request hreq => ?_
      simp [holder, oldPartitionIds, hparts, hopen request hreq]
    rw [modify_id] at hsame
    simp only [hsame]
    exact hholds.locked
  · refine forall_mem_modify hholds.nonempty fun request _ hne => ?_
    rw [hparts]
    exact hne

/-- A request that is answered holds nothing, whatever happens to the note. -/
theorem Holds.answered (hholds : state.Holds) (hreq : state.requests[position]? = some request)
    (hopen : request.stage.isOpen = true) (reply : ApplyReply) {remaining : List Uuid}
    (hrem : ∀ id ∈ state.partitionsInTransformation, id ∉ request.oldPartitionIds →
      id ∈ remaining) : Holds { state.setStage position (.answered reply) with
      partitionsInTransformation := remaining } := by
  have hholder : (state.requests.map holder)[position]? = some (holder request) := by
    rw [getElem?_map, hreq]
    rfl
  constructor
  · have hclosed : ((state.setStage position (.answered reply)).requests).map holder =
        (state.requests.map holder).modify position fun holder => ⟨holder.items, false⟩ :=
      map_holder_modify fun _ _ => rfl
    simp only [hclosed]
    exact hholds.locked.giveUp hholder hopen hrem
  · exact forall_mem_modify hholds.nonempty fun _ _ hne => hne

theorem Holds.apply (hholds : state.Holds) (std : QueryQueue.PrioritySort)
    (selected : List PartitionInfo) (keep : Bool) (transformId : Uuid) (client : Actor)
    (transform : π) (acquire : Uuid → Bool) :
    Holds (state.apply std selected keep transformId client transform acquire) := by
  obtain ⟨taken, henlist, -, hfree, -⟩ := state.enlistAll_eq selected
  unfold TransformingIndex.apply
  rw [henlist]
  simp only
  split
  · exact hholds
  next hne =>
    constructor
    · rw [map_append]
      refine hholds.locked.acquire fun id hid => ?_
      obtain ⟨info, hinfo, rfl⟩ := mem_map.mp hid
      exact hfree info hinfo
    · rw [forall_mem_append]
      exact ⟨hholds.nonempty, by simpa using hne⟩

/-! ## Answers -/

def Event.addressee : Event π → Option Nat
  | .persisted position | .answer position _ => some position
  | _ => none

/-- The answer says that the files of the new partitions were not renamed. -/
def FailsToRename (request : ApplyRequest π) (error : Option Error) : Prop :=
  ∃ apsv, request.stage = .movingFiles apsv ∧ error.isSome = true

def advance (stage : ApplyStage) (erasures : ApplyRequest π → List Uuid)
    (request : ApplyRequest π) : ApplyRequest π :=
  { request with stage := stage, erasures := erasures request }

/-- What an answer does for a request. The request moves on, or its promise is fulfilled,
with or without its partitions being released. -/
inductive Advances (position : Nat) (request : ApplyRequest π) (error : Option Error)
    (state : TransformingIndex π) : TransformingIndex π → Prop where
  | move (persisted : List Uuid) (stage : ApplyStage) (erasures : ApplyRequest π → List Uuid)
      (hstage : stage.isOpen = true) : Advances position request error state { state with
        persistedPartitions := persisted
        requests := state.requests.modify position (advance stage erasures) }
  | release (persisted : List Uuid) (reply : ApplyReply) (hrenamed : ¬FailsToRename request error) :
      Advances position request error state
        (deliver position request reply { state with persistedPartitions := persisted })
  | retain (reply : ApplyReply) (hfailed : FailsToRename request error) :
      Advances position request error state (state.setStage position (.answered reply))

variable {next : TransformingIndex π} {error : Option Error}

theorem advances_handlePersisted (reply : TransformerReply)
    (hstage : request.stage = .transforming) :
    state.Advances position request none (state.handlePersisted position request reply) := by
  cases reply with
  | ok apsv => exact .move _ _ erasures rfl
  | error error =>
    refine .release _ _ ?_
    rintro ⟨apsv, hmoving, -⟩
    rw [hstage] at hmoving
    cases hmoving

theorem advances_handleAnswer (hawaits : request.stage.awaitsAnswer = true) (error : Option Error) :
    state.Advances position request error (state.handleAnswer position request error) := by
  -- Only the files are renamed.
  have hother : (∀ apsv, request.stage ≠ .movingFiles apsv) → ¬FailsToRename request error :=
    fun hne hfailed => hfailed.elim fun apsv hmoving => hne apsv hmoving.1
  unfold handleAnswer
  cases hstage : request.stage with
  | transforming | answered reply =>
    rw [hstage] at hawaits
    cases hawaits
  | writingMarker apsv | replacing apsv =>
    cases error with
    | none => exact .move _ _ _ rfl
    | some error => exact .release _ _ (hother (by simp [hstage]))
  | merging apsv | erasing apsv =>
    cases error with
    | none | some error => exact .release _ _ (hother (by simp [hstage]))
  | movingFiles apsv =>
    unfold handleRenamed
    cases error with
    | some error => exact .retain _ ⟨apsv, hstage, rfl⟩
    | none =>
      simp only
      split
      · split
        · refine .release _ _ ?_
          rintro ⟨moved, -, hsome⟩
          cases hsome
        · exact .move _ _ erasures rfl
      · exact .move _ _ erasures rfl

theorem Advances.requests_eq (hadvances : state.Advances position request error next) :
    next.index = state.index ∧ next.delivered = state.delivered ∧
      ∃ stage erasures, next.requests = state.requests.modify position
        (advance stage erasures) := by
  cases hadvances with
  | move persisted stage erasures hstage => exact ⟨rfl, rfl, stage, erasures, rfl⟩
  | release persisted reply hrenamed | retain reply hfailed =>
    exact ⟨rfl, rfl, .answered reply, erasures, rfl⟩

theorem Holds.advances (hholds : state.Holds) (hreq : state.requests[position]? = some request)
    (hopen : request.stage.isOpen = true)
    (hadvances : state.Advances position request error next) : next.Holds := by
  cases hadvances with
  | move persisted stage erasures hstage =>
    have hnoted : Holds { state with persistedPartitions := persisted } :=
      ⟨hholds.locked, hholds.nonempty⟩
    refine hnoted.modify (fun _ => rfl) fun other hother => ?_
    rw [show state.requests[position]? = some other from hother] at hreq
    cases hreq
    rw [hopen]
    exact hstage
  | release persisted reply hrenamed =>
    have hnoted : Holds { state with persistedPartitions := persisted } :=
      ⟨hholds.locked, hholds.nonempty⟩
    refine hnoted.answered hreq hopen reply fun id hid hother => ?_
    exact mem_filter.mpr ⟨hid, decide_eq_true hother⟩
  | retain reply hfailed => exact hholds.answered hreq hopen reply fun id hid _ => hid

/-- When a request is closed, its partitions are released, unless the answer says that the
files were not renamed. -/
theorem Advances.releases_iff {closed : ApplyRequest π}
    (hadvances : state.Advances position request error next) (hholds : state.Holds)
    (hreq : state.requests[position]? = some request) (hopen : request.stage.isOpen = true)
    (hclosed : next.requests[position]? = some closed) (hstage : closed.stage.isOpen = false) :
    (∀ id ∈ request.oldPartitionIds, id ∉ next.partitionsInTransformation) ↔
      ¬FailsToRename request error := by
  cases hadvances with
  | move persisted stage erasures hmoved =>
    rw [getElem?_modify_eq, hreq] at hclosed
    cases hclosed
    rw [show stage.isOpen = false from hstage] at hmoved
    cases hmoved
  | release persisted reply hrenamed =>
    refine iff_of_true (fun id hid hmem => ?_) hrenamed
    exact of_decide_eq_true (mem_filter.mp hmem).2 hid
  | retain reply hfailed =>
    refine iff_of_false (fun hreleased => ?_) (fun hnot => hnot hfailed)
    -- The partitions are still noted, and there is at least one.
    have hholder : (state.requests.map holder)[position]? = some (holder request) := by
      rw [getElem?_map, hreq]
      rfl
    obtain ⟨info, hinfo⟩ := exists_mem_of_ne_nil _
      (hholds.nonempty request (mem_of_getElem? hreq))
    have hid : info.uuid ∈ request.oldPartitionIds := mem_map_of_mem hinfo
    exact hreleased info.uuid hid
      (hholds.locked.noted_of_held position _ hholder hopen info.uuid hid)

section Steps

variable [BloomFilters] {options : TransformerOptions π} {schemaOf : Uuid → VastType}
  {event : Event π}

/-- An answer advances the request that it is about. The transformer of the request has
replied before. -/
theorem advances_step (options : TransformerOptions π) (hlegal : state.Legal schemaOf event)
    (haddressee : event.addressee = some position) :
    ∃ request error, state.requests[position]? = some request ∧ request.stage.isOpen = true ∧
      (request.stage ≠ .transforming ∨ request.transformer.replies ≠ []) ∧
      state.Advances position request error (step options state event) ∧
      (FailsToRename request error ↔
        ∃ apsv error, request.stage = .movingFiles apsv ∧ event = .answer position
          (some error)) := by
  cases event with
  | persisted other =>
    cases haddressee
    obtain ⟨request, hreq, hstage, hreplies⟩ := hlegal
    rw [mem_def] at hreq
    obtain ⟨reply, rest, hreply⟩ := exists_cons_of_ne_nil hreplies
    simp only [step, hreq, hreply]
    refine ⟨request, none, rfl, by rw [hstage]; rfl, Or.inr hreplies,
      advances_handlePersisted reply hstage, ?_⟩
    simp [FailsToRename]
  | answer other error =>
    cases haddressee
    obtain ⟨request, hreq, hawaits⟩ := hlegal
    rw [mem_def] at hreq
    simp only [step, hreq]
    refine ⟨request, error, rfl, ?_, Or.inl fun hstage => ?_,
      advances_handleAnswer hawaits error, ?_⟩
    · cases hstage : request.stage <;> rw [hstage] at hawaits <;> first | rfl | cases hawaits
    · rw [hstage] at hawaits
      cases hawaits
    · cases error <;> simp [FailsToRename]
  | _ => cases haddressee

theorem Holds.step (state : TransformingIndex π) (event : Event π) (hholds : state.Holds)
    (hlegal : state.Legal schemaOf event) : Holds (step options state event) := by
  cases event with
  | apply std selected keep transformId client transform acquire =>
    exact hholds.apply std selected keep transformId client transform acquire
  | schedule event | reply lookup qid acquire complete | erase pid | persist pid =>
    exact ⟨hholds.locked, hholds.nonempty⟩
  | transformer position message => exact hholds.modify (fun _ => rfl) fun _ _ => rfl
  | persisted position | answer position error =>
    obtain ⟨request, error, hreq, hopen, -, hadvances, -⟩ := advances_step options hlegal rfl
    exact hholds.advances hreq hopen hadvances

/-- A request stays in its stage unless the event is an answer for it. -/
theorem stage_of_not_addressed (options : TransformerOptions π)
    (hreq : state.requests[position]? = some request) (hlegal : state.Legal schemaOf event)
    (hother : event.addressee ≠ some position) :
    ∃ next, (step options state event).requests[position]? = some next ∧
      next.stage = request.stage := by
  cases event with
  | apply std selected keep transformId client transform acquire =>
    simp only [step, apply]
    split
    · exact ⟨request, hreq, rfl⟩
    · obtain ⟨hlt, -⟩ := List.getElem?_eq_some_iff.mp hreq
      refine ⟨request, ?_, rfl⟩
      rw [List.getElem?_append_left hlt]
      exact hreq
  | schedule event | reply lookup qid acquire complete | erase pid | persist pid =>
    exact ⟨request, hreq, rfl⟩
  | transformer other message =>
    simp only [step, getElem?_modify, hreq]
    refine ⟨_, rfl, ?_⟩
    split <;> rfl
  | persisted other | answer other error =>
    have hne : other ≠ position := fun heq => hother (congrArg some heq)
    obtain ⟨addressed, error, -, -, -, hadvances, -⟩ := advances_step options hlegal rfl
    obtain ⟨-, -, stage, erasures, hreqs⟩ := hadvances.requests_eq
    refine ⟨request, ?_, rfl⟩
    rw [hreqs, getElem?_modify_ne _ _ hne, hreq]

/-- An event that fulfills the promise of a request releases the partitions that the
request has added to those in transformation, if and only if it is not the failure to
rename the files of the new partitions. -/
theorem released_iff (options : TransformerOptions π) (schemaOf : Uuid → VastType)
    (limit : UInt64) (persistedPartitions : List Uuid) (events : List (Event π))
    (hrun : Run.Admissible (step options) (Legal schemaOf) (start limit persistedPartitions)
      events) (event : Event π)
    (hlegal : Legal schemaOf (events.foldl (step options) (start limit persistedPartitions))
      event) (position : Nat) (request next : ApplyRequest π)
    (hrequest : (events.foldl (step options) (start limit persistedPartitions)).requests[position]?
      = some request) (hopen : request.stage.isOpen = true)
    (hnext : ((events ++ [event]).foldl (step options)
      (start limit persistedPartitions)).requests[position]? = some next)
    (hclosed : next.stage.isOpen = false) :
    (∀ id ∈ request.oldPartitionIds, id ∉ ((events ++ [event]).foldl (step options)
      (start limit persistedPartitions)).partitionsInTransformation) ↔
    ¬ ∃ apsv error, request.stage = .movingFiles apsv ∧ event = .answer position (some error) := by
  have hholds : Holds (events.foldl (step options) (start limit persistedPartitions)) :=
    Run.invariant Holds Holds.step ⟨.nil _, by simp [start]⟩ hrun
  rw [foldl_append, foldl_cons, foldl_nil] at hnext ⊢
  by_cases haddressed : event.addressee = some position
  · obtain ⟨found, error, hfound, -, -, hadvances, hfailed⟩ :=
      advances_step options hlegal haddressed
    rw [hrequest] at hfound
    cases hfound
    rw [hadvances.releases_iff hholds hrequest hopen hnext hclosed, hfailed]
  · obtain ⟨other, hother, hstage⟩ :=
      stage_of_not_addressed options hrequest hlegal haddressed
    rw [hother] at hnext
    cases hnext
    rw [hstage, hopen] at hclosed
    cases hclosed

/-- In every run, the partitions of a request that is not answered yet are noted as in
transformation, and no two such requests transform the same partition. -/
theorem transforms_exclusive (options : TransformerOptions π) (schemaOf : Uuid → VastType)
    (limit : UInt64) (persisted : List Uuid) (events : List (Event π))
    (hrun : Run.Admissible (step options) (Legal schemaOf) (start limit persisted) events) :
    let state := events.foldl (step options) (start limit persisted)
    (∀ request ∈ state.requests, request.stage.isOpen = true →
        request.oldPartitionIds ⊆ state.partitionsInTransformation) ∧
      state.requests.Pairwise fun left right => left.stage.isOpen = true →
        right.stage.isOpen = true → left.oldPartitionIds.Disjoint right.oldPartitionIds := by
  intro state
  have hholds : state.Holds := Run.invariant Holds Holds.step ⟨.nil _, by simp [start]⟩ hrun
  constructor
  · intro request hmem hopen
    obtain ⟨position, hreq⟩ := mem_iff_getElem?.mp hmem
    exact hholds.locked.noted_of_held position (holder request) (by simp [hreq]) hopen
  · rw [pairwise_iff_getElem]
    intro first second hfirst hsecond hlt hleft hright
    exact hholds.locked.exclusive first second _ _ (by simp [hfirst]; rfl)
      (by simp [hsecond]; rfl) hleft hright hlt.ne

end Steps

/-! ## A request for one partition -/

/-- The pipeline has no operators. -/
def sampleOptions : TransformerOptions PipelineQueue where
  pipeline := OperatorPipeline.toPipeline ({} : OperatorPipeline Unit)
  partitionCapacity := 8
  partitionVersion := 1
  synopsisOpts := ⟨[], 0⟩
  storeId := "feather"
  precedes := fun _ _ => false
  random := fun count => BitVec.ofNat 128 (count + 100)
  findStorePlugin := fun _ => true
  makeStoreBuilder := fun _ => true
  packFull := fun _ _ => .ok []
  packSynopsis := fun _ => .ok (some [])

def sampleInfo : PartitionInfo :=
  ⟨7, 1, 0, .none, 1⟩

/-- The partition cannot be loaded, so the transformer has nothing to transform. -/
def sampleEvents : List (Event PipelineQueue) :=
  [.apply .insertion [sampleInfo] false 1 ⟨1⟩ {} fun _ => false,
    .transformer 0 .persist, .transformer 0 .done, .persisted 0, .answer 0 none]

def sampleRun (events : List (Event PipelineQueue)) : TransformingIndex PipelineQueue :=
  events.foldl (@step _ PartitionSynopsis.exactFilters sampleOptions) (start 1 [7])

theorem sampleEvents_admissible :
    Run.Admissible (@step _ exactFilters sampleOptions) (Legal fun _ => .none)
      (start 1 [7]) sampleEvents := by
  refine ⟨⟨by decide, rfl, rfl, by decide, fun _ _ hnone => ?_, by decide⟩,
    ⟨_, rfl, rfl, fun hdone => ?_⟩, ⟨_, rfl, rfl, fun _ => by decide⟩,
    ⟨_, rfl, rfl, cons_ne_nil _ _⟩, ⟨_, rfl, rfl⟩, trivial⟩
  · cases hnone
  · cases hdone

def overlappingEvents : List (Event PipelineQueue) :=
  [.apply .insertion [sampleInfo] false 1 ⟨1⟩ {} fun _ => false,
    .apply .insertion [sampleInfo, ⟨8, 1, 0, .none, 1⟩] false 2 ⟨2⟩ {} fun _ => false]

/-- Of two requests for the same partition, the second one gets only the other partition. -/
theorem overlapping_requests_exclusive :
    let state := overlappingEvents.foldl (@step _ exactFilters sampleOptions) (start 1 [7, 8])
    state.requests.map oldPartitionIds = [[7], [8]] ∧
      state.requests.Pairwise fun left right => left.stage.isOpen = true →
        right.stage.isOpen = true → left.oldPartitionIds.Disjoint right.oldPartitionIds := by
  refine ⟨rfl, (@transforms_exclusive _ exactFilters sampleOptions (fun _ => .none) 1 [7, 8]
    overlappingEvents ⟨⟨by decide, rfl, rfl, by decide, fun _ _ hnone => ?_, by decide⟩,
      ⟨by decide, rfl, rfl, by decide, fun qid record hsome => ?_, by decide⟩, trivial⟩).2⟩
  · cases hnone
  · -- The first query is inserted, scheduled and done.
    have hqueries : ∃ first second, Function.update (Function.update (Function.update
        (fun _ => Option.none) 1 (some first)) 1 (some second)) 1 Option.none qid =
          some record := ⟨_, _, hsome⟩
    simp at hqueries

/-- The files cannot be renamed, and the partition stays in transformation. -/
theorem failed_rename_keeps_partition :
    Run.Admissible (@step _ exactFilters sampleOptions) (Legal fun _ => .none)
        (start 1 [7]) (sampleEvents ++ [.answer 0 (some ⟨.unspecified, "rename"⟩)]) ∧
      ((sampleRun (sampleEvents ++ [.answer 0 (some ⟨.unspecified, "rename"⟩)])).requests.map
        fun request => request.stage.isOpen) = [false] ∧ (sampleRun (sampleEvents ++
        [.answer 0 (some ⟨.unspecified, "rename"⟩)])).partitionsInTransformation = [7] :=
  ⟨Run.admissible_append.mpr ⟨sampleEvents_admissible, ⟨_, rfl, rfl⟩, trivial⟩, rfl, rfl⟩

/-- The marker cannot be written, and the partition is released. -/
theorem failed_marker_releases_partition : 7 ∉ (sampleRun (sampleEvents.take 4 ++
      [.answer 0 (some ⟨.unspecified, "write"⟩)])).partitionsInTransformation := by
  refine (@released_iff _ exactFilters sampleOptions (fun _ => .none) 1 [7]
    (sampleEvents.take 4) ?_ (.answer 0 (some ⟨.unspecified, "write"⟩)) ⟨_, rfl, rfl⟩ 0 _ _ rfl rfl
    rfl rfl).mpr ?_ 7 mem_cons_self
  · exact (Run.admissible_append.mp (show Run.Admissible _ _ _
      (sampleEvents.take 4 ++ sampleEvents.drop 4) from sampleEvents_admissible)).1
  · rintro ⟨apsv, error, hstage, -⟩
    cases hstage

end TransformingIndex

end Vast
