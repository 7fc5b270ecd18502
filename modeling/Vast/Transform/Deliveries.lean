import Vast.Index.Candidates
import Vast.Index.Watched
import Vast.Transform.ApplyRun
import Vast.Transform.TransformerReply

/-! # Rows of transformed partitions

The transformer of a request is told that its input has ended when all partitions
of the request have completed. From then on no partition sends it anything. But a
partition also completes when it cannot be loaded, when it was erased, or when the
query on it fails, and the index erases it all the same.
-/

namespace Vast

open Foundation List PartitionTransformer TransformingIndex IndexState AssocList CandidateInfo

namespace TransformingIndex

variable {π : Type} {state : TransformingIndex π} {schemaOf : Uuid → VastType} {limit : UInt64}
  {partitions : List PartitionInfo} {index : IndexState} {transformId : Uuid}
  {request : ApplyRequest π} {event : IndexState.Event} {pos : Nat}

/-! ## The query of a request -/

def issuedOf (partitions : List PartitionInfo) : List (Uuid × VastType) :=
  partitions.map fun info => (info.uuid, info.schema)

theorem addInfo_listed {issued : List (Uuid × VastType)}
    {infos : List (VastType × CandidateInfo)} {info : PartitionInfo}
    (hlisted : Listed issued infos) (hnew : info.uuid ∉ issued.map Prod.fst) :
    Listed (issued ++ [(info.uuid, info.schema)]) (addInfo infos info) := by
  have hemplace := hlisted.emplace info.schema .none
  have huuids : ∀ found : CandidateInfo,
      uuids { found with partitionInfos := found.partitionInfos ++ [info] } =
        found.uuids ++ [info.uuid] := by
    simp [uuids]
  constructor
  · rw [addInfo, keys_adjust]
    exact hemplace.keys
  · refine forall_mem_adjust (fun found hfound => ?_)
      fun entry hentry _ => hemplace.distinct entry hentry
    rw [huuids, nodup_append]
    refine ⟨hemplace.distinct _ hfound, by simp, fun id hid other hother heq => hnew ?_⟩
    rw [mem_singleton.mp hother] at heq
    rw [← heq]
    exact mem_map_of_mem (hemplace.issued _ hfound id hid)
  · refine forall_mem_adjust (fun found hfound id hid => ?_)
      fun entry hentry _ id hid => mem_append_left _ (hemplace.issued entry hentry id hid)
    rw [huuids] at hid
    rcases mem_concat.mp hid with hid | rfl
    · exact mem_append_left _ (hemplace.issued _ hfound id hid)
    · exact mem_append_right _ mem_cons_self

/-- Every partition of a request is a candidate once, under its schema. -/
theorem correctedPartitions_listed (hnodup : (partitions.map PartitionInfo.uuid).Nodup) :
    Listed (issuedOf partitions) (correctedPartitions partitions).candidateInfos := by
  unfold correctedPartitions
  induction partitions using reverseRecOn with
  | nil => exact ⟨nodup_nil, by simp, by simp⟩
  | append_singleton rest info ih =>
    rw [map_append, nodup_append] at hnodup
    rw [foldl_append, issuedOf, map_append]
    refine addInfo_listed (ih hnodup.1) fun hmem => ?_
    rw [map_map] at hmem
    exact hnodup.2.2 info.uuid hmem info.uuid (by simp) rfl

theorem begin_transformContexts (transformId : Uuid) (hne : partitions ≠ []) :
    (transformContexts transformId partitions hne).begin = transformContext transformId := by
  have hmem : ∀ entry ∈ (transformContexts transformId partitions hne).entries,
      entry.2 = transformContext transformId := by
    intro entry hentry
    obtain ⟨origin, -, rfl⟩ := mem_map.mp hentry
    rfl
  exact hmem _ (head_mem _)

theorem transformQuery_legal (std : QueryQueue.PrioritySort) (client : Actor)
    (hne : partitions ≠ []) (acquire : Uuid → Bool)
    (hnodup : (partitions.map PartitionInfo.uuid).Nodup)
    (hschema : ∀ info ∈ partitions, info.schema = schemaOf info.uuid)
    (hfresh : outstanding index.lookups transformId = 0) :
    index.Legal schemaOf (transformQuery std transformId client partitions hne acquire) := by
  have hlisted := correctedPartitions_listed hnodup
  have hissued : ((issuedOf partitions).map Prod.fst).Nodup := by
    rw [issuedOf, map_map]
    exact hnodup
  refine ⟨hlisted.nodup_uuids hissued, ?_, fun candidate hcand => ?_⟩
  · rw [begin_transformContexts]
    exact hfresh
  · obtain ⟨entry, hentry, hinfo⟩ := mem_flatMap.mp hcand
    obtain ⟨info, hmem, rfl⟩ := mem_map.mp hinfo
    constructor
    · have hlist := hlisted.issued entry hentry info.uuid (mem_map_of_mem hmem)
      obtain ⟨origin, horigin, heq⟩ := mem_map.mp hlist
      rw [Prod.mk.injEq] at heq
      rw [← heq.1, ← heq.2]
      exact hschema origin horigin
    · simp only [TypeQueryContextMap.find, transformContexts, Option.isSome_map, find?_isSome,
        mem_map]
      exact ⟨_, ⟨entry, hentry, rfl⟩, by simp⟩

/-! ## Requests and their queries -/

/-- The transformer of a request waits for the query, and the index does not act for
the request before the query has ended. -/
structure Tended (index : IndexState) (request : ApplyRequest π) : Prop where
  watched : index.Watched request.transformId request.client
  phase : request.transformer.Phase
  settled : request.transformer.doneReceived = true → index.Ended request.transformId
  moved : request.stage ≠ .transforming ∨ request.erasures ≠ [] →
    request.transformer.doneReceived = true

theorem Tended.handle (htended : Tended index request) (hsound : index.Sound schemaOf limit)
    (hlegal : index.Legal schemaOf event)
    (hspares : event.Spares request.transformId request.client) :
    Tended (index.handle event) request where
  watched := handle_watched hsound hlegal hspares htended.watched
  phase := htended.phase
  settled := fun hdone =>
    handle_ended hsound hlegal hspares (htended.settled hdone)
  moved := htended.moved

structure Delivering (schemaOf : Uuid → VastType) (limit : UInt64)
    (state : TransformingIndex π) : Prop where
  sound : state.index.Sound schemaOf limit ∧ state.index.Quiet
  tended : ∀ request ∈ state.requests, Tended state.index request

theorem Delivering.handle (hdeliv : state.Delivering schemaOf limit)
    (hlegal : state.index.Legal schemaOf event)
    (hspares : ∀ request ∈ state.requests, event.Spares request.transformId request.client) :
    (state.index.handle event).Sound schemaOf limit ∧ (state.index.handle event).Quiet ∧
      ∀ request ∈ state.requests, Tended (state.index.handle event) request := by
  obtain ⟨hsound, hquiet⟩ := handle_sound _ event hdeliv.sound hlegal
  exact ⟨hsound, hquiet, fun request hreq =>
    (hdeliv.tended request hreq).handle hdeliv.sound.1 hlegal
      (hspares request hreq)⟩

theorem Delivering.advances {next : TransformingIndex π} {error : Option Error}
    (hdeliv : state.Delivering schemaOf limit) (hreq : state.requests[pos]? = some request)
    (hdone : request.transformer.doneReceived = true)
    (hadvances : state.Advances pos request error next) : next.Delivering schemaOf limit := by
  obtain ⟨hindex, -, stage, erasures, hreqs⟩ := hadvances.requests_eq
  constructor
  · rw [hindex]
    exact hdeliv.sound
  · rw [hindex, hreqs]
    refine forall_mem_modify hdeliv.tended fun other hother htended => ?_
    rw [hreq] at hother
    cases hother
    exact ⟨htended.watched, htended.phase, htended.settled, fun _ => hdone⟩

theorem Delivering.apply (hdeliv : state.Delivering schemaOf limit)
    (std : QueryQueue.PrioritySort) {selected : List PartitionInfo} (keep : Bool) {client : Actor}
    (transform : π) (acquire : Uuid → Bool)
    (hschema : ∀ info ∈ selected, info.schema = schemaOf info.uuid)
    (hunknown : state.index.pendingQueries.queries transformId = none)
    (hfresh : outstanding state.index.lookups transformId = 0)
    (hsent : client ∉ state.index.sent)
    (hclient : ∀ qid record, state.index.pendingQueries.queries qid = some record →
      record.client ≠ client)
    (hnew : ∀ request ∈ state.requests, request.transformId ≠ transformId ∧
      request.client ≠ client) : Delivering schemaOf limit
      (state.apply std selected keep transformId client transform acquire) := by
  obtain ⟨taken, henlist, hnodup, -, hmem⟩ := state.enlistAll_eq selected
  unfold TransformingIndex.apply
  rw [henlist]
  simp only
  split
  · exact hdeliv
  next hne =>
    have hlegal := transformQuery_legal std client hne acquire hnodup
      (fun info hinfo => hschema info (hmem info hinfo)) hfresh
    have hbegin := congrArg QueryContext.id (begin_transformContexts transformId hne)
    obtain ⟨hsound, hquiet, htended⟩ := hdeliv.handle hlegal fun request hreq => by
      exact ⟨fun hid => (hnew request hreq).1 (hid.trans hbegin), (hnew request hreq).2⟩
    refine ⟨⟨hsound, hquiet⟩, ?_⟩
    rw [forall_mem_append]
    refine ⟨htended, fun request hreq => ?_⟩
    rw [mem_singleton] at hreq
    subst hreq
    have hwatched := evaluate_watched hdeliv.sound.1 std hlegal
      (hbegin ▸ hunknown) hsent hclient
    rw [hbegin] at hwatched
    refine ⟨hwatched, phase_initial transform, fun hdone => ?_, ?_⟩
    · cases hdone
    · rintro (hstage | herasures)
      · exact absurd rfl hstage
      · exact absurd rfl herasures

section Steps

variable [BloomFilters] {options : TransformerOptions π} {qid pid : Uuid}

/-- A message of the transformer. The input ends only when the index has said so. -/
theorem Tended.message {index : IndexState} {request : ApplyRequest π}
    (htended : Tended index request) {message : PartitionTransformer.Message}
    (hlegal : request.transformer.Legal message)
    (hsent : message = .done → request.client ∈ index.sent) :
    Tended index { request with
      transformer := PartitionTransformer.step options request.transformer message } := by
  have hphase : (PartitionTransformer.step options request.transformer message).Phase :=
    PartitionTransformer.Phase.step _ message htended.phase hlegal
  by_cases hmsg : message = .done
  · subst hmsg
    refine ⟨htended.watched, hphase, fun _ => htended.watched.waiting.resolve_right
      fun hwaiting => hwaiting.1 (hsent rfl), ?_⟩
    intro hmoved
    have hdone := htended.moved hmoved
    rw [show request.transformer.doneReceived = false from hlegal] at hdone
    cases hdone
  · have hsame := doneReceived_step options hlegal hmsg
    refine ⟨htended.watched, hphase, fun hdone => htended.settled (hsame ▸ hdone), ?_⟩
    exact fun hmoved => hsame.trans (htended.moved hmoved)

theorem Delivering.step (state : TransformingIndex π) (event : Event π)
    (hdeliv : state.Delivering schemaOf limit) (hlegal : state.Legal schemaOf event) :
    Delivering schemaOf limit (step options state event) := by
  cases event with
  | apply std selected keep transformId client transform acquire =>
    obtain ⟨hschema, hunknown, hfresh, hsent, hclient, hnew⟩ := hlegal
    exact hdeliv.apply std keep transform acquire hschema hunknown hfresh hsent hclient hnew
  | schedule event =>
    obtain ⟨hsound, hquiet, htended⟩ := hdeliv.handle hlegal.1 fun request hreq => by
      have hspares := hlegal.2
      cases event with
      | evaluate | query | down => exact hspares request hreq
      | erase => trivial
      | reply => trivial
    exact ⟨⟨hsound, hquiet⟩, htended⟩
  | reply lookup qid acquire complete =>
    have hreply : state.index.Legal schemaOf (.reply lookup qid acquire) := hlegal
    obtain ⟨hsound, hquiet, htended⟩ := hdeliv.handle hreply fun _ _ => trivial
    exact ⟨⟨hsound, hquiet⟩, htended⟩
  | erase pid =>
    have herase : state.index.Legal schemaOf (.erase pid) := trivial
    obtain ⟨hsound, hquiet, htended⟩ := hdeliv.handle herase fun _ _ => trivial
    exact ⟨⟨hsound, hquiet⟩, htended⟩
  | persist pid => exact ⟨hdeliv.sound, hdeliv.tended⟩
  | transformer pos message =>
    obtain ⟨request, hreq, hmsg, hsent⟩ := hlegal
    refine ⟨hdeliv.sound, forall_mem_modify hdeliv.tended fun other hother htended => ?_⟩
    rw [hreq] at hother
    cases hother
    exact htended.message hmsg hsent
  | persisted pos | answer pos error =>
    obtain ⟨request, error, hreq, -, hreplied, hadvances, -⟩ :=
      advances_step options hlegal rfl
    have htended := hdeliv.tended request (mem_of_getElem? hreq)
    refine hdeliv.advances hreq ?_ hadvances
    rcases hreplied with hstage | hreplies
    · exact htended.moved (Or.inl hstage)
    · exact htended.phase.doneReceived_of_replies hreplies

/-! ## Deliveries -/

/-- The event is the reply of a partition that has sent all its rows for a query. -/
def Event.Reports (state : TransformingIndex π) (qid pid : Uuid) : Event π → Prop
  | .reply lookup other _ complete =>
    other = qid ∧ complete = true ∧
      ∃ found ∈ state.index.lookups[lookup]?, found.partition = pid
  | _ => False

/-- In some event of the run, a partition has sent all its rows for a query. -/
def SendsAll (options : TransformerOptions π) (qid pid : Uuid) :
    TransformingIndex π → List (Event π) → Prop
  | _, [] => False
  | state, event :: events =>
    event.Reports state qid pid ∨ SendsAll options qid pid (step options state event) events

theorem sendsAll_append {first second : List (Event π)} :
    SendsAll options qid pid state (first ++ second) ↔ SendsAll options qid pid state first ∨
        SendsAll options qid pid (first.foldl (step options) state) second := by
  induction first generalizing state with
  | nil => simp [SendsAll]
  | cons event events ih => simp [SendsAll, ih, or_assoc]

theorem mem_delivered_step (event : Event π) : (qid, pid) ∈ (step options state event).delivered ↔
      (qid, pid) ∈ state.delivered ∨ event.Reports state qid pid := by
  cases event with
  | apply std selected keep transformId client transform acquire =>
    simp only [step, apply, Event.Reports, or_false]
    split <;> rfl
  | reply lookup other acquire complete =>
    simp only [step, noteDelivery, Event.Reports]
    cases hfound : state.index.lookups[lookup]? with
    | none => simp
    | some found =>
      cases complete with
      | false => simp
      | true => simp [eq_comm]
  | persisted pos =>
    simp only [step, handlePersisted, Event.Reports, or_false]
    repeat' split
    all_goals rfl
  | answer pos error =>
    simp only [step, handleAnswer, handleRenamed, Event.Reports, or_false]
    repeat' split
    all_goals rfl
  | _ => simp [step, Event.Reports]

theorem mem_delivered_iff (events : List (Event π)) :
    (qid, pid) ∈ (events.foldl (step options) state).delivered ↔
      (qid, pid) ∈ state.delivered ∨ SendsAll options qid pid state events := by
  induction events generalizing state with
  | nil => simp [SendsAll]
  | cons event events ih =>
    rw [foldl_cons, ih, mem_delivered_step, SendsAll, or_assoc]

/-- The transformer of a query has been told that its input has ended. -/
def Told (state : TransformingIndex π) (qid : Uuid) : Prop :=
  ∃ request ∈ state.requests, request.transformId = qid ∧
    request.transformer.doneReceived = true

omit [BloomFilters] in
theorem Told.modify (htold : state.Told qid) (pos : Nat) {change : ApplyRequest π → ApplyRequest π}
    (hchange : ∀ request, state.requests[pos]? = some request →
      request.transformer.doneReceived = true → (change request).transformId = request.transformId ∧
        (change request).transformer.doneReceived = true) :
    ∃ request ∈ state.requests.modify pos change, request.transformId = qid ∧
      request.transformer.doneReceived = true := by
  obtain ⟨request, hreq, hqid, hdone⟩ := htold
  obtain ⟨other, hother⟩ := mem_iff_getElem?.mp hreq
  have hafter : (state.requests.modify pos change)[other]? =
      some (if pos = other then change request else request) := by
    rw [getElem?_modify, hother]
    rfl
  refine ⟨_, mem_of_getElem? hafter, ?_⟩
  split
  next heq =>
    obtain ⟨hsame, hdone_after⟩ := hchange request (heq ▸ hother) hdone
    exact ⟨hsame.trans hqid, hdone_after⟩
  · exact ⟨hqid, hdone⟩

theorem Told.step (htold : state.Told qid) {event : Event π} (hlegal : state.Legal schemaOf event) :
    Told (step options state event) qid := by
  cases event with
  | apply std selected keep transformId client transform acquire =>
    simp only [TransformingIndex.step, TransformingIndex.apply]
    split
    · exact htold
    · obtain ⟨request, hreq, htold⟩ := htold
      exact ⟨request, mem_append_left _ hreq, htold⟩
  | transformer pos message =>
    obtain ⟨request, hreq, hmsg, -⟩ := hlegal
    refine htold.modify pos fun other hother hdone => ⟨rfl, ?_⟩
    rw [hreq] at hother
    cases hother
    refine (doneReceived_step options hmsg ?_).trans hdone
    rintro rfl
    rw [show request.transformer.doneReceived = false from hmsg] at hdone
    cases hdone
  | persisted pos | answer pos error =>
    obtain ⟨request, error, hreq, -, -, hadvances, -⟩ := advances_step options hlegal rfl
    obtain ⟨-, -, stage, erasures, hreqs⟩ := hadvances.requests_eq
    rw [Told, hreqs]
    exact htold.modify pos fun _ _ hdone => ⟨rfl, hdone⟩
  | _ => exact htold

/-- Nothing arrives after the end of the input. -/
theorem not_sendsAll_of_told (pid : Uuid) {events : List (Event π)}
    (hdeliv : state.Delivering schemaOf limit) (htold : state.Told qid)
    (hrun : Run.Admissible (step options) (Legal schemaOf) state events) :
    ¬SendsAll options qid pid state events := by
  induction events generalizing state with
  | nil => exact id
  | cons event events ih =>
    obtain ⟨hlegal, hrest⟩ := hrun
    rintro (hreports | hlater)
    · cases event with
      | reply lookup other acquire complete =>
        obtain ⟨rfl, -, -⟩ := hreports
        obtain ⟨request, hreq, rfl, hdone⟩ := htold
        have hended := ((hdeliv.tended request hreq).settled hdone).2
        obtain ⟨found, hfound, hawaiting⟩ := hlegal
        exact not_mem_awaiting hended (mem_of_getElem? hfound) hawaiting
      | _ => exact hreports
    · exact ih (hdeliv.step state event hlegal) (htold.step hlegal) hrest hlater

/-- When the index asks to erase a partition for a request, the transformer of the request
has got all rows of the partition if and only if the query succeeds on the partition. -/
theorem erased_delivered_iff (options : TransformerOptions π) (schemaOf : Uuid → VastType)
    (limit : UInt64) (persistedPartitions : List Uuid) (events later : List (Event π))
    (hrun : Run.Admissible (step options) (Legal schemaOf) (start limit persistedPartitions)
      (events ++ later)) (request : ApplyRequest π)
    (hrequest : request ∈ (events.foldl (step options)
      (start limit persistedPartitions)).requests) (pid : Uuid) (herased : pid ∈ request.erasures) :
    (request.transformId, pid) ∈
        (events.foldl (step options) (start limit persistedPartitions)).delivered ↔
      SendsAll options request.transformId pid (start limit persistedPartitions)
        (events ++ later) := by
  obtain ⟨hbefore, hafter⟩ := Run.admissible_append.mp hrun
  have hdelivering : Delivering schemaOf limit
      (events.foldl (step options) (start limit persistedPartitions)) :=
    Run.invariant _ Delivering.step
      ⟨⟨sound_initial schemaOf limit, fun _ => rfl⟩, by simp [start]⟩ hbefore
  have hdone := (hdelivering.tended request hrequest).moved
    (Or.inr (ne_nil_of_mem herased))
  have hnothing := not_sendsAll_of_told pid hdelivering ⟨request, hrequest, rfl, hdone⟩ hafter
  rw [mem_delivered_iff, sendsAll_append, or_iff_left hnothing]
  exact or_iff_right not_mem_nil

end Steps

/-- The transformer is told that its input has ended although the partition could not be
loaded, and the index asks to erase the partition. -/
theorem unloadable_partition_erased :
    Run.Admissible (@step _ PartitionSynopsis.exactFilters sampleOptions) (Legal fun _ => .none)
        (start 1 [7]) (sampleEvents ++ [.answer 0 none, .answer 0 none]) ∧
      ((sampleRun (sampleEvents ++ [.answer 0 none, .answer 0 none])).requests.map
        fun request => request.erasures) = [[7]] ∧
      (sampleRun (sampleEvents ++ [.answer 0 none, .answer 0 none])).delivered = [] :=
  ⟨Run.admissible_append.mpr ⟨sampleEvents_admissible, ⟨_, rfl, rfl⟩, ⟨_, rfl, rfl⟩, trivial⟩,
    rfl, rfl⟩

def loadedEvents : List (Event PipelineQueue) :=
  [.apply .insertion [sampleInfo] false 1 ⟨1⟩ {} fun _ => true, .reply 0 1 (fun _ => true) true,
    .transformer 0 .persist, .transformer 0 .done, .persisted 0, .answer 0 none, .answer 0 none,
    .answer 0 none]

/-- The partition is loaded and sends all its rows before it is erased. -/
theorem loaded_partition_delivered : (1, 7) ∈ (sampleRun loadedEvents).delivered := by
  refine (@erased_delivered_iff _ PartitionSynopsis.exactFilters sampleOptions (fun _ => .none) 1
    [7] loadedEvents [] ?_ _ mem_cons_self 7 (by decide)).mpr ?_
  · refine ⟨⟨by decide, rfl, rfl, by decide, fun _ _ hnone => ?_, by decide⟩,
      ⟨_, rfl, mem_cons_self⟩, ⟨_, rfl, rfl, fun hdone => ?_⟩,
      ⟨_, rfl, rfl, fun _ => by decide⟩, ⟨_, rfl, rfl, cons_ne_nil _ _⟩, ⟨_, rfl, rfl⟩,
      ⟨_, rfl, rfl⟩, ⟨_, rfl, rfl⟩, trivial⟩
    · cases hnone
    · cases hdone
  · exact Or.inr (Or.inl ⟨rfl, rfl, _, rfl, rfl⟩)

end TransformingIndex

end Vast
