import Vast.Catalog.Lookup
import Vast.Index.Scheduler
import Vast.Transform.Transformer

/-! # Transforming partitions at the index

A request to apply a pipeline makes the index query the partitions on behalf of
a transformer. When the transformer has written its partitions, the index writes
a marker, moves the new partitions into its directory, tells the catalog, and
erases the partitions that the new ones replace. Every one of these steps may
fail, and the steps of several requests are interleaved.
-/

namespace Vast

open Foundation

inductive ApplyError where
  | transformer (error : TransformerError)
  | failed (error : Error)

abbrev ApplyReply := Except ApplyError (List PartitionInfo)

/-- What the index is waiting for on behalf of a request. -/
inductive ApplyStage where
  /-- The transformer has been asked to persist. -/
  | transforming
  | writingMarker (apsv : List PartitionSynopsisPair)
  | movingFiles (apsv : List PartitionSynopsisPair)
  /-- The catalog merges the new partitions. -/
  | merging (apsv : List PartitionSynopsisPair)
  /-- The catalog replaces the old partitions by the new ones. -/
  | replacing (apsv : List PartitionSynopsisPair)
  | erasing (apsv : List PartitionSynopsisPair)
  /-- The promise has been fulfilled. -/
  | answered (reply : ApplyReply)

/-- An accepted request: the partitions it has added to those in transformation, its
transformer, and the partitions that the index was asked to erase for it. -/
structure ApplyRequest (π : Type) where
  transformId : Uuid
  client : Actor
  partitions : List PartitionInfo
  keep : Bool
  transformer : PartitionTransformer π
  stage : ApplyStage := .transforming
  erasures : List Uuid := []

namespace ApplyRequest

variable {π : Type}

def oldPartitionIds (request : ApplyRequest π) : List Uuid :=
  request.partitions.map PartitionInfo.uuid

end ApplyRequest

namespace ApplyStage

/-- The promise has not been fulfilled. -/
def isOpen : ApplyStage → Bool
  | .answered _ => false
  | _ => true

/-- The index has asked somebody else than the transformer. -/
def awaitsAnswer : ApplyStage → Bool
  | .transforming | .answered _ => false
  | _ => true

end ApplyStage

/-- The index, with the requests it has accepted. For every query, the partitions that
have sent all their rows are recorded. -/
structure TransformingIndex (π : Type) where
  index : IndexState
  persistedPartitions : List Uuid := []
  partitionsInTransformation : List Uuid := []
  requests : List (ApplyRequest π) := []
  delivered : List (Uuid × Uuid) := []

namespace TransformingIndex

variable {π : Type}

/-! ## Requests -/

def addInfo (infos : List (VastType × CandidateInfo)) (info : PartitionInfo) :
    List (VastType × CandidateInfo) :=
  AssocList.adjust info.schema
    (fun candidates => { candidates with partitionInfos := candidates.partitionInfos ++ [info] })
    (AssocList.emplace info.schema ⟨.none, []⟩ infos)

def correctedPartitions (partitions : List PartitionInfo) : CatalogLookupResult :=
  ⟨partitions.foldl addInfo []⟩

/-- Take a partition unless it is being transformed already. -/
def enlist (taken : List Uuid × List PartitionInfo) (info : PartitionInfo) :
    List Uuid × List PartitionInfo :=
  if info.uuid ∈ taken.1 then taken else (taken.1 ++ [info.uuid], taken.2 ++ [info])

/-- The partitions in transformation and those that a request gets. -/
def enlistAll (state : TransformingIndex π) (selected : List PartitionInfo) :
    List Uuid × List PartitionInfo :=
  (selected.filter fun info => info.uuid ∈ state.persistedPartitions).foldl enlist
    (state.partitionsInTransformation, [])

def matchEverything : Expression :=
  .predicate ⟨.metaExtractor .type, .ni, .data (.basic (.string ""))⟩

def transformContext (transformId : Uuid) : QueryContext :=
  ⟨transformId, matchEverything, 100⟩

theorem foldl_addInfo_ne_nil {infos : List (VastType × CandidateInfo)}
    {partitions : List PartitionInfo} (hne : infos ≠ [] ∨ partitions ≠ []) :
    partitions.foldl addInfo infos ≠ [] := by
  induction partitions generalizing infos with
  | nil => exact hne.resolve_right fun hnil => hnil rfl
  | cons info rest ih =>
    refine ih (Or.inl ?_)
    obtain ⟨present, hpresent⟩ :=
      AssocList.exists_mem_emplace info.schema (⟨.none, []⟩ : CandidateInfo) infos
    rw [addInfo, AssocList.adjust, ne_eq, List.map_eq_nil_iff]
    exact List.ne_nil_of_mem hpresent

def transformContexts (transformId : Uuid) (partitions : List PartitionInfo)
    (hne : partitions ≠ []) : TypeQueryContextMap where
  entries := (correctedPartitions partitions).candidateInfos.map fun entry =>
    (entry.1, transformContext transformId)
  nonempty := by
    rw [ne_eq, List.map_eq_nil_iff]
    exact foldl_addInfo_ne_nil (Or.inr hne)

def transformQuery (std : QueryQueue.PrioritySort) (transformId : Uuid) (client : Actor)
    (partitions : List PartitionInfo) (hne : partitions ≠ []) (acquire : Uuid → Bool) :
    IndexState.Event :=
  .evaluate std (transformContexts transformId partitions hne) client
    (UInt32.ofNat (correctedPartitions partitions).size)
    (UInt32.ofNat (correctedPartitions partitions).size) (correctedPartitions partitions) acquire

/-- A request arrives. Unknown partitions are skipped, and so are those that are
being transformed. A request without partitions is answered at once. -/
def apply (std : QueryQueue.PrioritySort) (selected : List PartitionInfo) (keep : Bool)
    (transformId : Uuid) (client : Actor) (transform : π) (acquire : Uuid → Bool)
    (state : TransformingIndex π) : TransformingIndex π :=
  let (inTransformation, partitions) := state.enlistAll selected
  if hne : partitions = [] then state
  else
    { state with
      index := state.index.handle
        (transformQuery std transformId client partitions hne acquire)
      partitionsInTransformation := inTransformation
      requests := state.requests ++ [{
        transformId := transformId
        client := client
        partitions := partitions
        keep := keep
        transformer := { transform := transform } }] }

/-! ## Continuations -/

variable (position : Nat)

def setStage (stage : ApplyStage) (state : TransformingIndex π) : TransformingIndex π :=
  { state with
    requests := state.requests.modify position fun request => { request with stage := stage } }

variable (request : ApplyRequest π)

/-- Release the partitions of a request and fulfill its promise. The marker is erased
as well, whether this fails or not. -/
def deliver (reply : ApplyReply) (state : TransformingIndex π) : TransformingIndex π :=
  { state.setStage position (.answered reply) with
    partitionsInTransformation := state.partitionsInTransformation.filter fun id =>
      id ∉ request.oldPartitionIds }

variable (apsv : List PartitionSynopsisPair)

def result : List PartitionInfo :=
  apsv.filterMap fun pair => pair.synopsis.map fun synopsis =>
    CatalogState.partitionInfo (pair.uuid, synopsis)

def addPersisted (state : TransformingIndex π) : TransformingIndex π :=
  { state with
    persistedPartitions := state.persistedPartitions ++ apsv.map (·.uuid) }

def eraseOldPartitions (state : TransformingIndex π) : TransformingIndex π :=
  { state with
    requests := state.requests.modify position fun request =>
      { request with stage := .erasing apsv, erasures := request.oldPartitionIds } }

def handlePersisted (reply : TransformerReply)
    (state : TransformingIndex π) : TransformingIndex π :=
  match reply with
  | .ok apsv => state.setStage position (.writingMarker apsv)
  | .error error => state.deliver position request (.error (.transformer error))

/-- The files are renamed, or not. A failure fulfills the promise and does not release
the partitions. -/
def handleRenamed (error : Option Error) (state : TransformingIndex π) : TransformingIndex π :=
  match error with
  | some error => state.setStage position (.answered (.error (.failed error)))
  | none =>
    if request.keep then
      if apsv.isEmpty then state.deliver position request (.ok (result apsv))
      else state.setStage position (.merging apsv)
    else state.setStage position (.replacing apsv)

/-- The answer to what the index is waiting for on behalf of a request. -/
def handleAnswer (error : Option Error) (state : TransformingIndex π) : TransformingIndex π :=
  match request.stage with
  | .writingMarker apsv =>
    match error with
    | none => state.setStage position (.movingFiles apsv)
    | some error => state.deliver position request (.error (.failed error))
  | .movingFiles apsv => state.handleRenamed position request apsv error
  | .merging apsv =>
    match error with
    | none => (state.addPersisted apsv).deliver position request (.ok (result apsv))
    | some error => state.deliver position request (.error (.failed error))
  | .replacing apsv =>
    match error with
    | none => (state.addPersisted apsv).eraseOldPartitions position apsv
    | some error => state.deliver position request (.error (.failed error))
  | .erasing apsv =>
    match error with
    | none => state.deliver position request (.ok (result apsv))
    | some error => state.deliver position request (.error (.failed error))
  | .transforming | .answered _ => state

/-! ## Steps -/

/-- What happens at the index. A request is given by its position. Replies of partitions
say whether all rows have been sent, and answers without an error are successes. -/
inductive Event (π : Type) where
  | apply (std : QueryQueue.PrioritySort) (selected : List PartitionInfo) (keep : Bool)
      (transformId : Uuid) (client : Actor) (transform : π) (acquire : Uuid → Bool)
  /-- Another query arrives, asks for more partitions or is given up. -/
  | schedule (event : IndexState.Event)
  | reply (lookup : Nat) (qid : Uuid) (acquire : Uuid → Bool) (complete : Bool)
  /-- A partition is erased. -/
  | erase (pid : Uuid)
  /-- A partition is persisted. -/
  | persist (pid : Uuid)
  /-- The transformer of a request receives a message. -/
  | transformer (position : Nat) (message : PartitionTransformer.Message)
  /-- The answer of the transformer arrives. -/
  | persisted (position : Nat)
  | answer (position : Nat) (error : Option Error)

/-- The rows of a partition arrive together with its reply, if they do. -/
def noteDelivery (lookup : Nat) (qid : Uuid) (complete : Bool) (state : TransformingIndex π) :
    List (Uuid × Uuid) :=
  match state.index.lookups[lookup]? with
  | some found =>
    if complete then state.delivered ++ [(qid, found.partition)] else state.delivered
  | none => state.delivered

variable [BloomFilters] (options : TransformerOptions π)

def step (state : TransformingIndex π) : Event π → TransformingIndex π
  | .apply std selected keep transformId client transform acquire =>
    state.apply std selected keep transformId client transform acquire
  | .schedule event => { state with index := state.index.handle event }
  | .reply lookup qid acquire complete =>
    { state with
      index := state.index.handle (.reply lookup qid acquire)
      delivered := state.noteDelivery lookup qid complete }
  | .erase pid =>
    { state with
      index := state.index.handle (.erase pid)
      persistedPartitions := state.persistedPartitions.filter fun id => id ≠ pid }
  | .persist pid => { state with persistedPartitions := state.persistedPartitions ++ [pid] }
  | .transformer position message =>
    { state with
      requests := state.requests.modify position fun request =>
        { request with
          transformer := PartitionTransformer.step options request.transformer message } }
  | .persisted position =>
    match state.requests[position]? with
    | none => state
    | some request =>
      match request.transformer.replies with
      | reply :: _ => state.handlePersisted position request reply
      | [] => state
  | .answer position error =>
    match state.requests[position]? with
    | none => state
    | some request => state.handleAnswer position request error

/-- What the index can rely on. Infos of partitions name their schema. Identifiers of
queries are new, and transformers are new actors that only the index knows as clients.
A transformer gets the message that the input has ended from the index. Replies and
answers belong to what was asked. -/
def Legal (schemaOf : Uuid → VastType) (state : TransformingIndex π) : Event π → Prop
  | .apply _ selected _ transformId client _ _ =>
    (∀ info ∈ selected, info.schema = schemaOf info.uuid) ∧
      state.index.pendingQueries.queries transformId = none ∧
      IndexState.outstanding state.index.lookups transformId = 0 ∧
      client ∉ state.index.sent ∧
      (∀ qid record, state.index.pendingQueries.queries qid = some record →
        record.client ≠ client) ∧
      ∀ request ∈ state.requests, request.transformId ≠ transformId ∧ request.client ≠ client
  | .schedule event =>
    state.index.Legal schemaOf event ∧
      match event with
      | .evaluate _ contexts client _ _ _ _ =>
        ∀ request ∈ state.requests, request.transformId ≠ contexts.begin.id ∧
          request.client ≠ client
      | .query _ qid _ _ => ∀ request ∈ state.requests, request.transformId ≠ qid
      | .down ids => ∀ request ∈ state.requests, request.transformId ∉ ids
      | .erase _ | .reply _ _ _ => False
  | .reply lookup qid _ _ => ∃ found ∈ state.index.lookups[lookup]?, qid ∈ found.awaiting
  | .erase _ | .persist _ => True
  | .transformer position message =>
    ∃ request ∈ state.requests[position]?, request.transformer.Legal message ∧
      (message = .done → request.client ∈ state.index.sent)
  | .persisted position =>
    ∃ request ∈ state.requests[position]?, request.stage = .transforming ∧
      request.transformer.replies ≠ []
  | .answer position _ =>
    ∃ request ∈ state.requests[position]?, request.stage.awaitsAnswer = true

def start (limit : UInt64) (persistedPartitions : List Uuid) : TransformingIndex π where
  index := { maxConcurrentPartitionLookups := limit }
  persistedPartitions := persistedPartitions

end TransformingIndex

end Vast
