import Vast.Index.Scheduler

/-! # Queries for all of their partitions

A client may ask for all partitions of its query at once. It is notified once,
and then nothing is left of the query: all of its partitions were taken from the
queue, and no reply is outstanding. Whether the partitions have answered the
query is another matter.
-/

namespace Vast

open Foundation QueryQueue List Function Option

namespace IndexState

variable {schemaOf : Uuid → VastType} {limit : UInt64} {state : IndexState}
  {acquire : Uuid → Bool} {qid : Uuid} {client : Actor} {index : Nat} {lookup : Lookup}
  {done : Uuid} {lookups : List Lookup} {record : QueryState} {queue : QueryQueue}
  {candidates : CatalogLookupResult} {event : Event}

/-! ## What the scheduler keeps -/

/-- A partition completes for a query, and a reply may be taken off the outstanding
ones: those of other queries stay, and none is left after the last completion. -/
structure Completes (state : IndexState) (inflight : Uuid → Nat) (done : Uuid)
    (lookups : List Lookup) : Prop where
  accounted : Accounted state.pendingQueries.queries state.pendingQueries.entries inflight
  pos : (state.pendingQueries.queries done).isSome → 0 < inflight done
  other : ∀ qid, qid ≠ done → outstanding lookups qid = outstanding state.lookups qid
  le : outstanding lookups done ≤ outstanding state.lookups done
  last : inflight done = 1 → outstanding lookups done = 0

/-- A property that every action of the scheduler keeps: taking a partition from
the queue, completing a query, and asking a partition. -/
structure Kept (property : IndexState → Prop) : Prop where
  next : ∀ {state : IndexState},
    (∀ entry ∈ state.pendingQueries.entries, entry.queries.Nodup) → property state →
    property { state with pendingQueries := state.pendingQueries.next.2 }
  complete : ∀ {state : IndexState} {inflight : Uuid → Nat} {done : Uuid}
    {lookups : List Lookup} (running : UInt64), state.Completes inflight done lookups →
    property state →
    property { state.completeQuery done with
      lookups := lookups
      runningPartitionLookups := running }
  ask : ∀ {state : IndexState} {lookup : Lookup} (running : UInt64),
    (∀ id ∈ lookup.awaiting, (state.pendingQueries.queries id).isSome = true) →
    property state →
    property { state with
      lookups := state.lookups ++ [lookup]
      runningPartitionLookups := running }

section Kept

variable {property : IndexState → Prop} (hkept : Kept property)

include hkept

theorem Kept.immediateCompletion (state : IndexState) {ids : List Uuid} (hnodup : ids.Nodup)
    (hacc : Accounted state.pendingQueries.queries state.pendingQueries.entries
      fun id => outstanding state.lookups id + if id ∈ ids then 1 else 0)
    (hprop : property state) : property (state.immediateCompletion ids) := by
  induction ids generalizing state with
  | nil => exact hprop
  | cons head tail ih =>
    obtain ⟨hhead, htail⟩ := nodup_cons.mp hnodup
    refine ih (state.completeQuery head) htail (completeQuery_accounted hhead hacc) ?_
    exact hkept.complete state.runningPartitionLookups
      ⟨hacc, fun _ => by simp, fun _ _ => rfl, le_refl _, by simp⟩ hprop

variable (hsound : state.Sound schemaOf limit)

include hsound

theorem Kept.scheduleLoop (fuel : Nat) (hfuel : state.pendingQueries.partitions.length < fuel)
    (hprop : property state) : property (scheduleLoop acquire fuel state) := by
  have hnext : ∀ (state : IndexState) (outcome : Option Entry × QueryQueue),
      state.Sound schemaOf limit → property state → state.pendingQueries.next = outcome →
      property { state with pendingQueries := outcome.2 } := by
    rintro state _ hsound hprop rfl
    exact hkept.next hsound.accounted.queries_nodup hprop
  refine scheduleLoop_rule property property ?_ ?_ ?_ ?_ fuel hsound hfuel hprop
  · exact fun _ _ hprop _ => hprop
  · exact fun state queue hsound hprop heq => hnext state (none, queue) hsound hprop heq
  · intro state entry queue hsound hprop htaken
    exact hkept.immediateCompletion _ htaken.nodup htaken.accounted
      (hnext state (some entry, queue) hsound hprop htaken.next_eq)
  · intro state entry queue hsound hprop htaken
    refine hkept.ask _ (fun id hid => ?_)
      (hnext state (some entry, queue) hsound hprop htaken.next_eq)
    obtain ⟨query, hquery, -⟩ := htaken.contexts id hid
    exact isSome_iff_exists.mpr ⟨query, hquery⟩

theorem Kept.scheduleLookups (hprop : property state) :
    property (scheduleLookups acquire state) := by
  unfold IndexState.scheduleLookups
  split
  · exact hkept.scheduleLoop hsound _ (Nat.lt_succ_self _) hprop
  · exact hprop

omit hkept in
theorem completes_reply (hlookup : state.lookups[index]? = some lookup)
    (hdone : done ∈ lookup.awaiting) :
    state.Completes (outstanding state.lookups) done
      (state.lookups.set index (answered lookup done)) := by
  obtain ⟨before, after, heq, hset⟩ := exists_of_reply hlookup done
  have hpos := outstanding_pos (mem_of_getElem? hlookup) hdone
  have hanswered : outstanding (state.lookups.set index (answered lookup done)) =
      update (outstanding state.lookups) done (outstanding state.lookups done - 1) := by
    rw [hset, outstanding_answered hdone, ← heq]
  refine ⟨hsound.accounted, fun _ => hpos, fun qid hne => ?_, ?_, fun hone => ?_⟩
  · rw [hanswered, update_of_ne hne]
  · rw [hanswered, update_self]
    omega
  · rw [hanswered, update_self, hone]

theorem Kept.handleReply (hlegal : ∃ lookup ∈ state.lookups[index]?, done ∈ lookup.awaiting)
    (hprop : property state) : property (state.handleReply index done acquire) := by
  obtain ⟨lookup, hlookup, hdone⟩ := hlegal
  rw [mem_def] at hlookup
  have hreply := reply_sound hsound hlookup hdone
  have hcompletes := completes_reply hsound hlookup hdone
  simp only [IndexState.handleReply, hlookup]
  split
  next hlast =>
    rw [if_pos hlast] at hreply
    exact hkept.scheduleLookups hreply (hkept.complete _ hcompletes hprop)
  · exact hkept.complete state.runningPartitionLookups hcompletes hprop

end Kept

/-! ## Queries that have ended -/

def Ended (qid : Uuid) (state : IndexState) : Prop :=
  state.pendingQueries.queries qid = none ∧ outstanding state.lookups qid = 0

theorem not_mem_awaiting (hzero : outstanding lookups qid = 0) (hlookup : lookup ∈ lookups) :
    qid ∉ lookup.awaiting := by
  intro hqid
  have hpos := outstanding_pos hlookup hqid
  omega

theorem completeQuery_queries_of_ne (hne : qid ≠ done) :
    (state.completeQuery done).pendingQueries.queries qid = state.pendingQueries.queries qid :=
  handleCompletion_queries_of_ne hne

theorem completeQuery_of_none (hnone : state.pendingQueries.queries done = none) :
    state.completeQuery done = state := by
  simp [completeQuery, handleCompletion, hnone]

theorem kept_ended (qid : Uuid) : Kept (Ended qid) where
  next := by
    rintro state hnodup ⟨hnone, hzero⟩
    refine ⟨?_, hzero⟩
    change state.pendingQueries.next.2.queries qid = none
    rw [next_queries hnodup, hnone]
    simp
  complete := by
    rintro state inflight done lookups running hcompletes ⟨hnone, hzero⟩
    by_cases heq : qid = done
    · subst heq
      rw [completeQuery_of_none hnone]
      exact ⟨hnone, Nat.le_zero.mp (hzero ▸ hcompletes.le)⟩
    · exact ⟨(completeQuery_queries_of_ne heq).trans hnone, (hcompletes.other qid heq).trans hzero⟩
  ask := by
    rintro state lookup running hknown ⟨hnone, hzero⟩
    refine ⟨hnone, ?_⟩
    have hnotin : qid ∉ lookup.awaiting := by
      intro hmem
      have hsome := hknown qid hmem
      rw [hnone] at hsome
      cases hsome
    simp [outstanding_append, hzero, count_eq_zero.mpr hnotin]

/-! ## Queries that a client waits for -/

/-- The client has no other query, and is not notified before its query has ended. -/
structure Watched (qid : Uuid) (client : Actor) (state : IndexState) : Prop where
  exclusive : ∀ other record, state.pendingQueries.queries other = some record →
    record.client = client → other = qid
  waiting : state.Ended qid ∨ client ∉ state.sent ∧
    ∃ record, state.pendingQueries.queries qid = some record ∧
      record.requestedPartitions = record.candidatePartitions

theorem completeQuery_client {done other : Uuid}
    (hrecord : (state.completeQuery done).pendingQueries.queries other = some record) :
    ∃ before, state.pendingQueries.queries other = some before ∧ before.client = record.client := by
  by_cases heq : other = done
  · subst heq
    cases hbefore : state.pendingQueries.queries other with
    | none =>
      rw [completeQuery_of_none hbefore, hbefore] at hrecord
      cases hrecord
    | some before =>
      rw [show (state.completeQuery other).pendingQueries.queries other = _ from
        (handleCompletion_some hbefore).2] at hrecord
      split at hrecord
      · cases hrecord
      · cases hrecord
        exact ⟨before, rfl, rfl⟩
  · rw [completeQuery_queries_of_ne heq] at hrecord
    exact ⟨record, hrecord, rfl⟩

/-- The client is not notified before the last completion, which ends the query. -/
theorem Watched.complete_self {inflight : Uuid → Nat}
    (hcompletes : state.Completes inflight qid lookups) (running : UInt64)
    (hsent : client ∉ state.sent) (hrecord : state.pendingQueries.queries qid = some record)
    (hreq : record.requestedPartitions = record.candidatePartitions) :
    let after := { state.completeQuery qid with
      lookups := lookups
      runningPartitionLookups := running }
    after.Ended qid ∨ client ∉ after.sent ∧
      ∃ record, after.pendingQueries.queries qid = some record ∧
        record.requestedPartitions = record.candidatePartitions := by
  obtain ⟨hnotify, hafter⟩ := handleCompletion_some hrecord
  by_cases hfinal : record.completedPartitions + 1 = record.candidatePartitions
  · left
    have hpos := hcompletes.pos (by simp [hrecord])
    obtain ⟨-, hone⟩ := hcompletes.accounted.last_completion hrecord hpos hfinal
    exact ⟨hafter.trans (if_pos hfinal), hcompletes.last hone⟩
  · right
    have hquiet : (state.completeQuery qid).sent = state.sent := by
      simp [completeQuery, hnotify, hreq, hfinal]
    refine ⟨?_, _, hafter.trans (if_neg hfinal), hreq⟩
    simp only [hquiet]
    exact hsent

theorem completeQuery_sent_of_ne (hne : qid ≠ done)
    (hexclusive : ∀ other record, state.pendingQueries.queries other = some record →
      record.client = client → other = qid) (hsent : client ∉ state.sent) :
    client ∉ (state.completeQuery done).sent := by
  cases hdone : state.pendingQueries.queries done with
  | none =>
    rw [completeQuery_of_none hdone]
    exact hsent
  | some record =>
    simp only [completeQuery, (handleCompletion_some hdone).1, mem_append, not_or]
    refine ⟨hsent, ?_⟩
    split
    · intro hmem
      have hmine : client = record.client := by simpa using hmem
      exact hne (hexclusive done record hdone hmine.symm).symm
    · simp

theorem kept_watched (qid : Uuid) (client : Actor) : Kept (Watched qid client) where
  next := by
    intro state hnodup hwatched
    have hqueries := next_queries hnodup
    refine ⟨fun other record hrecord hmine => ?_,
      hwatched.waiting.imp ((kept_ended qid).next hnodup) ?_⟩
    · rw [show state.pendingQueries.next.2.queries other = _ from hqueries other] at hrecord
      split at hrecord
      · obtain ⟨found, hfound, rfl⟩ := map_eq_some_iff.mp hrecord
        exact hwatched.exclusive other found hfound hmine
      · exact hwatched.exclusive other record hrecord hmine
    · rintro ⟨hsent, record, hrecord, hreq⟩
      refine ⟨hsent, ?_⟩
      change ∃ record, state.pendingQueries.next.2.queries qid = some record ∧ _
      rw [hqueries, hrecord]
      split
      · exact ⟨_, rfl, hreq⟩
      · exact ⟨record, rfl, hreq⟩
  complete := by
    intro state inflight done lookups running hcompletes hwatched
    constructor
    · intro other record hrecord hmine
      obtain ⟨before, hbefore, hclient⟩ := completeQuery_client hrecord
      exact hwatched.exclusive other before hbefore (hclient.trans hmine)
    · rcases hwatched.waiting with hended | ⟨hsent, record, hrecord, hreq⟩
      · exact Or.inl ((kept_ended qid).complete running hcompletes hended)
      · by_cases heq : qid = done
        · subst heq
          exact Watched.complete_self hcompletes running hsent hrecord hreq
        · exact Or.inr ⟨completeQuery_sent_of_ne heq hwatched.exclusive hsent, record,
            (completeQuery_queries_of_ne heq).trans hrecord, hreq⟩
  ask := by
    intro state lookup running hknown hwatched
    exact ⟨hwatched.exclusive, hwatched.waiting.imp_left ((kept_ended qid).ask running hknown)⟩

/-! ## Events -/

/-- An event is about other queries, of other clients. -/
def Event.Spares (qid : Uuid) (client : Actor) : Event → Prop
  | .evaluate _ contexts other _ _ _ _ => qid ≠ contexts.begin.id ∧ client ≠ other
  | .query _ other _ _ => qid ≠ other
  | .down ids => qid ∉ ids
  | .erase _ | .reply _ _ _ => True

theorem Ended.with_queue (hended : state.Ended qid)
    (hself : queue.queries qid = state.pendingQueries.queries qid) :
    Ended qid { state with pendingQueries := queue } :=
  ⟨hself.trans hended.1, hended.2⟩

theorem Watched.with_queue (hwatched : state.Watched qid client)
    (hself : queue.queries qid = state.pendingQueries.queries qid)
    (hclient : ∀ other record, queue.queries other = some record → record.client = client →
      ∃ before, state.pendingQueries.queries other = some before ∧ before.client = client) :
    Watched qid client { state with pendingQueries := queue } := by
  refine ⟨fun other record hrecord hmine => ?_, hwatched.waiting.imp (·.with_queue hself) ?_⟩
  · obtain ⟨before, hbefore, hsame⟩ := hclient other record hrecord hmine
    exact hwatched.exclusive other before hbefore hsame
  · rintro ⟨hsent, record, hrecord, hreq⟩
    exact ⟨hsent, record, hself.trans hrecord, hreq⟩

theorem foldl_removeQuery_queries (ids : List Uuid) (queue : QueryQueue) (other : Uuid) :
    (ids.foldl (fun queue qid => (queue.removeQuery qid).2) queue).queries other =
      if other ∈ ids then none else queue.queries other := by
  induction ids generalizing queue with
  | nil => simp
  | cons head tail ih =>
    rw [foldl_cons, ih, removeQuery_queries]
    by_cases heq : other = head <;> simp [heq]

variable (hsound : state.Sound schemaOf limit)

include hsound

/-- A query that has ended stays so. -/
theorem handle_ended (hlegal : state.Legal schemaOf event)
    (hspares : event.Spares qid client) (hended : state.Ended qid) :
    (state.handle event).Ended qid := by
  cases event with
  | evaluate std contexts other candidatePartitions requestedPartitions candidates acquire =>
    obtain ⟨hdist, hfresh, hschema⟩ := hlegal
    refine (kept_ended qid).scheduleLookups
      (insert_sound hsound std rfl rfl hdist hfresh hschema) ?_
    exact hended.with_queue (insert_queries_of_ne std _ _ hspares.1)
  | query std other numPartitions acquire =>
    refine (kept_ended qid).scheduleLookups (activate_sound hsound std other numPartitions) ?_
    exact hended.with_queue ((activate_queries std other qid numPartitions).trans (if_neg hspares))
  | down ids => exact hended.with_queue ((foldl_removeQuery_queries ids _ qid).trans
      (if_neg hspares))
  | erase pid => exact hended.with_queue (congrFun (markPartitionErased_queries _ pid) qid)
  | reply index other acquire => exact (kept_ended qid).handleReply hsound hlegal hended

theorem handle_watched (hlegal : state.Legal schemaOf event)
    (hspares : event.Spares qid client) (hwatched : state.Watched qid client) :
    (state.handle event).Watched qid client := by
  cases event with
  | evaluate std contexts owner candidatePartitions requestedPartitions candidates acquire =>
    obtain ⟨hdist, hfresh, hschema⟩ := hlegal
    refine (kept_watched qid client).scheduleLookups
      (insert_sound hsound std rfl rfl hdist hfresh hschema) ?_
    refine hwatched.with_queue (insert_queries_of_ne std _ _ hspares.1) ?_
    intro other record hrecord hmine
    rcases insert_eq_or std state.pendingQueries
      ⟨contexts, owner, candidatePartitions, requestedPartitions, 0, 0⟩ candidates with
      ⟨-, error, hreject⟩ | ⟨-, hinsert⟩
    · rw [hreject] at hrecord
      exact ⟨record, hrecord, hmine⟩
    · rw [hinsert] at hrecord
      simp only [update_apply] at hrecord
      split at hrecord
      · cases hrecord
        exact absurd hmine.symm hspares.2
      · exact ⟨record, hrecord, hmine⟩
  | query std other numPartitions acquire =>
    refine (kept_watched qid client).scheduleLookups
      (activate_sound hsound std other numPartitions) ?_
    refine hwatched.with_queue
      ((activate_queries std other qid numPartitions).trans (if_neg hspares)) ?_
    intro owned record hrecord hmine
    rw [activate_queries] at hrecord
    split at hrecord
    next heq =>
      obtain ⟨before, hbefore, rfl⟩ := map_eq_some_iff.mp hrecord
      exact ⟨before, heq ▸ hbefore, hmine⟩
    · exact ⟨record, hrecord, hmine⟩
  | down ids =>
    refine hwatched.with_queue ((foldl_removeQuery_queries ids _ qid).trans
      (if_neg hspares)) fun other record hrecord hmine => ?_
    rw [foldl_removeQuery_queries] at hrecord
    split at hrecord
    · cases hrecord
    · exact ⟨record, hrecord, hmine⟩
  | erase pid =>
    refine hwatched.with_queue (congrFun (markPartitionErased_queries _ pid) qid)
      fun other record hrecord hmine => ⟨record, ?_, hmine⟩
    rwa [markPartitionErased_queries] at hrecord
  | reply index other acquire =>
    exact (kept_watched qid client).handleReply hsound hlegal hwatched

/-- A client that is new to the index waits for its query, or has none because the
queue rejects it. -/
theorem evaluate_watched (std : PrioritySort) {contexts : TypeQueryContextMap} {partitions : UInt32}
    (hlegal : state.Legal schemaOf
      (.evaluate std contexts client partitions partitions candidates acquire))
    (hunknown : state.pendingQueries.queries contexts.begin.id = none) (hsent : client ∉ state.sent)
    (hclient : ∀ qid record, state.pendingQueries.queries qid = some record →
      record.client ≠ client) :
    (state.handle (.evaluate std contexts client partitions partitions candidates acquire)).Watched
      contexts.begin.id client := by
  obtain ⟨hdist, hfresh, hschema⟩ := hlegal
  refine (kept_watched _ client).scheduleLookups
    (insert_sound hsound std rfl rfl hdist hfresh hschema) ?_
  rcases insert_eq_or std state.pendingQueries ⟨contexts, client, partitions, partitions, 0, 0⟩
    candidates with ⟨-, error, hreject⟩ | ⟨-, hinsert⟩
  · rw [hreject]
    exact ⟨fun other record hrecord hmine => absurd hmine (hclient other record hrecord),
      Or.inl ⟨hunknown, hfresh⟩⟩
  · rw [hinsert]
    constructor
    · intro other record hrecord hmine
      simp only [update_apply] at hrecord
      split at hrecord
      next heq => exact heq
      · exact absurd hmine (hclient other record hrecord)
    · refine Or.inr ⟨hsent, _, update_self _ _ _, rfl⟩

end IndexState

end Vast
