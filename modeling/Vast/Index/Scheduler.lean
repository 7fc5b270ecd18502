import Vast.Index.Contexts
import Vast.Index.ScheduleLookups

/-! # The limit on concurrent lookups

Between any two events the index counts exactly the partitions with outstanding
replies, stays within its limit, and leaves no partition waiting while the
limit is not reached.
-/

namespace Vast

open Foundation QueryQueue List UInt64

namespace IndexState

variable {schemaOf : Uuid → VastType} {limit : UInt64} {state : IndexState}
  {acquire : Uuid → Bool} {queue : QueryQueue} {ids : List Uuid} {entry : Entry} {lookup : Lookup}
  {index : Nat} {qid : Uuid}

variable (lookups : List Lookup)

def outstanding (qid : Uuid) : Nat :=
  (lookups.map fun lookup => lookup.awaiting.count qid).sum

def busy : Nat :=
  lookups.countP fun lookup => !lookup.awaiting.isEmpty

/-- The queue is accounted for by the outstanding replies, and the counters of
the index agree with them. -/
structure Sound (schemaOf : Uuid → VastType) (limit : UInt64) (state : IndexState) :
    Prop where
  accounted : Accounted state.pendingQueries.queries state.pendingQueries.entries
    (outstanding state.lookups)
  fitting : state.pendingQueries.Fitting schemaOf
  counted : ∀ lookup ∈ state.lookups, lookup.cnt = lookup.awaiting.length
  running : state.runningPartitionLookups.toNat = busy state.lookups
  limited : state.runningPartitionLookups ≤ limit
  limit_eq : state.maxConcurrentPartitionLookups = limit

/-- No partition can be taken from the queue while the limit is not reached. -/
def Quiet (state : IndexState) : Prop :=
  state.runningPartitionLookups < state.maxConcurrentPartitionLookups →
    state.pendingQueries.next.1 = none

/-- Changes of the queue that keep the accounting and the contexts. -/
theorem Sound.with_queue (hsound : state.Sound schemaOf limit)
    (hacc : Accounted queue.queries queue.entries (outstanding state.lookups))
    (hfitting : queue.Fitting schemaOf) :
    Sound schemaOf limit { state with pendingQueries := queue } where
  accounted := hacc
  fitting := hfitting
  counted := hsound.counted
  running := hsound.running
  limited := hsound.limited
  limit_eq := hsound.limit_eq

/-- Completing the first of the queries that were handed out leaves the others. -/
theorem completeQuery_accounted {head : Uuid} {tail : List Uuid} (hhead : head ∉ tail)
    (hacc : Accounted state.pendingQueries.queries state.pendingQueries.entries
      fun qid => outstanding state.lookups qid + if qid ∈ head :: tail then 1 else 0) :
    Accounted (state.completeQuery head).pendingQueries.queries
      (state.completeQuery head).pendingQueries.entries fun qid =>
        outstanding (state.completeQuery head).lookups qid + if qid ∈ tail then 1 else 0 := by
  refine (handleCompletion_accounted head hacc fun _ => by simp).congr_inflight
    fun qid _ => ?_
  by_cases heq : qid = head
  · subst heq
    simp [completeQuery, hhead]
  · simp [completeQuery, heq]

/-- Completing queries that were handed out settles their account. -/
theorem immediateCompletion_sound (state : IndexState) (hnodup : ids.Nodup)
    (hacc : Accounted state.pendingQueries.queries state.pendingQueries.entries
      fun qid => outstanding state.lookups qid + if qid ∈ ids then 1 else 0)
    (hfitting : state.pendingQueries.Fitting schemaOf)
    (hcount : ∀ lookup ∈ state.lookups, lookup.cnt = lookup.awaiting.length)
    (hrunning : state.runningPartitionLookups.toNat = busy state.lookups)
    (hlimited : state.runningPartitionLookups ≤ limit)
    (hlimit : state.maxConcurrentPartitionLookups = limit) :
    (state.immediateCompletion ids).Sound schemaOf limit ∧
      (state.immediateCompletion ids).pendingQueries.partitions =
        state.pendingQueries.partitions := by
  induction ids generalizing state with
  | nil =>
    refine ⟨⟨?_, hfitting, hcount, hrunning, hlimited, hlimit⟩, rfl⟩
    exact hacc.congr_inflight fun qid _ => by simp [immediateCompletion]
  | cons head tail ih =>
    obtain ⟨hhead, htail⟩ := nodup_cons.mp hnodup
    obtain ⟨hsound, hparts⟩ := ih (state.completeQuery head) htail
      (completeQuery_accounted hhead hacc) ((trims_handleCompletion _ head).fitting hfitting)
      hcount hrunning hlimited hlimit
    exact ⟨hsound, hparts.trans (handleCompletion_partitions _ head).1⟩

theorem foldl_requestQuery {schedule : IndexState → IndexState}
    (hctxs : ∀ qid ∈ ids, ∃ query, state.pendingQueries.queries qid = some query ∧
      (query.queryContextsPerType.find entry.schema).isSome) :
    ids.foldl (requestQuery schedule entry) (state, lookup) =
      (state, { lookup with awaiting := lookup.awaiting ++ ids }) := by
  induction ids generalizing lookup with
  | nil => simp
  | cons head tail ih =>
    obtain ⟨query, hquery, hctx⟩ := hctxs head mem_cons_self
    obtain ⟨context, hctx⟩ := Option.isSome_iff_exists.mp hctx
    have hhead : requestQuery schedule entry (state, lookup) head =
        (state, { lookup with awaiting := lookup.awaiting ++ [head] }) := by
      simp [requestQuery, hquery, hctx]
    rw [foldl_cons, hhead, ih fun qid hqid => hctxs qid (mem_cons_of_mem _ hqid)]
    simp

theorem outstanding_append (lookup : Lookup) (qid : Uuid) : outstanding (lookups ++ [lookup]) qid =
      outstanding lookups qid + lookup.awaiting.count qid := by
  simp [outstanding]

/-- The partition that is taken from the queue, and what is left of the queue. -/
structure Taken (schemaOf : Uuid → VastType) (state : IndexState) (entry : Entry)
    (queue : QueryQueue) : Prop where
  next_eq : state.pendingQueries.next = (some entry, queue)
  nodup : entry.queries.Nodup
  ne_nil : entry.queries ≠ []
  accounted : Accounted queue.queries queue.entries
    fun qid => outstanding state.lookups qid + if qid ∈ entry.queries then 1 else 0
  fitting : queue.Fitting schemaOf
  contexts : ∀ qid ∈ entry.queries, ∃ query, queue.queries qid = some query ∧
    (query.queryContextsPerType.find entry.schema).isSome
  shorter : queue.partitions.length < state.pendingQueries.partitions.length

theorem Sound.taken (hsound : state.Sound schemaOf limit)
    (hnext : state.pendingQueries.next = (some entry, queue)) :
    Taken schemaOf state entry queue := by
  have hfirst : state.pendingQueries.next.1 = some entry := congrArg Prod.fst hnext
  obtain ⟨hne, hids, hctxs⟩ :=
    next_contexts hsound.accounted.queries_nodup hsound.fitting hfirst
  have hacc := next_accounted hsound.accounted
  have hfitting := next_fitting hsound.accounted.queries_nodup hsound.fitting
  have hshorter := next_length_lt hfirst
  rw [hnext] at hacc hfitting hshorter hctxs
  exact ⟨hnext, hids, hne, hacc, hfitting, hctxs, hshorter⟩

/-- A partition that cannot be asked is completed for its queries at once. -/
theorem Sound.completed (hsound : state.Sound schemaOf limit)
    (htaken : Taken schemaOf state entry queue) :
    (immediateCompletion { state with pendingQueries := queue } entry.queries).Sound
        schemaOf limit ∧
      (immediateCompletion { state with pendingQueries := queue }
        entry.queries).pendingQueries.partitions = queue.partitions :=
  immediateCompletion_sound { state with pendingQueries := queue } htaken.nodup htaken.accounted
    htaken.fitting hsound.counted hsound.running hsound.limited hsound.limit_eq

/-- A partition that is asked counts as running. -/
theorem Sound.asked (hsound : state.Sound schemaOf limit)
    (htaken : Taken schemaOf state entry queue) (hlimited : state.runningPartitionLookups < limit) :
    Sound schemaOf limit { state with
      pendingQueries := queue
      lookups := state.lookups ++ [⟨entry.partition, entry.queries.length, entry.queries⟩]
      runningPartitionLookups := state.runningPartitionLookups + 1 } := by
  have hsucc : (state.runningPartitionLookups + 1).toNat =
      state.runningPartitionLookups.toNat + 1 := by
    have hlt := lt_iff_toNat_lt.mp hlimited
    have hbound := limit.toNat_lt
    rw [UInt64.toNat_add, show (1 : UInt64).toNat = 1 from rfl, Nat.mod_eq_of_lt (by omega)]
  refine ⟨?_, htaken.fitting, ?_, ?_, ?_, hsound.limit_eq⟩
  · refine htaken.accounted.congr_inflight fun qid _ => ?_
    rw [outstanding_append, htaken.nodup.count]
  · intro lookup hlookup
    rcases mem_append.mp hlookup with hold | hnew
    · exact hsound.counted lookup hold
    · rw [mem_singleton.mp hnew]
  · simp only [hsucc, hsound.running, busy, countP_append]
    simp [htaken.ne_nil]
  · rw [le_iff_toNat_le, hsucc]
    exact lt_iff_toNat_lt.mp hlimited

/-- The rule for the loop. It ends when the limit is reached or the queue has nothing to
offer, and before that every partition that is taken is completed at once or asked. -/
theorem scheduleLoop_rule (inv post : IndexState → Prop)
    (hfull : ∀ state : IndexState, state.Sound schemaOf limit → inv state →
      ¬state.runningPartitionLookups < state.maxConcurrentPartitionLookups → post state)
    (hnone : ∀ (state : IndexState) (queue : QueryQueue), state.Sound schemaOf limit → inv state →
      state.pendingQueries.next = (none, queue) → post { state with pendingQueries := queue })
    (hcomplete : ∀ (state : IndexState) (entry : Entry) (queue : QueryQueue),
      state.Sound schemaOf limit → inv state → Taken schemaOf state entry queue →
      inv (immediateCompletion { state with pendingQueries := queue } entry.queries))
    (hask : ∀ (state : IndexState) (entry : Entry) (queue : QueryQueue),
      state.Sound schemaOf limit → inv state → Taken schemaOf state entry queue →
      inv { state with
        pendingQueries := queue
        lookups := state.lookups ++ [⟨entry.partition, entry.queries.length, entry.queries⟩]
        runningPartitionLookups := state.runningPartitionLookups + 1 })
    (fuel : Nat) (hsound : state.Sound schemaOf limit)
    (hfuel : state.pendingQueries.partitions.length < fuel) (hinv : inv state) :
    post (scheduleLoop acquire fuel state) := by
  induction fuel generalizing state with
  | zero => omega
  | succ fuel ih =>
    unfold scheduleLoop
    split
    next hlimited =>
      split
      next queue hnext => exact hnone state queue hsound hinv hnext
      next entry queue hnext =>
        have htaken := hsound.taken hnext
        have hshorter := htaken.shorter
        obtain ⟨hcompl, hparts⟩ := hsound.completed htaken
        dsimp only
        split
        · refine ih hcompl ?_ (hcomplete state entry queue hsound hinv htaken)
          rw [hparts]
          omega
        split
        · refine ih hcompl ?_ (hcomplete state entry queue hsound hinv htaken)
          rw [hparts]
          omega
        · rw [foldl_requestQuery htaken.contexts]
          refine ih ?_ ?_ (hask state entry queue hsound hinv htaken)
          · exact hsound.asked htaken (hsound.limit_eq ▸ hlimited)
          · change queue.partitions.length < fuel
            omega
    next hlimited => exact hfull state hsound hinv hlimited

/-- The loop keeps the books, and it ends because the limit is reached or the
queue has nothing to offer. -/
theorem scheduleLoop_sound (fuel : Nat) (hsound : state.Sound schemaOf limit)
    (hfuel : state.pendingQueries.partitions.length < fuel) :
    (scheduleLoop acquire fuel state).Sound schemaOf limit ∧
      (scheduleLoop acquire fuel state).Quiet := by
  refine scheduleLoop_rule (fun _ => True)
    (fun state => state.Sound schemaOf limit ∧ state.Quiet) ?_ ?_ ?_ ?_ fuel hsound hfuel trivial
  · exact fun state hsound _ hfull => ⟨hsound, fun hlimited => absurd hlimited hfull⟩
  · intro state queue hsound _ hnext
    have hacc := next_accounted hsound.accounted
    have hfitting := next_fitting hsound.accounted.queries_nodup hsound.fitting
    have hempty := next_partitions_of_none (congrArg Prod.fst hnext)
    rw [hnext] at hacc hfitting hempty
    refine ⟨hsound.with_queue hacc hfitting, fun _ => ?_⟩
    rw [next_eq_none_iff]
    change ∀ entry ∈ queue.partitions, _
    simp [show queue.partitions = [] from hempty]
  · exact fun _ _ _ _ _ _ => trivial
  · exact fun _ _ _ _ _ _ => trivial

theorem scheduleLookups_sound (hsound : state.Sound schemaOf limit) :
    (scheduleLookups acquire state).Sound schemaOf limit ∧
      (scheduleLookups acquire state).Quiet := by
  unfold scheduleLookups
  split
  · exact scheduleLoop_sound _ hsound (Nat.lt_succ_self _)
  next hidle =>
    refine ⟨hsound, fun _ => ?_⟩
    rw [next_eq_none_iff]
    intro entry hentry
    simp only [hasWork, Bool.not_eq_true', Bool.not_eq_false, List.isEmpty_iff] at hidle
    simp [hidle] at hentry

/-! ## Replies -/

/-- A lookup after the reply for a query. -/
def answered (lookup : Lookup) (qid : Uuid) : Lookup :=
  { lookup with cnt := lookup.cnt - 1, awaiting := lookup.awaiting.erase qid }

theorem exists_of_reply {lookups : List Lookup} (hlookup : lookups[index]? = some lookup)
    (qid : Uuid) : ∃ before after, lookups = before ++ lookup :: after ∧
      lookups.set index (answered lookup qid) = before ++ answered lookup qid :: after := by
  obtain ⟨hlt, rfl⟩ := List.getElem?_eq_some_iff.mp hlookup
  obtain ⟨before, after, heq, -, hset⟩ := List.exists_of_set hlt
  exact ⟨before, after, heq, hset⟩

theorem outstanding_pos {lookups : List Lookup} (hlookup : lookup ∈ lookups)
    (hqid : qid ∈ lookup.awaiting) : 0 < outstanding lookups qid :=
  List.sum_pos_iff_exists_pos_nat.mpr ⟨_, mem_map_of_mem hlookup, count_pos_iff.mpr hqid⟩

theorem outstanding_answered {before after : List Lookup} (hqid : qid ∈ lookup.awaiting) :
    outstanding (before ++ answered lookup qid :: after) =
      Function.update (outstanding (before ++ lookup :: after)) qid
        (outstanding (before ++ lookup :: after) qid - 1) := by
  funext other
  have hpos := count_pos_iff.mpr hqid
  by_cases heq : other = qid
  · subst heq
    simp only [outstanding, answered, Function.update_self, map_append, map_cons,
      sum_append, sum_cons, count_erase_self]
    omega
  · simp [outstanding, answered, heq]

theorem reply_sound (hsound : state.Sound schemaOf limit)
    (hlookup : state.lookups[index]? = some lookup) (hqid : qid ∈ lookup.awaiting) :
    Sound schemaOf limit { state.completeQuery qid with
      lookups := state.lookups.set index (answered lookup qid)
      runningPartitionLookups := if lookup.cnt - 1 = 0 then state.runningPartitionLookups - 1
        else state.runningPartitionLookups } := by
  obtain ⟨before, after, heq, hset⟩ := exists_of_reply hlookup qid
  have hmem : lookup ∈ state.lookups := mem_of_getElem? hlookup
  have hcnt := hsound.counted lookup hmem
  have hlen : (lookup.awaiting.erase qid).length = lookup.awaiting.length - 1 :=
    length_erase_of_mem hqid
  have hbusy : busy state.lookups = busy before + 1 + busy after := by
    have hne : lookup.awaiting ≠ [] := ne_nil_of_mem hqid
    rw [heq]
    simp [busy, hne]
    omega
  have hbusy_answered : busy (before ++ answered lookup qid :: after) =
      busy before + (if lookup.cnt - 1 = 0 then 0 else 1) + busy after := by
    have hiff : lookup.awaiting.erase qid = [] ↔ lookup.cnt - 1 = 0 := by
      rw [← length_eq_zero_iff, hlen, hcnt]
    simp only [busy, answered, countP_append, countP_cons, Bool.not_eq_true',
      isEmpty_eq_false_iff, ne_eq, hiff, ite_not]
    omega
  have hrunning := hsound.running
  have hpred : (state.runningPartitionLookups - 1).toNat =
      state.runningPartitionLookups.toNat - 1 := by
    rw [UInt64.toNat_sub_of_le _ _ ?_]
    · rfl
    · rw [le_iff_toNat_le, hrunning, hbusy, show (1 : UInt64).toNat = 1 from rfl]
      omega
  refine ⟨?_, (trims_handleCompletion _ qid).fitting hsound.fitting, ?_, ?_, ?_, hsound.limit_eq⟩
  · have hcompl := handleCompletion_accounted qid hsound.accounted fun _ =>
      outstanding_pos hmem hqid
    rw [heq, ← outstanding_answered hqid] at hcompl
    simp only [hset]
    exact hcompl
  · intro other hother
    simp only [hset, mem_append, mem_cons] at hother
    rcases hother with hold | rfl | hold
    · exact hsound.counted other (by simp [heq, hold])
    · simp only [answered, hlen, hcnt]
    · exact hsound.counted other (by simp [heq, hold])
  · simp only [hset, hbusy_answered]
    split
    · rw [hpred, hrunning, hbusy]
      omega
    · rw [hrunning, hbusy]
  · have hlimited := le_iff_toNat_le.mp hsound.limited
    simp only
    split
    · rw [le_iff_toNat_le, hpred]
      omega
    · exact hsound.limited

/-! ## Runs of the index -/

/-- What the environment guarantees: a query enters with distinct candidates,
under an id that nobody waits for, and with a context for the schema of each
candidate; and replies answer outstanding requests. -/
def Legal (schemaOf : Uuid → VastType) (state : IndexState) : Event → Prop
  | .evaluate _ contexts _ _ _ candidates _ =>
    (candidates.candidates.map fun candidate => candidate.2.uuid).Nodup ∧
      outstanding state.lookups contexts.begin.id = 0 ∧
      ∀ candidate ∈ candidates.candidates, candidate.1 = schemaOf candidate.2.uuid ∧
        (contexts.find candidate.1).isSome
  | .reply index qid _ => ∃ lookup ∈ state.lookups[index]?, qid ∈ lookup.awaiting
  | _ => True

instance (schemaOf : Uuid → VastType) (state : IndexState) (event : Event) :
    Decidable (state.Legal schemaOf event) := by
  cases event <;> unfold Legal <;> infer_instance

section

variable (hsound : state.Sound schemaOf limit)

include hsound

theorem handleReply_sound (hquiet : state.Quiet)
    (hlegal : ∃ lookup ∈ state.lookups[index]?, qid ∈ lookup.awaiting) :
    (state.handleReply index qid acquire).Sound schemaOf limit ∧
      (state.handleReply index qid acquire).Quiet := by
  obtain ⟨lookup, hlookup, hqid⟩ := hlegal
  have hreply := reply_sound hsound hlookup hqid
  rw [Option.mem_def] at hlookup
  simp only [handleReply, hlookup]
  split
  next hlast =>
    rw [if_pos hlast] at hreply
    exact scheduleLookups_sound hreply
  next hmore =>
    rw [if_neg hmore] at hreply
    exact ⟨hreply, fun hlimited => (trims_handleCompletion _ qid).next_none (hquiet hlimited)⟩

theorem activate_sound (std : PrioritySort) (other : Uuid) (numPartitions : UInt32) :
    Sound schemaOf limit { state with
      pendingQueries := (state.pendingQueries.activate std other numPartitions).2 } :=
  hsound.with_queue (activate_accounted hsound.accounted std other numPartitions)
    (activate_fitting std other numPartitions hsound.fitting)

theorem insert_sound (std : PrioritySort) {query : QueryState}
    {candidates : CatalogLookupResult} (hsched : query.scheduledPartitions = 0)
    (hcompl : query.completedPartitions = 0)
    (hdist : (candidates.candidates.map fun candidate => candidate.2.uuid).Nodup)
    (hfresh : outstanding state.lookups query.queryContextsPerType.begin.id = 0)
    (hschema : ∀ candidate ∈ candidates.candidates, candidate.1 = schemaOf candidate.2.uuid ∧
      (query.queryContextsPerType.find candidate.1).isSome) : Sound schemaOf limit { state with
      pendingQueries := (state.pendingQueries.insert std query candidates).2 } :=
  hsound.with_queue (insert_accounted hsound.accounted std hdist hsched hcompl hfresh)
    (insert_fitting std hsound.accounted hschema hsound.fitting)

theorem down_sound (ids : List Uuid) (hquiet : state.Quiet) :
    (state.handle (.down ids)).Sound schemaOf limit ∧ (state.handle (.down ids)).Quiet := by
  have hremove : ∀ queue : QueryQueue,
      Accounted queue.queries queue.entries (outstanding state.lookups) → queue.Fitting schemaOf →
      let after := ids.foldl (fun queue qid => (queue.removeQuery qid).2) queue
      Accounted after.queries after.entries (outstanding state.lookups) ∧
        after.Fitting schemaOf ∧ (queue.next.1 = none → after.next.1 = none) := by
    induction ids with
    | nil => exact fun _ hacc hfitting => ⟨hacc, hfitting, id⟩
    | cons head tail ih =>
      intro queue hacc hfitting
      obtain ⟨hacc', hfitting', hnone⟩ := ih (queue.removeQuery head).2
        (removeQuery_accounted hacc head) ((trims_removeQuery _ head).fitting hfitting)
      exact ⟨hacc', hfitting', fun h => hnone ((trims_removeQuery _ head).next_none h)⟩
  obtain ⟨hacc, hfitting, hnone⟩ := hremove _ hsound.accounted hsound.fitting
  exact ⟨hsound.with_queue hacc hfitting, fun hlimited => hnone (hquiet hlimited)⟩

end

theorem handle_sound (state : IndexState) (event : Event)
    (hinv : state.Sound schemaOf limit ∧ state.Quiet) (hlegal : state.Legal schemaOf event) :
    (state.handle event).Sound schemaOf limit ∧ (state.handle event).Quiet := by
  obtain ⟨hsound, hquiet⟩ := hinv
  cases event with
  | evaluate std contexts client candidatePartitions requestedPartitions candidates acquire =>
    obtain ⟨hdist, hfresh, hschema⟩ := hlegal
    exact scheduleLookups_sound (insert_sound hsound std rfl rfl hdist hfresh hschema)
  | query std qid numPartitions acquire =>
    exact scheduleLookups_sound (activate_sound hsound std qid numPartitions)
  | down ids => exact down_sound hsound ids hquiet
  | erase pid =>
    refine ⟨hsound.with_queue (markPartitionErased_accounted hsound.accounted pid)
      ((trims_markPartitionErased _ pid).fitting hsound.fitting), ?_⟩
    exact fun hlimited => (trims_markPartitionErased _ pid).next_none (hquiet hlimited)
  | reply index qid acquire => exact handleReply_sound hsound hquiet hlegal

theorem sound_initial (schemaOf : Uuid → VastType) (limit : UInt64) :
    Sound schemaOf limit { maxConcurrentPartitionLookups := limit } where
  accounted := accounted_empty
  fitting := by simp [Fitting, entries]
  counted := by simp
  running := rfl
  limited := UInt64.zero_le
  limit_eq := rfl

/-- Between events, the counter of running lookups is the number of partitions
with outstanding replies and within the limit, and below the limit the queue
has nothing to offer. -/
theorem lookups_limited (schemaOf : Uuid → VastType) (limit : UInt64) (events : List Event)
    (hrun : Run.Admissible handle (Legal schemaOf)
      { maxConcurrentPartitionLookups := limit } events) :
    let state := events.foldl handle { maxConcurrentPartitionLookups := limit }
    state.runningPartitionLookups.toNat =
        state.lookups.countP (fun lookup => !lookup.awaiting.isEmpty) ∧
      state.runningPartitionLookups ≤ limit ∧
      (state.runningPartitionLookups < limit → state.pendingQueries.next.1 = none) := by
  intro state
  obtain ⟨hsound, hquiet⟩ : state.Sound schemaOf limit ∧ state.Quiet := by
    refine Run.invariant _ handle_sound ⟨sound_initial schemaOf limit, fun _ => rfl⟩ hrun
  refine ⟨hsound.running, hsound.limited, fun hlimited => hquiet ?_⟩
  rw [hsound.limit_eq]
  exact hlimited

/-- Two queries share a partition and one lookup may run at a time. A client
goes down before the reply for its query arrives. -/
def sampleEvents : List Event := [
  .evaluate .insertion (QueueRun.sampleContexts 1 25) ⟨1⟩ 2 2
    (QueueRun.sampleCandidates [11, 12]) fun _ => true,
  .evaluate .insertion (QueueRun.sampleContexts 2 100) ⟨2⟩ 1 1
    (QueueRun.sampleCandidates [11]) fun _ => true,
  .reply 0 1 fun _ => true,
  .down [1],
  .reply 1 1 fun _ => true ]

/-- One of two lookups has all its replies, and one is counted as running. -/
theorem lookups_limited_sample :
    (sampleEvents.foldl handle { maxConcurrentPartitionLookups := 1 }).lookups =
        [⟨12, 0, []⟩, ⟨11, 1, [2]⟩] ∧
      (sampleEvents.foldl handle
        { maxConcurrentPartitionLookups := 1 }).runningPartitionLookups.toNat =
        (sampleEvents.foldl handle { maxConcurrentPartitionLookups := 1 }).lookups.countP
          fun lookup => !lookup.awaiting.isEmpty :=
  ⟨by decide, (lookups_limited (fun _ => .none) 1 sampleEvents (by decide)).1⟩

end IndexState

end Vast
