import Vast.Partition.ActivePartition

/-! # The promise of a partition to persist itself

The answers of the indexers arrive in any order. Only a chunk that comes last makes
the partition write itself, and only a missing chunk fulfils the promise with an
error at once. An error is counted, but it leaves a promise that is still pending as it
is. So the promise is kept unless an error is the last answer of all.
-/

namespace Vast

open Foundation List SnapshotReply AssocList

namespace SnapshotReply

def failed : SnapshotReply → Bool
  | .chunk _ => false
  | .nullChunk => true
  | .error _ => true

def isNull : SnapshotReply → Bool
  | .nullChunk => true
  | _ => false

def isError : SnapshotReply → Bool
  | .error _ => true
  | _ => false

theorem failed_eq (reply : SnapshotReply) : reply.failed = (reply.isNull || reply.isError) := by
  cases reply <;> rfl

end SnapshotReply

namespace Persisting

variable {σ : Type} {state : Persisting σ} {sender : Nat}

/-! ## What is promised -/

section

variable (state : Persisting σ)

def SomeFailed : Prop :=
  ∃ reply ∈ state.replied, reply.2.failed = true

def AllReplied : Prop :=
  state.resuming = false ∧ state.awaiting = []

/-- When all indexers have answered, the promise is fulfilled or the partition has been
serialized once. When an indexer has failed, no synopsis is delivered, and the promise is
fulfilled with an error as soon as all indexers have answered. -/
structure KeepsPromise : Prop where
  answered : state.AllReplied → state.delivered ≠ [] ∨ state.serialized = 1
  no_synopsis : state.SomeFailed → ∀ synopsis, .ok synopsis ∉ state.delivered
  error : state.SomeFailed → state.AllReplied → ∃ error, state.delivered = [.error error]

/-- The answers of the indexers in the order in which they arrive. -/
def answers (events : List Event) : List (Nat × SnapshotReply) :=
  events.filterMap fun
    | .snapshot sender reply => some (sender, reply)
    | _ => none

/-- Every valid indexer has answered, the last one with an error, and none with a missing
chunk. -/
def Stalled (partition : ActivePartitionState σ) (replies : List (Nat × SnapshotReply)) : Prop :=
  (∀ actor ∈ partition.validIndexers, actor ∈ replies.map Prod.fst) ∧
    (∃ last ∈ replies.getLast?, last.2.isError = true) ∧
    ∀ reply ∈ replies, reply.2.isNull = false

/-! ## Serializing -/

theorem indexerChunks_error {chunks : List (Nat × List UInt8)} {actor : Nat}
    (hchunk : chunks.lookup actor = none) {indexers : List (QualifiedRecordField × Option Nat)}
    (hactor : actor ∈ indexers.filterMap Prod.snd) :
    ∃ missing, indexerChunks chunks indexers = .error missing := by
  induction indexers with
  | nil => simp at hactor
  | cons entry rest ih =>
    obtain ⟨field, indexer⟩ := entry
    cases indexer with
    | none =>
      obtain ⟨missing, hmissing⟩ := ih hactor
      exact ⟨missing, by rw [indexerChunks, hmissing]; rfl⟩
    | some other =>
      have hmem : actor = other ∨ actor ∈ rest.filterMap Prod.snd := by simpa using hactor
      rcases hmem with rfl | hactor
      · exact ⟨actor, by simp [indexerChunks, hchunk]⟩
      · obtain ⟨missing, hmissing⟩ := ih hactor
        simp only [indexerChunks, hmissing]
        cases chunks.lookup other with
        | none => exact ⟨other, rfl⟩
        | some chunk => exact ⟨missing, rfl⟩

/-- What is left of the promise: it is broken, or the write is outstanding, or the
synopsis is delivered. -/
inductive Outcome (state : Persisting σ) : Prop where
  | error (error : PersistError) (hdelivered : state.delivered = [.error error])
      (hwriting : state.writing = false)
  | writing (hnone : ∀ reply ∈ state.replied, reply.2.isError = false)
      (hdelivered : state.delivered = []) (hwriting : state.writing = true)
  | written (synopsis : σ) (hnone : ∀ reply ∈ state.replied, reply.2.isError = false)
      (hdelivered : state.delivered = [.ok synopsis]) (hwriting : state.writing = false)

/-- What is asked and answered. -/
def exchange : ActivePartitionState σ × Bool × List Nat × List (Nat × SnapshotReply) :=
  (state.partition, state.resuming, state.awaiting, state.replied)

theorem exchange_deliver (reply : Except PersistError σ) :
    (state.deliver reply).exchange = state.exchange := by
  unfold deliver
  split <;> rfl

theorem exchange_serialize : state.serialize.exchange = state.exchange := by
  unfold serialize
  dsimp only
  split
  · exact exchange_deliver ..
  · split
    · exact exchange_deliver ..
    · split
      · exact exchange_deliver ..
      · rfl

end

theorem deliver_of_pending {reply : Except PersistError σ} (hdeliv : state.delivered = []) :
    state.deliver reply = { state with delivered := [reply] } := by
  simp [deliver, pending, hdeliv]

theorem serialize_outcome (hdeliv : state.delivered = []) (hwriting : state.writing = false)
    (hserialized : state.serialized = 0)
    (hchunks : ∀ reply ∈ state.replied, reply.2.isError = true →
      reply.1 ∈ state.partition.validIndexers ∧ state.chunks.lookup reply.1 = none) :
    state.serialize.serialized = 1 ∧ Outcome state.serialize := by
  have hbroken : ∀ error,
      (deliver { state with serialized := state.serialized + 1 } (.error error)).serialized = 1 ∧
      Outcome (deliver { state with serialized := state.serialized + 1 } (.error error)) := by
    intro error
    rw [deliver_of_pending]
    · exact ⟨by simp [hserialized], .error error rfl hwriting⟩
    · exact hdeliv
  unfold serialize
  dsimp only
  split
  · exact hbroken _
  next chunks hchunksOk =>
    have hnone : ∀ reply ∈ state.replied, reply.2.isError = false := by
      intro reply hreply
      rw [Bool.eq_false_iff]
      intro herror
      obtain ⟨hvalid, hlookup⟩ := hchunks reply hreply herror
      obtain ⟨missing, hmissing⟩ := indexerChunks_error hlookup hvalid
      rw [hmissing] at hchunksOk
      cases hchunksOk
    split
    · exact hbroken _
    · split
      · exact hbroken _
      · exact ⟨by simp [hserialized], .writing hnone hdeliv rfl⟩

/-! ## From the request to the end -/

section

variable (state : Persisting σ)

/-- The snapshots are requested. Every valid indexer is waited for or has answered. -/
structure Requested : Prop where
  resuming_eq : state.resuming = false
  answers : (state.awaiting ++ state.replied.map Prod.fst).Perm state.partition.validIndexers

structure Resuming : Prop where
  resuming : state.resuming = true
  replied : state.replied = []
  awaiting : state.awaiting = []
  delivered : state.delivered = []
  serialized : state.serialized = 0
  writing : state.writing = false
  persisted : state.persistedIndexers = 0
  chunks : state.chunks = []

structure Refused : Prop where
  resuming : state.resuming = false
  replied : state.replied = []
  awaiting : state.awaiting = []
  delivered : state.delivered = [.error .noIndexers]
  serialized : state.serialized = 0
  writing : state.writing = false

structure Gathering : Prop extends Requested state where
  chunks : ∀ actor chunk, state.chunks.lookup actor = some chunk →
    (actor, .chunk chunk) ∈ state.replied
  null : ∀ reply ∈ state.replied, reply.2.isNull = false
  delivered : state.delivered = []
  serialized : state.serialized = 0
  writing : state.writing = false

/-- If no answer is missing, the last one is an error. -/
structure Collecting : Prop extends Gathering state where
  persisted : state.persistedIndexers = state.replied.length
  last : state.awaiting = [] → ∃ last ∈ state.replied.getLast?, last.2.isError = true

structure Failing (error : PersistError) : Prop extends Requested state where
  null : ∃ reply ∈ state.replied, reply.2.isNull = true
  delivered : state.delivered = [.error error]
  serialized : state.serialized = 0
  writing : state.writing = false

/-- All indexers have answered, the last one with a chunk. -/
structure Serialized : Prop extends Requested state where
  awaiting : state.awaiting = []
  null : ∀ reply ∈ state.replied, reply.2.isNull = false
  last : ∀ last ∈ state.replied.getLast?, last.2.isError = false
  serialized : state.serialized = 1
  outcome : state.Outcome

end

inductive Phase (state : Persisting σ) : Prop where
  | resuming (hphase : state.Resuming)
  | refused (hphase : state.Refused)
  | collecting (hphase : state.Collecting)
  | failed (error : PersistError) (hphase : state.Failing error)
  | serialized (hphase : state.Serialized)

theorem Phase.with_streams (hphase : Phase state) (streamingInitiated : Bool) (inboundPaths : Nat) :
    Phase
      { state with
        streamingInitiated := streamingInitiated
        inboundPaths := inboundPaths } := by
  cases hphase with
  | resuming h => exact .resuming { h with }
  | refused h => exact .refused { h with }
  | collecting h => exact .collecting { h with }
  | failed error h => exact .failed error { h with }
  | serialized h =>
    refine .serialized { h with outcome := ?_ }
    cases h.outcome with
    | error error h1 h2 => exact .error error h1 h2
    | writing h1 h2 h3 => exact .writing h1 h2 h3
    | written synopsis h1 h2 h3 => exact .written synopsis h1 h2 h3

theorem Requested.nodup (hreq : state.Requested) :
    (state.awaiting ++ state.replied.map Prod.fst).Nodup :=
  hreq.answers.nodup_iff.mpr state.partition.distinct

theorem Requested.take (hreq : state.Requested) (hsender : sender ∈ state.awaiting)
    (reply : SnapshotReply) : Requested
      { state with
        awaiting := state.awaiting.erase sender
        replied := state.replied ++ [(sender, reply)] } where
  resuming_eq := hreq.resuming_eq
  answers := by
    have hsplit : (state.awaiting.erase sender ++ (state.replied.map Prod.fst ++ [sender])).Perm
        (sender :: state.awaiting.erase sender ++ state.replied.map Prod.fst) := by
      rw [← append_assoc]
      exact perm_append_singleton _ _
    rw [map_append, map_singleton]
    refine (hsplit.trans ?_).trans hreq.answers
    exact ((perm_cons_erase hsender).symm).append_right _

theorem Requested.length (hreq : state.Requested) :
    state.awaiting.length + state.replied.length = state.partition.validIndexers.length := by
  have hlen := hreq.answers.length_eq
  rwa [length_append, length_map] at hlen

theorem Gathering.lookup_eq_none (hgathering : state.Gathering) :
    ∀ reply ∈ state.replied, reply.2.isError = true →
      reply.1 ∈ state.partition.validIndexers ∧ state.chunks.lookup reply.1 = none := by
  intro reply hreply herror
  constructor
  · rw [← hgathering.answers.mem_iff]
    exact mem_append_right _ (mem_map_of_mem hreply)
  · cases hlookup : state.chunks.lookup reply.1 with
    | none => rfl
    | some chunk =>
      have hsame := inj_on_of_nodup_map (nodup_append.mp hgathering.nodup).2.1
        hreply (hgathering.chunks _ _ hlookup) rfl
      rw [hsame] at herror
      cases herror

theorem Phase.serialize (hgathering : state.Gathering) (hawaiting : state.awaiting = [])
    (hlast : ∀ last ∈ state.replied.getLast?, last.2.isError = false) : Phase state.serialize := by
  have hsame := exchange_serialize state
  simp only [exchange, Prod.mk.injEq] at hsame
  obtain ⟨hpartition, hresuming, hasked, hreplied⟩ := hsame
  obtain ⟨hserialized, hout⟩ := serialize_outcome hgathering.delivered hgathering.writing
    hgathering.serialized hgathering.lookup_eq_none
  refine .serialized ⟨⟨?_, ?_⟩, ?_, ?_, ?_, hserialized, hout⟩
  · rw [hresuming, hgathering.resuming_eq]
  · rw [hasked, hreplied, hpartition]
    exact hgathering.answers
  · rw [hasked, hawaiting]
  · rw [hreplied]
    exact hgathering.null
  · rw [hreplied]
    exact hlast

theorem Phase.resume (hphase : Phase state) (hresuming : state.resuming = true) :
    Phase state.resume := by
  have hcontra : ¬state.resuming = false := by simp [hresuming]
  unfold Persisting.resume
  split
  · cases hphase with
    | resuming h =>
      unfold requestSnapshots
      split
      next hempty =>
        rw [deliver_of_pending]
        · exact .refused ⟨rfl, h.replied, h.awaiting, rfl, h.serialized, h.writing⟩
        · exact h.delivered
      · split
        next hvalid =>
          apply Phase.serialize
          · refine ⟨⟨rfl, ?_⟩, ?_, ?_, h.delivered, h.serialized, h.writing⟩
            · simp [h.awaiting, h.replied, eq_nil_of_length_eq_zero hvalid]
            · simp [h.chunks]
            · simp [h.replied]
          · exact h.awaiting
          · simp [h.replied]
        next hvalid =>
          refine .collecting ⟨⟨⟨rfl, ?_⟩, ?_, ?_, h.delivered, h.serialized, h.writing⟩, ?_, ?_⟩
          · simp [h.replied]
          · simp [h.chunks]
          · simp [h.replied]
          · simp [h.replied, h.persisted]
          · intro hnone
            exact absurd (congrArg length hnone) hvalid
    | refused h => exact absurd h.resuming hcontra
    | collecting h | failed _ h | serialized h => exact absurd h.resuming_eq hcontra
  · exact hphase

/-- A chunk is put to the others, and the last one is followed by the write. -/
theorem Phase.chunk (h : state.Collecting) (hsender : sender ∈ state.awaiting)
    (chunk : List UInt8) : Phase (state.step (.snapshot sender (.chunk chunk))) := by
  have htaken := h.take hsender (.chunk chunk)
  have hlen : (state.awaiting.erase sender).length + (state.replied.length + 1) =
      state.partition.validIndexers.length := by
    simpa using htaken.length
  have hstored : ∀ actor stored,
      (emplace sender chunk state.chunks).lookup actor = some stored →
        (actor, .chunk stored) ∈ state.replied ++ [(sender, .chunk chunk)] := by
    intro actor stored hlookup
    rw [lookup_emplace] at hlookup
    split at hlookup
    next heq =>
      subst heq
      cases hold : state.chunks.lookup actor with
      | none =>
        rw [hold] at hlookup
        cases hlookup
        simp
      | some old =>
        rw [hold] at hlookup
        cases hlookup
        exact mem_append_left _ (h.chunks _ _ hold)
    · exact mem_append_left _ (h.chunks _ _ hlookup)
  have hnull : ∀ reply ∈ state.replied ++ [(sender, .chunk chunk)], reply.2.isNull = false :=
    forall_mem_append.mpr ⟨h.null, by simp [isNull]⟩
  simp only [step, handleSnapshot, pending, h.delivered, isEmpty_nil, Bool.not_true,
    Bool.false_eq_true, if_false]
  split
  next hmore =>
    refine .collecting ⟨⟨{ htaken with }, hstored, hnull, rfl, h.serialized, h.writing⟩, ?_,
      fun hnone => ?_⟩
    · simp [h.persisted]
    · have hzero : (state.awaiting.erase sender).length = 0 := congrArg length hnone
      rw [h.persisted] at hmore
      omega
  next hall =>
    apply Phase.serialize
    · exact ⟨{ htaken with }, hstored, hnull, rfl, h.serialized, h.writing⟩
    · change state.awaiting.erase sender = []
      apply eq_nil_of_length_eq_zero
      rw [h.persisted] at hall
      omega
    · simp [isError]

/-- When the promise is fulfilled, an answer is only counted. -/
theorem handleSnapshot_of_fulfilled (hdeliv : state.delivered ≠ []) (sender : Nat)
    (reply : SnapshotReply) : state.handleSnapshot sender reply =
      { state with persistedIndexers := state.persistedIndexers + 1 } := by
  cases reply with
  | chunk chunk | nullChunk => simp [handleSnapshot, pending, hdeliv]
  | error error => simp [handleSnapshot, deliver]

theorem Phase.snapshot (hphase : Phase state) (hsender : sender ∈ state.awaiting)
    (reply : SnapshotReply) : Phase (state.step (.snapshot sender reply)) := by
  have hcontra : ¬state.awaiting = [] := ne_nil_of_mem hsender
  cases hphase with
  | resuming h | refused h | serialized h => exact absurd h.awaiting hcontra
  | collecting h =>
    have htaken := h.take hsender reply
    cases reply with
    | chunk chunk => exact Phase.chunk h hsender chunk
    | nullChunk =>
      simp only [step, handleSnapshot, pending, h.delivered]
      rw [deliver_of_pending rfl]
      exact .failed _ ⟨{ htaken with }, ⟨(sender, .nullChunk), by simp, rfl⟩, rfl,
        h.serialized, h.writing⟩
    | error error =>
      -- The promise stays as it is.
      simp only [step, handleSnapshot, pending, h.delivered]
      refine .collecting ⟨⟨{ htaken with }, ?_, ?_, rfl, h.serialized, h.writing⟩, ?_,
        fun _ => ⟨(sender, .error error), by simp, rfl⟩⟩
      · exact fun actor chunk hlookup => mem_append_left _ (h.chunks _ _ hlookup)
      · exact forall_mem_append.mpr ⟨h.null, by simp [isNull]⟩
      · simp [h.persisted]
  | failed error h =>
    have htaken := h.take hsender reply
    obtain ⟨missing, hmissing, hisnull⟩ := h.null
    rw [step, handleSnapshot_of_fulfilled]
    · exact .failed error ⟨{ htaken with }, ⟨missing, mem_append_left _ hmissing, hisnull⟩,
        h.delivered, h.serialized, h.writing⟩
    · simp [h.delivered]

theorem Phase.written (hphase : Phase state) (hwriting : state.writing = true)
    (error : Option Error) : Phase (state.step (.written error)) := by
  have hcontra : ¬state.writing = false := by simp [hwriting]
  cases hphase with
  | resuming h | refused h | collecting h | failed _ h => exact absurd h.writing hcontra
  | serialized h =>
    cases h.outcome with
    | error _ _ hfalse | written _ _ _ hfalse => exact absurd hfalse hcontra
    | writing hnone hdeliv _ =>
      simp only [step]
      cases error with
      | none =>
        rw [handleWritten, deliver_of_pending]
        · exact .serialized { h with outcome := .written _ hnone rfl rfl }
        · exact hdeliv
      | some error =>
        rw [handleWritten, deliver_of_pending]
        · exact .serialized { h with outcome := .error _ rfl rfl }
        · exact hdeliv

theorem Phase.step (hphase : Phase state) {event : Event} (henabled : state.Enabled event) :
    Phase (state.step event) := by
  cases event with
  | stream | streamEnd => exact hphase.with_streams _ _
  | resume => exact hphase.resume henabled
  | snapshot sender reply => exact hphase.snapshot henabled reply
  | written error => exact hphase.written henabled error

theorem Phase.run (hphase : Phase state) {events : List Event}
    (hrun : Run.Admissible Persisting.step Enabled state events) :
    Phase (events.foldl Persisting.step state) :=
  Run.invariant Phase (fun _ _ hphase henabled => hphase.step henabled) hphase hrun

/-! ## The answers -/

theorem exchange_handleSnapshot (state : Persisting σ) (sender : Nat) (reply : SnapshotReply) :
    (state.handleSnapshot sender reply).exchange = state.exchange := by
  cases reply with
  | chunk chunk =>
    simp only [handleSnapshot]
    split
    · rfl
    · split
      · rfl
      · exact exchange_serialize _
  | nullChunk =>
    simp only [handleSnapshot]
    split
    · rfl
    · exact exchange_deliver ..
  | error error =>
    simp only [handleSnapshot]
    split
    · exact exchange_deliver ..
    · rfl

theorem step_answers (event : Event) : (state.step event).partition = state.partition ∧
      (state.step event).replied = state.replied ++ answers [event] := by
  -- Only the answer of an indexer is recorded.
  have hsame (before : Persisting σ) {after : Persisting σ}
      (heq : after.exchange = before.exchange) :
      after.partition = before.partition ∧ after.replied = before.replied :=
    ⟨congrArg (·.1) heq, congrArg (·.2.2.2) heq⟩
  cases event with
  | snapshot sender reply => exact hsame _ (exchange_handleSnapshot _ sender reply)
  | stream | streamEnd => exact ⟨rfl, (append_nil _).symm⟩
  | resume =>
    rw [show answers [.resume] = [] from rfl, append_nil, step, resume]
    split
    · unfold requestSnapshots
      split
      · exact hsame { state with resuming := false } (exchange_deliver ..)
      · split
        · exact hsame { state with resuming := false } (exchange_serialize _)
        · exact ⟨rfl, rfl⟩
    · exact ⟨rfl, rfl⟩
  | written error =>
    rw [show answers [.written error] = [] from rfl, append_nil]
    cases error <;> exact hsame { state with writing := false } (exchange_deliver ..)

theorem run_answers (events : List Event) : (events.foldl step state).partition = state.partition ∧
      (events.foldl step state).replied = state.replied ++ answers events := by
  induction events generalizing state with
  | nil => exact ⟨rfl, by simp [answers]⟩
  | cons event events ih =>
    obtain ⟨hpart, hreplied⟩ := step_answers event
    have hcons : answers (event :: events) = answers [event] ++ answers events := by
      rw [answers, answers, answers, ← filterMap_append, singleton_append]
    rw [foldl_cons, ih.1, ih.2, hpart, hreplied, hcons, append_assoc]
    exact ⟨rfl, rfl⟩

/-! ## The promise -/

theorem Requested.awaiting_eq_nil (hreq : state.Requested)
    (hall : ∀ actor ∈ state.partition.validIndexers, actor ∈ state.replied.map Prod.fst) :
    state.awaiting = [] := by
  rw [eq_nil_iff_forall_not_mem]
  intro actor hactor
  have hvalid : actor ∈ state.partition.validIndexers :=
    hreq.answers.mem_iff.mp (mem_append_left _ hactor)
  exact (nodup_append.mp hreq.nodup).2.2 actor hactor actor (hall actor hvalid) rfl

theorem Phase.keepsPromise_iff (hphase : Phase state) :
    state.KeepsPromise ↔ ¬Stalled state.partition state.replied := by
  cases hphase with
  | resuming h =>
    refine iff_of_true ⟨?_, ?_, ?_⟩ ?_
    · rintro ⟨hfalse, -⟩
      simp [h.resuming] at hfalse
    · simp [SomeFailed, h.replied]
    · simp [SomeFailed, h.replied]
    · simp [Stalled, h.replied]
  | refused h =>
    refine iff_of_true ⟨?_, ?_, ?_⟩ ?_
    · simp [h.delivered]
    · simp [SomeFailed, h.replied]
    · simp [SomeFailed, h.replied]
    · simp [Stalled, h.replied]
  | collecting h =>
    by_cases hawaiting : state.awaiting = []
    · refine iff_of_false ?_ ?_
      · intro hkeeps
        have hanswered := hkeeps.answered ⟨h.resuming_eq, hawaiting⟩
        simp [h.delivered, h.serialized] at hanswered
      · rw [not_not]
        refine ⟨fun actor hactor => ?_, h.last hawaiting, h.null⟩
        have hmem := h.answers.mem_iff.mpr hactor
        rwa [hawaiting] at hmem
    · refine iff_of_true ⟨?_, ?_, ?_⟩ ?_
      · exact fun hall => absurd hall.2 hawaiting
      · simp [h.delivered]
      · exact fun _ hall => absurd hall.2 hawaiting
      · exact fun hstalled => hawaiting (h.awaiting_eq_nil hstalled.1)
  | failed error h =>
    refine iff_of_true ⟨?_, ?_, ?_⟩ ?_
    · simp [h.delivered]
    · simp [h.delivered]
    · exact fun _ _ => ⟨error, h.delivered⟩
    · rintro ⟨-, -, hnone⟩
      obtain ⟨reply, hreply, hisnull⟩ := h.null
      rw [hnone reply hreply] at hisnull
      cases hisnull
  | serialized h =>
    -- An indexer that has failed has sent an error.
    have herror : state.SomeFailed → ∃ reply ∈ state.replied, reply.2.isError = true := by
      rintro ⟨reply, hreply, hfailed⟩
      rw [failed_eq, h.null reply hreply] at hfailed
      exact ⟨reply, hreply, hfailed⟩
    have hbroken : state.SomeFailed → ∃ error, state.delivered = [.error error] := by
      intro hfailed
      obtain ⟨reply, hreply, hiserror⟩ := herror hfailed
      cases h.outcome with
      | error error hdeliv => exact ⟨error, hdeliv⟩
      | writing hnone | written _ hnone => simp [hnone reply hreply] at hiserror
    refine iff_of_true ⟨?_, ?_, ?_⟩ ?_
    · exact fun _ => Or.inr h.serialized
    · intro hfailed synopsis hmem
      obtain ⟨error, hdeliv⟩ := hbroken hfailed
      simp [hdeliv] at hmem
    · exact fun hfailed _ => hbroken hfailed
    · rintro ⟨-, ⟨last, hmem, hiserror⟩, -⟩
      rw [h.last last hmem] at hiserror
      cases hiserror

/-- In every run of a partition that is asked to persist itself, the promise is kept if and
only if it is not the case that all valid indexers have answered, the last one with an
error and none with a missing chunk. -/
theorem persist_keepsPromise_iff (partition : ActivePartitionState σ) (streamingInitiated : Bool)
    (inboundPaths : Nat) (events : List Event)
    (hrun : Run.Admissible step Enabled (start partition streamingInitiated inboundPaths) events) :
    (events.foldl step (start partition streamingInitiated inboundPaths)).KeepsPromise ↔
      ¬Stalled partition (answers events) := by
  have hphase : Phase (start partition streamingInitiated inboundPaths) :=
    .resuming ⟨rfl, rfl, rfl, rfl, rfl, rfl, rfl, rfl⟩
  rw [(hphase.run hrun).keepsPromise_iff, (run_answers events).1, (run_answers events).2]
  rfl

def twoIndexers : ActivePartitionState Unit where
  indexers := [(⟨"conn", "src", .basic .string⟩, some 1), (⟨"conn", "dst", .basic .string⟩, some 2)]
  packFull := fun _ _ => .ok []
  synopsis := ()
  distinct := by decide

/-- The second indexer fails after the first one has sent its chunk. Nothing is outstanding,
and the promise is not fulfilled. -/
theorem last_error_stalls :
    let events : List Event :=
      [.resume, .snapshot 1 (.chunk []), .snapshot 2 (.error ⟨.unspecified, "out of memory"⟩)]
    let state := events.foldl step (start twoIndexers true 0)
    Run.Admissible step Enabled (start twoIndexers true 0) events ∧
      state.AllReplied ∧ state.writing = false ∧ state.delivered = [] ∧ ¬state.KeepsPromise := by
  refine ⟨by decide, ⟨rfl, rfl⟩, rfl, rfl, fun hkeeps => ?_⟩
  rcases hkeeps.answered ⟨rfl, rfl⟩ with hdelivered | hserialized
  · exact hdelivered rfl
  · cases hserialized

/-- The second indexer fails before the first one has sent its chunk. -/
theorem first_error_delivered : ([.resume, .snapshot 2 (.error ⟨.unspecified, "out of memory"⟩),
      .snapshot 1 (.chunk [])].foldl step (start twoIndexers true 0)).KeepsPromise := by
  refine (persist_keepsPromise_iff twoIndexers true 0 _ (by decide)).mpr ?_
  rintro ⟨-, ⟨last, hlast, herror⟩, -⟩
  cases hlast
  cases herror

end Persisting

end Vast
