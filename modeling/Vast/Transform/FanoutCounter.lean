import Mathlib.Data.List.Basic

/-! # Counting the replies to a fan-out

A number of requests share a counter and a state. When all of them have been
answered, one continuation is triggered: the one for success, unless any of the
answers was an error.
-/

namespace Vast

/-- The counter and the state that the requests share. The last error is set as
soon as one has been counted. -/
structure FanoutCounter (σ ε : Type*) where
  successCount : Nat
  errorCount : Nat
  expected : Nat
  lastError : Option ε
  state : σ
  lastError_isSome : lastError.isSome = decide (0 < errorCount)

namespace FanoutCounter

variable {σ ε : Type*} {counter : FanoutCounter σ ε} {pending : Nat}

def make (expected : Nat) (state : σ) : FanoutCounter σ ε where
  successCount := 0
  errorCount := 0
  expected := expected
  lastError := none
  state := state
  lastError_isSome := rfl

section

variable (counter : FanoutCounter σ ε)

def finish : Except ε σ :=
  match counter.lastError with
  | some error => .error error
  | none => .ok counter.state

def trigger : Option (Except ε σ) :=
  if counter.successCount + counter.errorCount = counter.expected then some counter.finish
  else none

def countSuccess : FanoutCounter σ ε :=
  { counter with successCount := counter.successCount + 1 }

def countError (error : ε) : FanoutCounter σ ε :=
  { counter with
    errorCount := counter.errorCount + 1
    lastError := some error
    lastError_isSome := by simp }

def mapState (change : σ → σ) : FanoutCounter σ ε :=
  { counter with state := change counter.state }

/-- A call of `receive_success`, or of `receive_error` with an error, and the continuation that
it invokes. -/
def receive (call : Option ε) : FanoutCounter σ ε × Option (Except ε σ) :=
  let counter := match call with
    | none => counter.countSuccess
    | some error => counter.countError error
  (counter, counter.trigger)

def Awaits (pending : Nat) : Prop :=
  counter.successCount + counter.errorCount + pending = counter.expected

end

theorem awaits_make (expected : Nat) (state : σ) :
    (make expected state : FanoutCounter σ ε).Awaits expected := by
  simp [Awaits, make]

theorem Awaits.countSuccess (hawaits : counter.Awaits (pending + 1)) :
    counter.countSuccess.Awaits pending := by
  simp only [Awaits, FanoutCounter.countSuccess] at hawaits ⊢
  omega

theorem Awaits.countError (hawaits : counter.Awaits (pending + 1)) (error : ε) :
    (counter.countError error).Awaits pending := by
  simp only [Awaits, FanoutCounter.countError] at hawaits ⊢
  omega

theorem Awaits.mapState (hawaits : counter.Awaits pending) (change : σ → σ) :
    (counter.mapState change).Awaits pending :=
  hawaits

theorem Awaits.trigger_eq (hawaits : counter.Awaits pending) :
    counter.trigger = if pending = 0 then some counter.finish else none := by
  unfold Awaits at hawaits
  rw [trigger]
  congr 1
  rw [eq_iff_iff]
  omega

/-! ## Calls -/

/-- The continuations that a sequence of calls invokes. -/
def invoked : FanoutCounter σ ε → List (Option ε) → List (Except ε σ)
  | _, [] => []
  | counter, call :: calls =>
    (counter.receive call).2.toList ++ invoked (counter.receive call).1 calls

/-- How the index answers a request to erase partitions, by the replies for the single ones in
the order in which they come. -/
def eraseAnswers {ι : Type} (partitionIds : List ι) (replies : List (Option ε)) :
    List (Except ε Unit) :=
  (make partitionIds.length ()).invoked replies

/-- One continuation is invoked, the one for success if and only if no call was an error. -/
def AnsweredOnce (calls : List (Option ε)) (answers : List (Except ε σ)) : Prop :=
  ∃ answer, answers = [answer] ∧ (answer.isOk = true ↔ ∀ call ∈ calls, call = none)

/-- The last of the awaited calls invokes a continuation, and the calls before it do not. -/
theorem Awaits.invoked_eq {calls : List (Option ε)} (hawaits : counter.Awaits calls.length)
    (hne : calls ≠ []) : ∃ answer, counter.invoked calls = [answer] ∧
      (answer.isOk = true ↔ counter.lastError = none ∧ ∀ call ∈ calls, call = none) := by
  induction calls generalizing counter with
  | nil => exact absurd rfl hne
  | cons call rest ih =>
    have hnext : (counter.receive call).1.Awaits rest.length := by
      cases call with
      | none => exact hawaits.countSuccess
      | some error => exact hawaits.countError error
    have hlast : (counter.receive call).1.lastError = none ↔
        counter.lastError = none ∧ call = none := by
      cases call <;> simp [receive, FanoutCounter.countSuccess, FanoutCounter.countError]
    have htrigger : (counter.receive call).2 = _ := hnext.trigger_eq
    rw [invoked, htrigger, List.forall_mem_cons, ← and_assoc, ← hlast]
    by_cases hnil : rest = []
    · subst hnil
      refine ⟨_, rfl, ?_⟩
      rw [finish]
      cases (counter.receive call).1.lastError <;> simp [Except.isOk, Except.toBool]
    · rw [if_neg (by simpa using hnil)]
      exact ih hnext hnil

theorem answeredOnce_make (state : σ) (calls : List (Option ε)) :
    AnsweredOnce calls ((make calls.length state).invoked calls) ↔ calls.length ≠ 0 := by
  rw [ne_eq, List.length_eq_zero_iff]
  constructor
  · rintro ⟨answer, hanswer, -⟩ rfl
    cases hanswer
  · intro hne
    obtain ⟨answer, hanswer, hcause⟩ := (awaits_make calls.length state).invoked_eq hne
    exact ⟨answer, hanswer, hcause.trans (and_iff_right rfl)⟩

/-- A fan-out is answered exactly once, unless nothing is expected. -/
theorem answeredOnce_iff (expected : Nat) (state : σ) (calls : List (Option ε))
    (hcalls : calls.length = expected) :
    (AnsweredOnce calls ((make expected state).invoked calls) ↔ expected ≠ 0) ∧
      ∀ {ι : Type} (partitionIds : List ι), partitionIds.length = expected →
        (AnsweredOnce calls (eraseAnswers partitionIds calls) ↔ expected ≠ 0) := by
  subst hcalls
  refine ⟨answeredOnce_make state calls, fun partitionIds hids => ?_⟩
  rw [eraseAnswers, hids, answeredOnce_make]

/-- Of three partitions the second one cannot be erased, and the last reply answers. -/
theorem error_answered_once :
    eraseAnswers [0, 1, 2] [none, some "busy", none] = [.error "busy"] ∧
      AnsweredOnce [none, some "busy", none] (eraseAnswers [0, 1, 2] [none, some "busy", none]) :=
  ⟨rfl, ((answeredOnce_iff 3 () _ rfl).2 [0, 1, 2] rfl).mpr (by decide)⟩

/-- Without partitions there are no replies, and nothing answers the request. -/
theorem empty_fanout_is_not_answered :
    eraseAnswers ([] : List Unit) ([] : List (Option Unit)) = [] := rfl

end FanoutCounter

end Vast
