import Mathlib.Data.List.Induction

/-! # Runs of a deterministic machine

A machine is a step function whose actions are subject to a guard. A run is a
list of actions of which each one meets the guard in the state it is taken in,
and an invariant is established once for the steps and then holds along runs.
-/

namespace Foundation.Run

variable {σ α : Type*} {step : σ → α → σ} {guard strong : σ → α → Prop} {state : σ}
  {actions : List α} {inv : σ → Prop}

/-- Every action of the list meets the guard when it is taken. -/
def Admissible (step : σ → α → σ) (guard : σ → α → Prop) : σ → List α → Prop
  | _, [] => True
  | state, action :: actions =>
    guard state action ∧ Admissible step guard (step state action) actions

instance Admissible.decidable [∀ state action, Decidable (guard state action)] :
    ∀ state actions, Decidable (Admissible step guard state actions)
  | _, [] => isTrue trivial
  | state, action :: actions =>
    have := Admissible.decidable (step state action) actions
    inferInstanceAs (Decidable (_ ∧ _))

/-- What holds at the start and is preserved by guarded steps holds at the end
of every run. -/
theorem invariant (inv : σ → Prop)
    (hstep : ∀ state action, inv state → guard state action → inv (step state action))
    (hinit : inv state) (hrun : Admissible step guard state actions) :
    inv (actions.foldl step state) := by
  induction actions generalizing state with
  | nil => exact hinit
  | cons action actions ih =>
    exact ih (hstep state action hinit hrun.1) hrun.2

theorem admissible_append {first second : List α} : Admissible step guard state (first ++ second) ↔
      Admissible step guard state first ∧
        Admissible step guard (first.foldl step state) second := by
  induction first generalizing state with
  | nil => simp [Admissible]
  | cons action actions ih => simp [Admissible, ih, and_assoc]

@[elab_as_elim]
theorem induction_on_run {property : List α → Prop} (hnil : property [])
    (hstep : ∀ done action, Admissible step guard state done →
      guard (done.foldl step state) action → property done → property (done ++ [action]))
    (hrun : Admissible step guard state actions) : property actions := by
  induction actions using List.reverseRecOn with
  | nil => exact hnil
  | append_singleton done action ih =>
    obtain ⟨hdone, haction⟩ := admissible_append.mp hrun
    exact hstep done action hdone haction.1 (ih hdone)

theorem admissible_iff_forall_mem {allowed : α → Prop} :
    Admissible step (fun _ action => allowed action) state actions ↔
      ∀ action ∈ actions, allowed action := by
  induction actions generalizing state with
  | nil => simp [Admissible]
  | cons action actions ih => simp [Admissible, ih]

/-- If a guard says exactly when a step keeps a property, then the property
holds after every part of a run if and only if all its steps meet the guard. -/
theorem forall_prefix_iff (property : σ → Prop) {legal : σ → α → Prop}
    (hstep : ∀ state action, inv state → legal state action → inv (step state action))
    (hexact : ∀ state action, inv state → legal state action → property state →
      (property (step state action) ↔ guard state action)) (hinit : inv state)
    (hprop : property state) (hrun : Admissible step legal state actions) :
    (∀ done rest, actions = done ++ rest → property (done.foldl step state)) ↔
      Admissible step guard state actions := by
  induction actions generalizing state with
  | nil =>
    refine ⟨fun _ => trivial, fun _ done rest heq => ?_⟩
    rw [List.nil_eq, List.append_eq_nil_iff] at heq
    rw [heq.1]
    exact hprop
  | cons action actions ih =>
    have hguard := hexact state action hinit hrun.1 hprop
    have htail := fun hnext => ih (hstep state action hinit hrun.1) hnext hrun.2
    constructor
    · intro hall
      have hnext : property (step state action) := hall [action] actions rfl
      refine ⟨hguard.mp hnext, (htail hnext).mp fun done rest heq => ?_⟩
      exact hall (action :: done) rest (by rw [heq]; rfl)
    · rintro ⟨hfirst, hrest⟩ done rest heq
      cases done with
      | nil => exact hprop
      | cons head tail =>
        obtain ⟨rfl, htail_eq⟩ := List.cons.inj heq
        have hnext := hguard.mpr hfirst
        exact (htail hnext).mpr hrest tail rest htail_eq

/-! ## Costs -/

/-- The sum of the costs of the actions of a run. -/
def total (step : σ → α → σ) (cost : σ → α → Nat) : σ → List α → Nat
  | _, [] => 0
  | state, action :: actions => cost state action + total step cost (step state action) actions

/-- If every step pays its cost from a potential, a run costs no more than the potential it
starts with. -/
theorem total_add_potential_le {cost : σ → α → Nat} (potential : σ → Nat)
    (hstep : ∀ state action, inv state → guard state action → inv (step state action))
    (hcost : ∀ state action, inv state → guard state action →
      cost state action + potential (step state action) ≤ potential state) (hinit : inv state)
    (hrun : Admissible step guard state actions) :
    total step cost state actions + potential (actions.foldl step state) ≤ potential state := by
  induction actions generalizing state with
  | nil => simp [total]
  | cons action actions ih =>
    have hfirst := hcost state action hinit hrun.1
    have hrest := ih (hstep state action hinit hrun.1) hrun.2
    rw [total, List.foldl_cons]
    omega

theorem total_ite_eq_countP (kind : α → Bool) (state : σ) (actions : List α) :
    total step (fun _ action => if kind action then 1 else 0) state actions =
      actions.countP kind := by
  induction actions generalizing state with
  | nil => rfl
  | cons action actions ih => rw [total, ih, List.countP_cons, Nat.add_comm]

end Foundation.Run
