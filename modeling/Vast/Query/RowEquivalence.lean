import Vast.Query.Prune
import Vast.Query.Reading
import Vast.Query.Taxonomies

/-! # Expressions that select the same rows

Substituting and pruning predicates is described by what the expressions say.
When widening a prunable predicate changes nothing about a row, then neither does
pruning the whole expression.
-/

namespace Vast

open Foundation List Evaluate TypeResolver Taxonomies
open Expression hiding none

/-! ## Pruning -/

namespace Pruner

variable {unprunable : List String} {ε : Type} {verdict : Predicate → Verdict ε} {slots : List Slot}
  {operands : List Expression} {expression : Expression}

def slotVerdicts (verdict : Predicate → Verdict ε) (slots : List Slot) : List (Verdict ε) :=
  slots.map fun slot => reading verdict slot.expression

/-- The remembered predicates say the same when they are widened. -/
def SlotsKeep (verdict : Predicate → Verdict ε) (slots : List Slot) : Prop :=
  ∀ seen, .memo seen ∈ slots → verdict (widen seen) = verdict seen

theorem SlotsKeep.append (hslots : SlotsKeep verdict slots) {slot : Slot}
    (hslot : ∀ seen, slot = .memo seen → verdict (widen seen) = verdict seen) :
    SlotsKeep verdict (slots ++ [slot]) := by
  intro seen hseen
  rcases mem_append.mp hseen with hold | hnew
  · exact hslots seen hold
  · exact hslot seen (mem_singleton.mp hnew).symm

theorem SlotsKeep.merge {before after : List Slot} {seen : Predicate}
    (hslots : SlotsKeep verdict (before ++ .memo seen :: after)) :
    SlotsKeep verdict (before ++ .memo (widen seen) :: after) := by
  intro other hother
  by_cases hkept : .memo other ∈ before ++ .memo seen :: after
  · exact hslots other hkept
  · obtain rfl : other = widen seen := by
      simp only [mem_append, mem_cons, Slot.memo.injEq] at hother hkept
      tauto
    rfl

theorem combine_run {combine : List (Verdict ε) → Verdict ε} (habsorbs : Verdict.Absorbs combine)
    (hkeep : ∀ operand ∈ operands, ∀ pred ∈ predicates operand, prunable unprunable pred = true →
      verdict (widen pred) = verdict pred) (hpruned : ∀ operand ∈ operands,
      reading verdict (pruner unprunable operand) = reading verdict operand)
    (hslots : SlotsKeep verdict slots) :
    combine (slotVerdicts verdict (run unprunable operands slots)) =
      combine (slotVerdicts verdict slots ++ operands.map (reading verdict)) := by
  induction operands generalizing slots with
  | nil => simp [run]
  | cons operand rest ih =>
    rw [forall_mem_cons] at hkeep hpruned
    obtain ⟨next, hrun, hstep⟩ := run_cons unprunable operand rest slots
    rw [hrun]
    -- A slot that says what the operand says takes its place.
    have happend : ∀ slot : Slot,
        (∀ seen, slot = .memo seen → verdict (widen seen) = verdict seen) →
        reading verdict slot.expression = reading verdict operand →
        combine (slotVerdicts verdict (run unprunable rest (slots ++ [slot]))) =
          combine (slotVerdicts verdict slots ++
            (operand :: rest).map (reading verdict)) := by
      intro slot hslot hreading
      rw [ih hkeep.2 hpruned.2 (hslots.append hslot)]
      simp [slotVerdicts, hreading]
    cases hstep with
    | other => exact happend (.other _) (by rintro seen ⟨⟩) hpruned.1
    | @memo pred hop hprune =>
      subst hop
      apply happend (.memo pred) _ rfl
      rintro seen ⟨⟩
      exact hkeep.1 pred (by simp [predicates]) hprune
    | @merge pred before seen after hop hprune hseen hwiden =>
      subst hop hseen
      have hkept : verdict (widen seen) = verdict seen := hslots seen (by simp)
      have hpred : verdict pred = verdict seen := by
        rw [← hkeep.1 pred (by simp [predicates]) hprune, ← hwiden, hkept]
      have hverdicts : slotVerdicts verdict (before ++ .memo (widen seen) :: after) =
          slotVerdicts verdict (before ++ .memo seen :: after) := by
        simp [slotVerdicts, Slot.expression, reading, hkept]
      rw [ih hkeep.2 hpruned.2 hslots.merge, hverdicts]
      refine (habsorbs.skip ?_ _).symm
      simp [slotVerdicts, Slot.expression, reading, hpred]

theorem run_ne_nil (hne : operands ≠ []) : run unprunable operands [] ≠ [] := by
  obtain ⟨operand, hop⟩ := exists_mem_of_ne_nil _ hne
  obtain ⟨slot, hslot, -⟩ := (covers_operands operands).slot operand hop
  exact ne_nil_of_mem hslot

/-- Pruning keeps what an expression says, if widening a prunable predicate keeps
what the predicate says. -/
theorem reading_pruner (hkeep : ∀ pred ∈ predicates expression, prunable unprunable pred = true →
      verdict (widen pred) = verdict pred) :
    reading verdict (pruner unprunable expression) = reading verdict expression := by
  induction expression with
  | none => rfl
  | predicate => rfl
  | negation operand ih => rw [pruner, reading, ih hkeep, reading]
  | connective kind operands ih =>
    rw [predicates_apply, forall_mem_flatMap] at hkeep
    rw [pruner_apply]
    by_cases hne : operands = []
    · rw [hne, run, map_nil]
    · rw [reading_apply _ kind (by simpa using run_ne_nil hne), reading_apply _ kind hne, map_map]
      exact combine_run (absorbs_conclude kind) hkeep (fun operand hop =>
        ih operand hop (hkeep operand hop)) (by simp [SlotsKeep])

/-- Pruning keeps expressions proper, so that they can be hoisted. -/
theorem proper_pruner (hproper : proper expression = true) :
    proper (pruner unprunable expression) = true := by
  induction expression with
  | none => exact hproper
  | predicate => rfl
  | negation operand ih => exact ih hproper
  | connective kind operands ih =>
    obtain ⟨hne, hops⟩ := proper_apply.mp hproper
    rw [pruner_apply, proper_apply, forall_mem_map]
    refine ⟨by simpa using run_ne_nil hne, fun slot hslot => ?_⟩
    obtain ⟨operand, hop, hstands⟩ := (covers_operands operands).origin slot hslot
    cases hstands with
    | memo => rfl
    | widened => rfl
    | other => exact ih operand hop (hops operand hop)

/-- A prunable predicate stays, perhaps widened. -/
theorem exists_prunable_pruner
    (hexists : ∃ pred ∈ predicates expression, prunable unprunable pred = true) :
    ∃ pred ∈ predicates (pruner unprunable expression), prunable unprunable pred = true := by
  obtain ⟨pred, hpred, hprune⟩ := hexists
  rcases mem_predicates_pruner hpred with hkept | ⟨-, hwidened⟩
  · exact ⟨pred, hkept, hprune⟩
  · exact ⟨_, hwidened, prunable_widen hprune⟩

/-- Without prunable predicates there is nothing to merge. -/
theorem unmergeable_of_not_prunable
    (hnone : ∀ pred ∈ predicates expression, prunable unprunable pred = false) :
    Unmergeable unprunable expression := by
  induction expression with
  | none => trivial
  | predicate => trivial
  | negation operand ih => exact ih hnone
  | connective kind operands ih =>
    rw [predicates_apply, forall_mem_flatMap] at hnone
    have hquestions : operands.filterMap (question unprunable) = [] := by
      rw [filterMap_eq_nil_iff]
      intro operand hop
      cases operand with
      | predicate pred => simp [question, hnone _ hop pred (by simp [predicates])]
      | _ => rfl
    rw [unmergeable_apply, hquestions]
    exact ⟨nodup_nil, fun operand hop =>
      ih operand hop (hnone operand hop)⟩

end Pruner

open Pruner

variable {expression : Expression} {unprunable : List String}

theorem exists_prunable_prune
    (hexists : ∃ pred ∈ predicates expression, prunable unprunable pred = true) :
    ∃ pred ∈ predicates (prune unprunable expression), prunable unprunable pred = true := by
  refine pruneLoop_invariant
    (fun result => ∃ pred ∈ predicates result, prunable unprunable pred = true)
    (fun result hres => ?_) _ _ (exists_prunable_pruner hexists)
  rw [predicates_hoist]
  exact exists_prunable_pruner hres

theorem reading_prune {ε : Type} {verdict : Predicate → Verdict ε}
    (hproper : proper expression = true)
    (hkeep : ∀ pred ∈ predicates expression, prunable unprunable pred = true →
      verdict (widen pred) = verdict pred) :
    reading verdict (prune unprunable expression) = reading verdict expression := by
  let inv (result : Expression) : Prop :=
    (∀ pred ∈ predicates result, prunable unprunable pred = true →
        verdict (widen pred) = verdict pred) ∧
      proper result = true ∧ reading verdict result = reading verdict expression
  have hpruner : ∀ result, inv result → inv (pruner unprunable result) :=
    fun _ ⟨hkeep, hproper, hreading⟩ => ⟨good_pruner (fun _ _ _ _ => rfl) hkeep,
      proper_pruner hproper, (reading_pruner hkeep).trans hreading⟩
  refine (pruneLoop_invariant inv (fun result hres => ?_) _ _ (hpruner _ ⟨hkeep, hproper, rfl⟩)).2.2
  obtain ⟨hkeep, hproper, hreading⟩ := hpruner result hres
  refine ⟨by rwa [predicates_hoist], proper_hoist hproper, ?_⟩
  rw [reading_hoist (hoistable_of_proper hproper), hreading]

/-! ## Substituting -/

namespace Taxonomies

variable {steps : Nat} {taxonomies : Taxonomies} {seen : List (String × List VastType)}
  {pruning : Bool} {ε : Type} {expression resolved : Expression}

def resolvedVerdict (steps : Nat) (taxonomies : Taxonomies) (seen : List (String × List VastType))
    (pruning : Bool) (verdict : Predicate → Verdict ε) (pred : Predicate) : Verdict ε :=
  match taxonomies.resolvePredicate steps seen pruning pred with
  | .ok resolved => reading verdict resolved
  | .error _ => .ok none

/-- A resolved expression says what the expression says, read through the
resolution of its predicates. -/
theorem reading_resolveImpl {verdict : Predicate → Verdict ε}
    (hresolve : taxonomies.resolveImpl steps seen pruning expression = .ok resolved) :
    reading verdict resolved =
      reading (taxonomies.resolvedVerdict steps seen pruning verdict) expression := by
  induction expression generalizing resolved with
  | none =>
    cases hresolve
    rfl
  | predicate pred =>
    rw [resolveImpl] at hresolve
    rw [reading, resolvedVerdict, hresolve]
  | negation operand ih =>
    obtain ⟨inner, hinner, rfl⟩ := exists_of_map_eq_ok hresolve
    rw [reading, ih hinner, reading]
  | connective kind operands ih =>
    obtain ⟨results, rfl, hres⟩ := resolveImpl_apply hresolve
    exact reading_apply_congr kind (map_of_resolved hres ih)

theorem resolveConcepts_ne_none (pred : Predicate) (name : String) (op : RelationalOperator)
    (value : Data) (make : MakePredicate) :
    taxonomies.resolveConcepts seen pruning pred name op value make ≠ .none := by
  unfold resolveConcepts
  split
  · simp
  · simp only
    split
    · simp
    next single hsingle =>
      obtain ⟨field, -, rfl⟩ := map_eq_singleton_iff.mp hsingle
      simp
    · simp

theorem exists_resolvePredicate {pred : Predicate} (hprune : prunable unprunable pred = true) :
    ∃ resolved, taxonomies.resolvePredicate steps seen pruning pred = .ok resolved ∧
      resolved ≠ .none := by
  unfold prunable at hprune
  unfold resolvePredicate
  split at hprune
  next field text hlhs hrhs =>
    rw [hlhs, hrhs]
    exact ⟨_, rfl, resolveConcepts_ne_none _ _ _ _ _⟩
  next type text hlhs hrhs =>
    rw [hlhs]
    exact ⟨_, rfl, by simp⟩
  · cases hprune

theorem resolveImpl_ne_none
    (hexists : ∃ pred ∈ predicates expression, prunable unprunable pred = true)
    (hresolve : taxonomies.resolveImpl steps seen pruning expression = .ok resolved) :
    resolved ≠ .none := by
  obtain ⟨pred, hpred, hprune⟩ := hexists
  cases expression with
  | none => simp [predicates] at hpred
  | predicate own =>
    rw [predicates, mem_singleton] at hpred
    subst hpred
    obtain ⟨found, hfound, hne⟩ := exists_resolvePredicate hprune
    rw [resolveImpl, hfound] at hresolve
    cases hresolve
    exact hne
  | _ =>
    obtain ⟨inner, -, rfl⟩ := exists_of_map_eq_ok hresolve
    simp

end Taxonomies

/-! ## Rows -/

section Rows

variable [Regex]

def selectedRows (slice : TableSlice) (expression : Expression) (hints : Bitmap) :
    Except TailorError Bitmap :=
  (tailor expression slice.schema).map fun tailored => Evaluate.evaluate slice tailored hints

/-- Two expressions select the same rows of all slices of a schema. -/
def RowEquivalent (type : VastType) (first second : Expression) : Prop :=
  ∀ slice : TableSlice, slice.schema = type → ∀ hints : Bitmap,
    selectedRows slice first hints = selectedRows slice second hints

omit [Regex] in
theorem tailor_of_ne_none {expression : Expression} (hne : expression ≠ .none)
    (schema : VastType) : tailor expression schema = resolve schema expression := by
  cases expression with
  | none => exact absurd rfl hne
  | _ => rfl

/-- Expressions that say the same about all rows select the same ones. -/
theorem selectedRows_congr {slice : TableSlice} {first second : Expression}
    (hfirst : first ≠ .none) (hsecond : second ≠ .none)
    (hreading : ∀ row, reading (predicateVerdict slice row) first =
      reading (predicateVerdict slice row) second) (hints : Bitmap) :
    selectedRows slice first hints = selectedRows slice second hints := by
  simp only [← map_applied_resolve] at hreading
  rw [selectedRows, selectedRows, tailor_of_ne_none hfirst, tailor_of_ne_none hsecond]
  -- Whether tailoring fails does not depend on the row.
  have hsame := hreading []
  generalize resolve slice.schema first = tailored, resolve slice.schema second = other at *
  match tailored, other with
  | .error _, .error _ =>
    cases hsame
    rfl
  | .error _, .ok _ | .ok _, .error _ => cases hsame
  | .ok tailored, .ok other =>
    apply congrArg Except.ok
    apply evaluate_congr
    intro row _
    rw [holds_eq_getD_applied, Except.ok.inj (hreading row), ← holds_eq_getD_applied]

omit [Regex] in
/-- The predicate names, for a schema, the columns that the predicate on all
strings names. -/
def NamesStrings (steps : Nat) (taxonomies : Taxonomies) (type : VastType) (pred : Predicate) :
    Prop :=
  ∀ resolved, taxonomies.resolve steps (.predicate pred) type = .ok resolved →
    TypeResolver.resolve type resolved = TypeResolver.resolve type (.predicate (widen pred))

/-- The condition under which pruning changes no rows: nothing is merged, or what
may be merged names the string columns of the schema anyway. -/
def PrunesExactly (steps : Nat) (taxonomies : Taxonomies) (unprunable : List String)
    (type : VastType) (expression : Expression) : Prop :=
  Unmergeable unprunable expression ∨
    proper expression = true ∧ ∀ pred ∈ predicates expression,
      prunable unprunable pred = true → NamesStrings steps taxonomies type pred

theorem rowEquivalent_prune {steps : Nat} {taxonomies : Taxonomies} {type : VastType}
    {expression pruned resolved : Expression}
    (hexact : PrunesExactly steps taxonomies unprunable type expression)
    (hpruned : taxonomies.resolve steps (prune unprunable expression) type = .ok pruned)
    (hresolve : taxonomies.resolve steps expression type = .ok resolved) :
    RowEquivalent type pruned resolved := by
  have hunmerged : Unmergeable unprunable expression → RowEquivalent type pruned resolved := by
    intro hunmergeable
    rw [prune_of_unmergeable hunmergeable, hresolve] at hpruned
    cases hpruned
    exact fun _ _ _ => rfl
  rcases hexact with hunmergeable | ⟨hproper, hnames⟩
  · exact hunmerged hunmergeable
  by_cases hexists : ∃ pred ∈ predicates expression, prunable unprunable pred = true
  · intro slice hschema
    subst hschema
    apply selectedRows_congr
      (resolveImpl_ne_none (exists_prunable_prune hexists) hpruned)
      (resolveImpl_ne_none hexists hresolve)
    intro row
    rw [reading_resolveImpl hpruned, reading_resolveImpl hresolve]
    refine reading_prune hproper fun pred hpred hprune => ?_
    -- The columns are the same, and so is what they say.
    obtain ⟨found, hfound, -⟩ := exists_resolvePredicate hprune
    have hcols := hnames pred hpred hprune found hfound
    rw [resolvedVerdict, resolvedVerdict, hfound]
    have hwiden : taxonomies.resolvePredicate steps [(slice.schema.name, [slice.schema])] true
        (widen pred) = .ok (.predicate (widen pred)) := rfl
    rw [hwiden]
    simp only
    rw [← map_applied_resolve, ← map_applied_resolve, hcols]
  · push Not at hexists
    exact hunmerged (unmergeable_of_not_prunable fun pred hpred =>
      Bool.eq_false_iff.mpr (hexists pred hpred))

end Rows

end Vast
