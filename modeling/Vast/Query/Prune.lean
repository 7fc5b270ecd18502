import Mathlib.Data.List.Nodup
import Vast.Query.Visitors

/-! # Pruning an expression for the catalog

The catalog answers predicates on string fields mostly by the synopsis of the
string type. Before a lookup, predicates of one connective that compare different
fields with the same string are merged into one predicate on all strings, and the
connectives that are left with a single operand are hoisted, until nothing
changes.
-/

namespace Vast

open List Connective

namespace Pruner

open List
open Expression hiding none

variable (unprunable : List String)

def stringExtractor : Operand :=
  .typeExtractor (.basic .string)

def prunable (pred : Predicate) : Bool :=
  match pred.lhs, pred.rhs with
  | .fieldExtractor field, .data (.basic (.string _)) => !unprunable.contains field
  | .typeExtractor type, .data (.basic (.string _)) => type == .basic .string
  | _, _ => false

def widen (pred : Predicate) : Predicate :=
  { pred with lhs := stringExtractor }

/-- An operand of the result. The prunable predicates are remembered. -/
inductive Slot where
  | memo (pred : Predicate)
  | other (expression : Expression)

def Slot.expression : Slot → Expression
  | .memo pred => .predicate pred
  | .other expression => expression

/-- Widen the remembered predicate with the same operator and literal, if any. -/
def merge (pred : Predicate) : List Slot → Option (List Slot)
  | [] => none
  | .memo seen :: rest =>
    if seen.op = pred.op ∧ seen.rhs = pred.rhs then some (.memo (widen seen) :: rest)
    else (merge pred rest).map (.memo seen :: ·)
  | .other expression :: rest => (merge pred rest).map (.other expression :: ·)

mutual

def pruner : Expression → Expression
  | .none => .none
  | .conjunction operands => .conjunction ((run operands []).map Slot.expression)
  | .disjunction operands => .disjunction ((run operands []).map Slot.expression)
  | .negation operand => .negation (pruner operand)
  | .predicate pred => .predicate pred

def run : List Expression → List Slot → List Slot
  | [], result => result
  | .predicate pred :: rest, result =>
    if prunable unprunable pred then
      match merge pred result with
      -- The second predicate with this literal.
      | some merged => run rest merged
      | none => run rest (result ++ [.memo pred])
    else run rest (result ++ [.other (.predicate pred)])
  | operand :: rest, result => run rest (result ++ [.other (pruner operand)])

end

/-- Prune and hoist until the expression is unchanged. -/
def pruneLoop : Nat → Expression → Expression → Expression
  | 0, result, _ => result
  | fuel + 1, result, expression =>
    if result = expression then result
    else pruneLoop fuel (hoist (pruner unprunable result)) result

end Pruner

def prune (unprunable : List String) (expression : Expression) : Expression :=
  Pruner.pruneLoop unprunable expression.size (Pruner.pruner unprunable expression) expression

namespace Pruner

open Expression hiding none

variable {unprunable : List String} {seen pred : Predicate} {operand : Expression}
  {operands : List Expression} {slots : List Slot} {expression : Expression}

theorem merge_eq_some {slots merged : List Slot} (hmerge : merge pred slots = some merged) :
    ∃ before seen after, slots = before ++ .memo seen :: after ∧
      merged = before ++ .memo (widen seen) :: after ∧ seen.op = pred.op ∧ seen.rhs = pred.rhs := by
  induction slots generalizing merged with
  | nil => cases hmerge
  | cons slot rest ih =>
    cases slot with
    | memo seen =>
      rw [merge] at hmerge
      split at hmerge
      next hsame =>
        cases hmerge
        exact ⟨[], seen, rest, rfl, rfl, hsame.1, hsame.2⟩
      · obtain ⟨tail, htail, rfl⟩ := Option.map_eq_some_iff.mp hmerge
        obtain ⟨before, found, after, rfl, rfl, hsame⟩ := ih htail
        exact ⟨.memo seen :: before, found, after, rfl, rfl, hsame⟩
    | other expression =>
      obtain ⟨tail, htail, rfl⟩ := Option.map_eq_some_iff.mp hmerge
      obtain ⟨before, found, after, rfl, rfl, hsame⟩ := ih htail
      exact ⟨.other expression :: before, found, after, rfl, rfl, hsame⟩

/-- What the pruner does with an operand: a prunable predicate is merged or remembered, and
anything else is pruned itself. -/
inductive Step (unprunable : List String) (operand : Expression) (slots : List Slot) :
    List Slot → Prop where
  | merge {pred : Predicate} {before : List Slot} {seen : Predicate} {after : List Slot}
      (hoperand : operand = .predicate pred) (hprunable : prunable unprunable pred = true)
      (hslots : slots = before ++ .memo seen :: after) (hwiden : widen seen = widen pred) :
      Step unprunable operand slots (before ++ .memo (widen seen) :: after)
  | memo {pred : Predicate} (hoperand : operand = .predicate pred)
      (hprunable : prunable unprunable pred = true) :
      Step unprunable operand slots (slots ++ [.memo pred])
  | other : Step unprunable operand slots (slots ++ [.other (pruner unprunable operand)])

theorem run_cons (unprunable : List String) (operand : Expression) (rest : List Expression)
    (slots : List Slot) :
    ∃ next, run unprunable (operand :: rest) slots = run unprunable rest next ∧
      Step unprunable operand slots next := by
  cases operand with
  | predicate pred =>
    rw [run]
    split
    next hprune =>
      split
      next merged hmerge =>
        obtain ⟨before, seen, after, rfl, rfl, hop, hrhs⟩ := merge_eq_some hmerge
        exact ⟨_, rfl, .merge rfl hprune rfl (by rw [widen, widen, hop, hrhs])⟩
      · exact ⟨_, rfl, .memo rfl hprune⟩
    · exact ⟨_, rfl, .other⟩
  | _ => exact ⟨_, by rw [run]; simp, .other⟩

theorem pruner_apply (kind : Connective) (operands : List Expression) :
    pruner unprunable (kind.apply operands) =
      kind.apply ((run unprunable operands []).map Slot.expression) := by
  cases kind <;> rw [apply, pruner]

/-! ## Merged predicates -/

section Merged

variable (unprunable : List String)

/-- The operator and the literal of a prunable operand. -/
def question : Expression → Option (RelationalOperator × Operand)
  | .predicate pred => if prunable unprunable pred then some (pred.op, pred.rhs) else none
  | _ => none

/-- Whether another operand asks what a predicate asks. -/
def repeats (operands : List Expression) (pred : Predicate) : Bool :=
  2 ≤ (operands.filterMap (question unprunable)).count (pred.op, pred.rhs)

def repeated (operands : List Expression) : List Predicate :=
  operands.filterMap fun
    | .predicate pred =>
      if prunable unprunable pred && repeats unprunable operands pred then some pred else none
    | _ => none

mutual

/-- The predicates outside of negations that the pruner merges. -/
def merged : Expression → List Predicate
  | .none => []
  | .conjunction operands => repeated unprunable operands ++ mergedList operands
  | .disjunction operands => repeated unprunable operands ++ mergedList operands
  | .negation _ => []
  | .predicate _ => []

def mergedList : List Expression → List Predicate
  | [] => []
  | operand :: rest => merged operand ++ mergedList rest

end

/-- The predicates that the rounds of the loop merge. -/
def mergedLoop : Nat → Expression → Expression → List Predicate
  | 0, _, _ => []
  | fuel + 1, result, expression =>
    if result = expression then []
    else merged unprunable result ++ mergedLoop fuel (hoist (pruner unprunable result)) result

end Merged

theorem merged_apply (kind : Connective) (operands : List Expression) :
    merged unprunable (kind.apply operands) =
      repeated unprunable operands ++ operands.flatMap (merged unprunable) := by
  have hlist : mergedList unprunable operands = operands.flatMap (merged unprunable) := by
    induction operands with
    | nil => rfl
    | cons operand rest ih => rw [mergedList, ih, flatMap_cons]
  cases kind <;> rw [apply, merged, hlist]

/-- Predicates that are the same when they are widened ask the same. -/
theorem asks_of_widen (hwiden : widen seen = widen pred) :
    seen.op = pred.op ∧ seen.rhs = pred.rhs :=
  ⟨congrArg (fun widened => widened.op) hwiden, congrArg (fun widened => widened.rhs) hwiden⟩

/-! ## What stands for an operand -/

/-- A slot stands for an operand when it holds what is left of it. A predicate is widened if
another operand asks the same. -/
inductive Stands (unprunable : List String) (all : List Expression) : Expression → Slot → Prop where
  | memo {pred : Predicate} (hprunable : prunable unprunable pred = true) :
      Stands unprunable all (.predicate pred) (.memo pred)
  | widened {pred : Predicate} (hprunable : prunable unprunable pred = true)
      (hrepeats : repeats unprunable all pred = true) :
      Stands unprunable all (.predicate pred) (.memo (widen pred))
  | other (operand : Expression) :
      Stands unprunable all operand (.other (pruner unprunable operand))

variable {all : List Expression}

theorem Stands.widen (hrepeats : repeats unprunable all seen = true)
    (hstands : Stands unprunable all operand (.memo seen)) :
    Stands unprunable all operand (.memo (widen seen)) := by
  cases hstands with
  | memo hprune => exact .widened hprune hrepeats
  | widened hprune hrepeats => exact .widened hprune hrepeats

/-- What stands for a remembered predicate asks the same. -/
theorem Stands.question (hstands : Stands unprunable all operand (.memo seen)) :
    question unprunable operand = some (seen.op, seen.rhs) := by
  cases hstands with
  | memo hprune => exact if_pos hprune
  | widened hprune => exact if_pos hprune

/-- Every slot stands for an operand, and there is one for every operand. -/
structure Covers (unprunable : List String) (all operands : List Expression) (slots : List Slot) :
    Prop where
  origin : ∀ slot ∈ slots, ∃ operand ∈ operands, Stands unprunable all operand slot
  slot : ∀ operand ∈ operands, ∃ slot ∈ slots, Stands unprunable all operand slot

theorem Covers.append (hcovers : Covers unprunable all operands slots) {slot : Slot}
    (hstands : Stands unprunable all operand slot) :
    Covers unprunable all (operands ++ [operand]) (slots ++ [slot]) := by
  constructor
  · rw [forall_mem_append, forall_mem_singleton]
    refine ⟨fun other hother => ?_, operand, by simp, hstands⟩
    obtain ⟨found, hfound, hother⟩ := hcovers.origin other hother
    exact ⟨found, mem_append_left _ hfound, hother⟩
  · rw [forall_mem_append, forall_mem_singleton]
    refine ⟨fun other hother => ?_, slot, by simp, hstands⟩
    obtain ⟨found, hfound, hother⟩ := hcovers.slot other hother
    exact ⟨found, mem_append_left _ hfound, hother⟩

theorem Covers.merge {before after : List Slot} (hprune : prunable unprunable pred = true)
    (hwiden : Pruner.widen seen = Pruner.widen pred) (hrepeats : repeats unprunable all seen = true)
    (hcovers : Covers unprunable all operands (before ++ .memo seen :: after)) :
    Covers unprunable all (operands ++ [.predicate pred])
      (before ++ .memo (Pruner.widen seen) :: after) := by
  have hpred : Stands unprunable all (.predicate pred) (.memo (Pruner.widen seen)) := by
    rw [hwiden]
    refine .widened hprune ?_
    rwa [repeats, ← (asks_of_widen hwiden).1, ← (asks_of_widen hwiden).2]
  constructor
  · intro slot hslot
    by_cases hkept : slot ∈ before ++ .memo seen :: after
    · obtain ⟨operand, hop, hstands⟩ := hcovers.origin slot hkept
      exact ⟨operand, mem_append_left _ hop, hstands⟩
    · obtain rfl : slot = .memo (Pruner.widen seen) := by
        simp only [mem_append, mem_cons] at hslot hkept
        tauto
      exact ⟨_, by simp, hpred⟩
  · rw [forall_mem_append, forall_mem_singleton]
    refine ⟨fun operand hop => ?_, _, by simp, hpred⟩
    obtain ⟨slot, hslot, hstands⟩ := hcovers.slot operand hop
    by_cases hseen : slot = .memo seen
    · subst hseen
      exact ⟨_, by simp, hstands.widen hrepeats⟩
    · refine ⟨slot, ?_, hstands⟩
      simp only [mem_append, mem_cons, hseen, false_or] at hslot ⊢
      exact hslot.imp_right Or.inr

theorem covers_run {operands before : List Expression}
    (hcovers : Covers unprunable (before ++ operands) before slots) :
    Covers unprunable (before ++ operands) (before ++ operands)
      (run unprunable operands slots) := by
  induction operands generalizing before slots with
  | nil => rwa [append_nil] at hcovers ⊢
  | cons operand rest ih =>
    obtain ⟨next, hrun, hstep⟩ := run_cons unprunable operand rest slots
    rw [append_cons] at hcovers ⊢
    rw [hrun]
    apply ih
    cases hstep with
    | @merge pred _ seen _ hop hprune hslots hwiden =>
      subst hop hslots
      -- The remembered predicate stands for an operand before this one.
      obtain ⟨origin, horigin, hstands⟩ := hcovers.origin (.memo seen) (by simp)
      have hfirst : (seen.op, seen.rhs) ∈ before.filterMap (question unprunable) :=
        mem_filterMap.mpr ⟨origin, horigin, hstands.question⟩
      have hsecond : question unprunable (.predicate pred) = some (seen.op, seen.rhs) := by
        rw [(asks_of_widen hwiden).1, (asks_of_widen hwiden).2]
        exact if_pos hprune
      refine hcovers.merge hprune hwiden (decide_eq_true ?_)
      have hpos := count_pos_iff.mpr hfirst
      simp only [filterMap_append, filterMap_cons, hsecond, filterMap_nil, count_append,
        count_cons_self, count_nil]
      omega
    | memo hop hprune =>
      subst hop
      exact hcovers.append (.memo hprune)
    | other => exact hcovers.append (.other operand)

theorem covers_operands (operands : List Expression) :
    Covers unprunable operands operands (run unprunable operands []) :=
  @covers_run unprunable [] operands [] ⟨by simp, by simp⟩

/-! ## The loose reading of the result -/

section Loosely

variable {may : Predicate → Bool}

/-- A predicate that may match also may when it is widened. -/
def Widens (may : Predicate → Bool) (pred : Predicate) : Prop :=
  may pred = true → may (widen pred) = true

/-- The pruner keeps the loose reading if the predicates it merges may be widened. -/
theorem loosely_pruner {expression : Expression}
    (hwiden : ∀ pred ∈ merged unprunable expression, prunable unprunable pred = true →
      Widens may pred)
    (hmay : loosely may expression = true) : loosely may (pruner unprunable expression) = true := by
  induction expression with
  | none => rfl
  | negation => rfl
  | predicate => exact hmay
  | connective kind operands ih =>
    rw [merged_apply, forall_mem_append, forall_mem_flatMap] at hwiden
    have hstands : ∀ operand ∈ operands, ∀ slot, Stands unprunable operands operand slot →
        loosely may operand = true → loosely may slot.expression = true := by
      intro operand hoperand slot hslot hmay
      cases hslot with
      | memo => exact hmay
      | widened hprune hrepeats =>
        exact hwiden.1 _ (mem_filterMap.mpr ⟨_, hoperand, by simp [hprune, hrepeats]⟩) hprune hmay
      | other => exact ih operand hoperand (hwiden.2 operand hoperand) hmay
    have hcovers : Covers unprunable operands operands (run unprunable operands []) :=
      covers_operands operands
    rw [pruner_apply]
    cases kind with
    | all =>
      rw [apply, loosely_conjunction, all_eq_true] at hmay ⊢
      rw [forall_mem_map]
      intro slot hslot
      obtain ⟨operand, hoperand, hslot⟩ := hcovers.origin slot hslot
      exact hstands operand hoperand slot hslot (hmay operand hoperand)
    | any =>
      rw [apply, loosely_disjunction, any_eq_true] at hmay ⊢
      obtain ⟨operand, hoperand, hmay⟩ := hmay
      obtain ⟨slot, hslot, hoperand'⟩ := hcovers.slot operand hoperand
      exact ⟨_, mem_map_of_mem hslot, hstands operand hoperand slot hoperand' hmay⟩

end Loosely

/-! ## The predicates of the result -/

theorem prunable_widen (hprune : prunable unprunable pred = true) :
    prunable unprunable (widen pred) = true := by
  unfold prunable at hprune ⊢
  simp only [widen, stringExtractor]
  split at hprune <;> simp_all

/-- A property that widening keeps is kept by the pruner. -/
theorem good_pruner {good : Predicate → Prop}
    (hclosed : ∀ pred, good pred → prunable unprunable pred = true → good (widen pred))
    (hgood : ∀ pred ∈ predicates expression, good pred) :
    ∀ pred ∈ predicates (pruner unprunable expression), good pred := by
  induction expression with
  | none => exact hgood
  | negation operand ih => exact ih hgood
  | predicate => exact hgood
  | connective kind operands ih =>
    rw [predicates_apply, forall_mem_flatMap] at hgood
    rw [pruner_apply, predicates_apply, forall_mem_flatMap, forall_mem_map]
    intro slot hslot
    obtain ⟨operand, hoperand, hstands⟩ := (covers_operands operands).origin slot hslot
    have hoperand' := hgood operand hoperand
    cases hstands with
    | memo => exact hoperand'
    | widened hprune =>
      simp only [predicates, Slot.expression, forall_mem_singleton] at hoperand' ⊢
      exact hclosed _ hoperand' hprune
    | other => exact ih operand hoperand hoperand'

/-- What pruning and hoisting keep holds of every round. -/
theorem pruneLoop_invariant (inv : Expression → Prop)
    (hround : ∀ expression, inv expression → inv (hoist (pruner unprunable expression)))
    (fuel : Nat) {result : Expression} (expression : Expression) (hres : inv result) :
    inv (pruneLoop unprunable fuel result expression) := by
  induction fuel generalizing result expression with
  | zero => exact hres
  | succ fuel ih =>
    rw [pruneLoop]
    split
    · exact hres
    · exact ih _ (hround result hres)

/-! ## Termination -/

theorem shrunk_run (hpruned : ∀ operand ∈ operands, Shrunk [pruner unprunable operand] [operand])
    (slots : List Slot) : Shrunk ((run unprunable operands slots).map Slot.expression)
      (slots.map Slot.expression ++ operands) := by
  induction operands generalizing slots with
  | nil =>
    rw [run, append_nil]
    exact Or.inl rfl
  | cons operand rest ih =>
    rw [forall_mem_cons] at hpruned
    obtain ⟨next, hrun, hstep⟩ := run_cons unprunable operand rest slots
    have hnext : Shrunk (next.map Slot.expression) (slots.map Slot.expression ++ [operand]) := by
      cases hstep with
      | memo hop _ =>
        left
        rw [hop, map_append]
        rfl
      | other =>
        rw [map_append]
        exact Shrunk.append (Or.inl rfl) hpruned.1
      | merge hop _ hslots _ =>
        right
        simp [hop, hslots, Slot.expression, size]
    rw [hrun, append_cons]
    exact (ih hpruned.2 next).trans (hnext.append (Or.inl rfl))

section

variable (unprunable : List String)

theorem shrunk_pruner (expression : Expression) :
    Shrunk [pruner unprunable expression] [expression] := by
  induction expression with
  | none | predicate => exact Or.inl rfl
  | negation operand ih => exact ih.negation
  | connective kind operands ih =>
    rw [pruner_apply]
    exact (shrunk_run ih []).apply kind

theorem shrunk_round (result : Expression) :
    Shrunk [hoist (pruner unprunable result)] [result] :=
  (shrunk_hoist _).trans (shrunk_pruner unprunable result)

/-- As many rounds as the expression has nodes are enough. -/
theorem pruneLoop_eq_of_le {fuel other : Nat} {result expression : Expression}
    (hres : Shrunk [result] [expression]) (hfuel : size expression ≤ fuel)
    (hother : size expression ≤ other) :
    pruneLoop unprunable fuel result expression = pruneLoop unprunable other result expression := by
  induction fuel generalizing other result expression with
  | zero =>
    have hpos := size_pos expression
    omega
  | succ fuel ih =>
    cases other with
    | zero =>
      have hpos := size_pos expression
      omega
    | succ other =>
      rw [pruneLoop, pruneLoop]
      split
      · rfl
      next hne =>
        have hlt : size result < size expression := by simpa [Shrunk, hne] using hres
        exact ih (shrunk_round unprunable result) (by omega) (by omega)

/-- The loop as the program runs it, with the comparison of the program. There is no result if
it does not end. -/
inductive Loop : Expression → Expression → Expression → Prop where
  | done {result expression : Expression} (hsame : result.same expression = true) :
      Loop result expression result
  | round {result expression final : Expression} (hdiffers : result.same expression = false)
      (hrest : Loop (hoist (pruner unprunable result)) result final) :
      Loop result expression final

/-! ## Expressions without repeated literals -/

end

mutual

/-- No connective has two prunable operands with the same operator and literal. -/
def Unmergeable (unprunable : List String) : Expression → Prop
  | .none => True
  | .conjunction operands =>
    (operands.filterMap (question unprunable)).Nodup ∧ UnmergeableList unprunable operands
  | .disjunction operands =>
    (operands.filterMap (question unprunable)).Nodup ∧ UnmergeableList unprunable operands
  | .negation operand => Unmergeable unprunable operand
  | .predicate _ => True

def UnmergeableList (unprunable : List String) : List Expression → Prop
  | [] => True
  | operand :: rest => Unmergeable unprunable operand ∧ UnmergeableList unprunable rest

end

/-- No remembered predicate asks what an operand asks. -/
def Fresh (unprunable : List String) (operands : List Expression) (slots : List Slot) : Prop :=
  ∀ seen, .memo seen ∈ slots → (seen.op, seen.rhs) ∉ operands.filterMap (question unprunable)

theorem unmergeable_apply (kind : Connective) (operands : List Expression) :
    Unmergeable unprunable (kind.apply operands) ↔
      (operands.filterMap (question unprunable)).Nodup ∧
        ∀ operand ∈ operands, Unmergeable unprunable operand := by
  have hlist : UnmergeableList unprunable operands ↔
      ∀ operand ∈ operands, Unmergeable unprunable operand := by
    induction operands with
    | nil => simp [UnmergeableList]
    | cons operand rest ih => rw [UnmergeableList, ih, forall_mem_cons]
  cases kind <;> rw [apply, Unmergeable, hlist]

theorem run_of_fresh (hpruned : ∀ operand ∈ operands, pruner unprunable operand = operand)
    (hnodup : (operands.filterMap (question unprunable)).Nodup)
    (hfresh : Fresh unprunable operands slots) :
    (run unprunable operands slots).map Slot.expression =
      slots.map Slot.expression ++ operands := by
  induction operands generalizing slots with
  | nil => simp [run]
  | cons operand rest ih =>
    rw [forall_mem_cons] at hpruned
    have hsublist := (sublist_cons_self operand rest).filterMap (question unprunable)
    have hslots : Fresh unprunable rest slots := fun seen hseen hmem =>
      hfresh seen hseen (hsublist.subset hmem)
    obtain ⟨next, hrun, hstep⟩ := run_cons unprunable operand rest slots
    have hquestion : ∀ {pred : Predicate}, prunable unprunable pred = true →
        question unprunable (.predicate pred) = some (pred.op, pred.rhs) := fun hprune =>
      if_pos hprune
    have happend : ∀ slot : Slot, slot.expression = operand →
        Fresh unprunable rest (slots ++ [slot]) →
        (run unprunable rest (slots ++ [slot])).map Slot.expression =
          slots.map Slot.expression ++ operand :: rest := by
      intro slot hslot hfresh
      rw [ih hpruned.2 (hnodup.sublist hsublist) hfresh]
      simp [hslot]
    rw [hrun]
    cases hstep with
    | @merge pred before seen after hop hprune hseen hwiden =>
      subst hop hseen
      refine absurd ?_ (hfresh seen (by simp))
      rw [filterMap_cons_some (hquestion hprune), (asks_of_widen hwiden).1,
        (asks_of_widen hwiden).2]
      exact mem_cons_self
    | @memo pred hop hprune =>
      subst hop
      rw [filterMap_cons_some (hquestion hprune), nodup_cons] at hnodup
      apply happend (.memo pred) rfl
      intro seen hseen
      rcases mem_append.mp hseen with hold | hnew
      · exact hslots seen hold
      · obtain rfl := Slot.memo.inj (mem_singleton.mp hnew)
        exact hnodup.1
    | other =>
      apply happend (.other _) hpruned.1
      exact fun seen hseen => hslots seen (by simpa using hseen)

theorem pruner_of_unmergeable (hunmergeable : Unmergeable unprunable expression) :
    pruner unprunable expression = expression := by
  induction expression with
  | none => rfl
  | predicate => rfl
  | negation operand ih => rw [pruner, ih hunmergeable]
  | connective kind operands ih =>
    rw [unmergeable_apply] at hunmergeable
    rw [pruner_apply, run_of_fresh (fun operand hop =>
      ih operand hop (hunmergeable.2 operand hop)) hunmergeable.1 (by simp [Fresh])]
    rfl

end Pruner

open Expression hiding none
open Pruner

variable {expression : Expression} {unprunable : List String}

theorem mem_predicates_prune {pred : Predicate}
    (hpred : pred ∈ predicates (prune unprunable expression)) : pred ∈ predicates expression ∨
      ∃ origin ∈ predicates expression,
        prunable unprunable origin = true ∧ pred = widen origin := by
  let good (pred : Predicate) : Prop := pred ∈ predicates expression ∨
    ∃ origin ∈ predicates expression, prunable unprunable origin = true ∧ pred = widen origin
  have hclosed : ∀ pred, good pred → prunable unprunable pred = true → good (widen pred) := by
    rintro pred (hmem | ⟨origin, horigin, hprune, rfl⟩) hpred
    · exact Or.inr ⟨pred, hmem, hpred, rfl⟩
    · exact Or.inr ⟨origin, horigin, hprune, rfl⟩
  refine pruneLoop_invariant (fun result => ∀ pred ∈ predicates result, good pred)
    (fun result hres => ?_) _ _ (good_pruner hclosed fun _ hmem => Or.inl hmem) pred hpred
  rw [predicates_hoist]
  exact good_pruner hclosed hres

/-- The predicates outside of negations that are merged while an expression is pruned. -/
def mergedPredicates (unprunable : List String) (expression : Expression) : List Predicate :=
  merged unprunable expression ++
    mergedLoop unprunable expression.size (pruner unprunable expression) expression

theorem loosely_prune {may : Predicate → Bool}
    (hwiden : ∀ pred ∈ mergedPredicates unprunable expression, prunable unprunable pred = true →
      Widens may pred)
    (hmay : loosely may expression = true) : loosely may (prune unprunable expression) = true := by
  obtain ⟨hfirst, hrounds⟩ := forall_mem_append.mp hwiden
  rw [prune]
  have hresult := loosely_pruner hfirst hmay
  clear hwiden hfirst hmay
  generalize pruner unprunable expression = result, expression.size = fuel at hrounds hresult ⊢
  induction fuel generalizing result expression with
  | zero => exact hresult
  | succ fuel ih =>
    rw [mergedLoop] at hrounds
    rw [pruneLoop]
    split
    · exact hresult
    next hne =>
      rw [if_neg hne, forall_mem_append] at hrounds
      apply ih _ hrounds.2
      rw [loosely_hoist]
      exact loosely_pruner hrounds.1 hresult

/-! ## The end of the loop -/

/-- A predicate stays, or a prunable one is widened. -/
theorem mem_predicates_pruner {pred : Predicate} (hpred : pred ∈ predicates expression) :
    pred ∈ predicates (pruner unprunable expression) ∨ prunable unprunable pred = true ∧
      widen pred ∈ predicates (pruner unprunable expression) := by
  induction expression with
  | none | predicate => exact Or.inl hpred
  | negation operand ih => exact ih hpred
  | connective kind operands ih =>
    rw [predicates_apply, mem_flatMap] at hpred
    obtain ⟨operand, hop, hpred⟩ := hpred
    obtain ⟨slot, hslot, hstands⟩ := (covers_operands operands).slot operand hop
    rw [pruner_apply, predicates_apply]
    have hmem : ∀ {found}, found ∈ predicates slot.expression →
        found ∈ ((run unprunable operands []).map Slot.expression).flatMap predicates :=
      fun hfound => mem_flatMap_of_mem (mem_map_of_mem hslot) hfound
    cases hstands with
    | memo => exact Or.inl (hmem hpred)
    | widened hprune =>
      obtain rfl := mem_singleton.mp hpred
      exact Or.inr ⟨hprune, hmem (mem_singleton_self _)⟩
    | other => exact (ih operand hop hpred).imp hmem (And.imp_right hmem)

/-- Every predicate is the same as itself, which those on values that are not numbers are not. -/
def SelfSame (expression : Expression) : Prop :=
  ∀ pred ∈ predicates expression, pred.same pred = true

theorem same_self_of_prunable {pred : Predicate} (hprune : prunable unprunable pred = true) :
    pred.same pred = true := by
  obtain ⟨lhs, op, rhs⟩ := pred
  unfold prunable at hprune
  split at hprune
  next field text hlhs hrhs =>
    obtain rfl : lhs = .fieldExtractor field := hlhs
    obtain rfl : rhs = .data (.basic (.string text)) := hrhs
    simp [Predicate.same, Operand.same, Data.same, BasicData.same, BasicData.compare]
  next type text hlhs hrhs =>
    obtain rfl : lhs = .typeExtractor type := hlhs
    obtain rfl : rhs = .data (.basic (.string text)) := hrhs
    simp [Predicate.same, Operand.same, Data.same, BasicData.same, BasicData.compare]
  · cases hprune

theorem selfSame_pruner : SelfSame (pruner unprunable expression) ↔ SelfSame expression := by
  constructor
  · intro hself pred hpred
    rcases mem_predicates_pruner hpred with hkept | ⟨hprune, -⟩
    · exact hself pred hkept
    · exact same_self_of_prunable hprune
  · exact good_pruner fun pred _ hprune => same_self_of_prunable (prunable_widen hprune)

theorem same_self_iff : expression.same expression = true ↔ SelfSame expression := by
  induction expression with
  | none => simp [Expression.same, SelfSame, predicates]
  | predicate pred => simp [Expression.same, SelfSame, predicates]
  | negation operand ih => exact ih
  | connective kind operands ih =>
    have hops : (kind.apply operands).same (kind.apply operands) = true ↔
        ∀ operand ∈ operands, operand.same operand = true := by
      cases kind <;> induction operands <;> simp_all [Connective.apply, Expression.same, sameList]
    rw [hops, SelfSame, predicates_apply, forall_mem_flatMap]
    exact forall₂_congr ih

theorem size_eq_of_same {other : Expression} (hsame : expression.same other = true) :
    size expression = size other := by
  induction expression generalizing other with
  | none => cases other <;> first | rfl | cases hsame
  | predicate => cases other <;> first | rfl | cases hsame
  | negation operand ih =>
    cases other with
    | negation inner => exact congrArg (· + 1) (ih hsame)
    | _ => cases hsame
  | connective kind operands ih =>
    obtain ⟨others, rfl, hothers⟩ := same_apply hsame
    rw [size_apply, size_apply]
    clear hsame
    congr 1
    induction hothers with
    | nil => rfl
    | cons hop _ ihrest =>
      rw [forall_mem_cons] at ih
      rw [map_cons, map_cons, sum_cons, sum_cons, ih.1 hop, ihrest ih.2]

/-- The comparison of a round finds any change, but takes a value that is not a number for one. -/
theorem same_iff_of_shrunk {result : Expression} (hres : Shrunk [result] [expression]) :
    result.same expression = true ↔ result = expression ∧ SelfSame result := by
  constructor
  · intro hsame
    have hsize := size_eq_of_same hsame
    obtain rfl : result = expression := by simpa [Shrunk, hsize] using hres
    exact ⟨rfl, same_self_iff.mp hsame⟩
  · rintro ⟨rfl, hself⟩
    exact same_self_iff.mpr hself

theorem loop_pruneLoop {fuel : Nat} {result : Expression} (hres : Shrunk [result] [expression])
    (hfuel : size expression ≤ fuel) (hself : SelfSame result) :
    Loop unprunable result expression (pruneLoop unprunable fuel result expression) := by
  induction fuel generalizing result expression with
  | zero =>
    have hpos := size_pos expression
    omega
  | succ fuel ih =>
    rw [pruneLoop]
    split
    next heq => exact .done ((same_iff_of_shrunk hres).mpr ⟨heq, hself⟩)
    next hne =>
      have hlt : size result < size expression := by simpa [Shrunk, hne] using hres
      refine .round ?_ (ih (shrunk_round unprunable result) (by omega) ?_)
      · rw [← Bool.not_eq_true, same_iff_of_shrunk hres]
        exact fun hsame => hne hsame.1
      · rw [SelfSame, predicates_hoist]
        exact selfSame_pruner.mpr hself

theorem selfSame_of_loop {result final : Expression} (hres : Shrunk [result] [expression])
    (hloop : Loop unprunable result expression final) : SelfSame result := by
  induction hloop with
  | done hsame => exact ((same_iff_of_shrunk hres).mp hsame).2
  | @round result _ _ _ _ ih =>
    have hself := ih (shrunk_round unprunable result)
    rw [SelfSame, predicates_hoist] at hself
    exact selfSame_pruner.mp hself

theorem Pruner.Loop.unique {result final other : Expression}
    (hloop : Loop unprunable result expression final)
    (hother : Loop unprunable result expression other) : final = other := by
  induction hloop with
  | done hsame =>
    cases hother with
    | done => rfl
    | round hdiffers => simp [hsame] at hdiffers
  | round hdiffers _ ih =>
    cases hother with
    | done hsame => simp [hsame] at hdiffers
    | round _ hrest => exact ih hrest

/-- As many rounds as the expression has nodes are enough for the loop, which ends with what they
give if and only if the expression is the same as itself: no literal is not a number. -/
theorem prune_ends (unprunable : List String) (expression : Expression) :
    (∀ fuel, expression.size ≤ fuel →
        pruneLoop unprunable fuel (pruner unprunable expression) expression =
          prune unprunable expression) ∧
      ∀ final, Loop unprunable (pruner unprunable expression) expression final ↔
        expression.same expression = true ∧ final = prune unprunable expression := by
  have hres := shrunk_pruner unprunable expression
  refine ⟨fun fuel hfuel => pruneLoop_eq_of_le unprunable hres hfuel le_rfl, fun final => ?_⟩
  have hloop (hself : SelfSame expression) :
      Loop unprunable (pruner unprunable expression) expression (prune unprunable expression) :=
    loop_pruneLoop hres le_rfl (selfSame_pruner.mpr hself)
  rw [same_self_iff]
  constructor
  · intro hfinal
    have hself := selfSame_pruner.mp (selfSame_of_loop hres hfinal)
    exact ⟨hself, hfinal.unique (hloop hself)⟩
  · rintro ⟨hself, rfl⟩
    exact hloop hself

/-- Without repeated literals nothing is pruned. -/
theorem prune_of_unmergeable (hunmergeable : Unmergeable unprunable expression) :
    prune unprunable expression = expression := by
  rw [prune, pruner_of_unmergeable hunmergeable]
  cases expression.size with
  | zero => rfl
  | succ fuel => rw [pruneLoop, if_pos rfl]

end Vast
