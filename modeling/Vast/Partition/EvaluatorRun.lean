import Vast.Partition.Evaluator

/-! # Correctness of the evaluator

Whatever the order of the answers, an evaluator delivers one result after the
last of them: the boolean combination of all ids received for the predicates.
Intermediate evaluations only add ids that the final one has as well, because
an expression without negations grows with its predicates.
-/

namespace Vast

open Foundation List Function Bitmap IdsEvaluator EvaluationTriple

namespace Expression

mutual

/-- Every connective has operands, as the visitors of expressions assert. -/
def wellFormed : Expression → Bool
  | .none => true
  | .conjunction xs => !xs.isEmpty && wellFormedAll xs
  | .disjunction xs => !xs.isEmpty && wellFormedAll xs
  | .negation x => wellFormed x
  | .predicate _ => true

def wellFormedAll : List Expression → Bool
  | [] => true
  | x :: xs => wellFormed x && wellFormedAll xs

end

mutual

/-- The ids that an expression selects when each predicate selects the ids
given for its position. -/
def selected (hits : Offset → Set Nat) : Expression → Offset → Set Nat
  | .none, _ => ∅
  | .conjunction xs, position => selectedByAll hits xs position 0
  | .disjunction xs, position => selectedByAny hits xs position 0
  | .negation x, position => (selected hits x (position ++ [0]))ᶜ
  | .predicate _, position => hits position

def selectedByAll (hits : Offset → Set Nat) : List Expression → Offset → Nat → Set Nat
  | [], _, _ => Set.univ
  | x :: xs, position, index =>
    selected hits x (position ++ [index]) ∩ selectedByAll hits xs position (index + 1)

def selectedByAny (hits : Offset → Set Nat) : List Expression → Offset → Nat → Set Nat
  | [], _, _ => ∅
  | x :: xs, position, index =>
    selected hits x (position ++ [index]) ∪ selectedByAny hits xs position (index + 1)

end

mutual

/-- The value of an expression, given the values of the predicates at their positions. A
connective without operands is false. -/
def valueAt (values : Offset → Bool) : Expression → Offset → Bool
  | .none, _ => false
  | .conjunction [], _ => false
  | .conjunction (x :: xs), position =>
    valueAt values x (position ++ [0]) && allAt values xs position 1
  | .disjunction [], _ => false
  | .disjunction (x :: xs), position =>
    valueAt values x (position ++ [0]) || anyAt values xs position 1
  | .negation x, position => !valueAt values x (position ++ [0])
  | .predicate _, position => values position

def allAt (values : Offset → Bool) : List Expression → Offset → Nat → Bool
  | [], _, _ => true
  | x :: xs, position, index =>
    valueAt values x (position ++ [index]) && allAt values xs position (index + 1)

def anyAt (values : Offset → Bool) : List Expression → Offset → Nat → Bool
  | [], _, _ => false
  | x :: xs, position, index =>
    valueAt values x (position ++ [index]) || anyAt values xs position (index + 1)

end

end Expression

namespace IdsEvaluator

@[simp]
theorem push_eq (position : Offset) : push position = position ++ [0] := rfl

@[simp]
theorem pop_append (position : Offset) (index : Nat) : pop (position ++ [index]) = position :=
  dropLast_concat

@[simp]
theorem next_append (position : Offset) (index : Nat) :
    next (position ++ [index]) = position ++ [index + 1] := by
  rw [next, length_append, length_singleton, Nat.add_sub_cancel]
  induction position with
  | nil => rfl
  | cons head tail ih => simp [ih]

def collected (hits : PredicateHits) (position : Offset) : Ids :=
  match hits position with
  | some (_, ids) => ids
  | none => []

mutual

/-- The result of a visit, with the positions made explicit. -/
def combine (ids : Offset → Ids) : Expression → Offset → Ids
  | .none, _ => []
  | .conjunction [], _ => []
  | .conjunction (x :: xs), position =>
    combineRest ids Bitmap.and xs position 1 (combine ids x (position ++ [0]))
  | .disjunction [], _ => []
  | .disjunction (x :: xs), position =>
    combineRest ids Bitmap.or xs position 1 (combine ids x (position ++ [0]))
  | .negation x, position => (combine ids x (position ++ [0])).flip
  | .predicate _, position => ids position

def combineRest (ids : Offset → Ids) (op : Ids → Ids → Ids) :
    List Expression → Offset → Nat → Ids → Ids
  | [], _, _, result => result
  | x :: xs, position, index, result =>
    combineRest ids op xs position (index + 1)
      (op result (combine ids x (position ++ [index])))

end

mutual

theorem visit_eq (hits : PredicateHits) : ∀ (expr : Expression) (position : Offset),
      visit hits expr position = (combine (collected hits) expr position, position)
  | .none, position | .conjunction [], position => by simp only [visit, combine]
  | .conjunction (x :: xs), position => by
    simp only [visit, combine, push_eq, visit_eq hits x, visitRest_eq hits and xs,
      pop_append]
  | .disjunction [], position => by simp only [visit, combine]
  | .disjunction (x :: xs), position => by
    simp only [visit, combine, push_eq, visit_eq hits x, visitRest_eq hits or xs, pop_append]
  | .negation x, position => by
    simp only [visit, combine, push_eq, visit_eq hits x, pop_append]
  | .predicate _, position => by
    simp only [visit, combine, collected]
    cases hits position <;> rfl

theorem visitRest_eq (hits : PredicateHits) (op : Ids → Ids → Ids) :
    ∀ (xs : List Expression) (result : Ids) (position : Offset) (index : Nat),
      visitRest hits op xs result (position ++ [index]) =
        (combineRest (collected hits) op xs position (index + 1) result,
          position ++ [index + xs.length])
  | [], result, position, index => by
    simp only [visitRest, combineRest, length_nil, Nat.add_zero]
  | x :: xs, result, position, index => by
    simp only [visitRest, combineRest, next_append, visit_eq hits x,
      visitRest_eq hits op xs, length_cons]
    rw [Nat.add_assoc index 1 xs.length, Nat.add_comm 1 xs.length]

end

theorem run_eq (hits : PredicateHits) (expr : Expression) :
    run hits expr = combine (collected hits) expr [0] := by
  rw [run, visit_eq]
  rfl

open Expression (negationFree negationFreeAll wellFormed wellFormedAll valueAt allAt anyAt selected
  selectedByAll selectedByAny)

/-- A relation between ids that the set operations respect. -/
structure Respected (related : Ids → Ids → Prop) : Prop where
  nil : related [] []
  and : ∀ left right left' right', related left left' → related right right' →
    related (Bitmap.and left right) (Bitmap.and left' right')
  or : ∀ left right left' right', related left left' → related right right' →
    related (Bitmap.or left right) (Bitmap.or left' right')

variable {related : Ids → Ids → Prop} {ids ids' : Offset → Ids}

mutual

/-- A relation between the ids of the predicates extends to the expression. -/
theorem Respected.combine (hrel : Respected related)
    (hids : ∀ position, related (ids position) (ids' position)) :
    ∀ (expr : Expression) (position : Offset), expr.negationFree = true →
      related (combine ids expr position) (combine ids' expr position)
  | .none, _, _ => hrel.nil
  | .conjunction [], _, _ => hrel.nil
  | .conjunction (x :: xs), position, hfree => by
    simp only [negationFree, negationFreeAll, Bool.and_eq_true] at hfree
    exact hrel.combineRest hids hrel.and xs position 1 hfree.2 (hrel.combine hids x _ hfree.1)
  | .disjunction [], _, _ => hrel.nil
  | .disjunction (x :: xs), position, hfree => by
    simp only [negationFree, negationFreeAll, Bool.and_eq_true] at hfree
    exact hrel.combineRest hids hrel.or xs position 1 hfree.2 (hrel.combine hids x _ hfree.1)
  | .negation _, _, hfree => by simp only [negationFree, Bool.false_eq_true] at hfree
  | .predicate _, position, _ => hids position

theorem Respected.combineRest (hrel : Respected related)
    (hids : ∀ position, related (ids position) (ids' position)) {op : Ids → Ids → Ids}
    (hop : ∀ left right left' right', related left left' → related right right' →
      related (op left right) (op left' right')) :
    ∀ (xs : List Expression) (position : Offset) (index : Nat) {result result' : Ids},
      negationFreeAll xs = true → related result result' →
      related (combineRest ids op xs position index result)
        (combineRest ids' op xs position index result')
  | [], _, _, _, _, _, hres => hres
  | x :: xs, position, index, _, _, hfree, hres => by
    simp only [negationFreeAll, Bool.and_eq_true] at hfree
    apply hrel.combineRest hids hop xs _ _ hfree.2
    exact hop _ _ _ _ hres (hrel.combine hids x _ hfree.1)

end

theorem combine_mono (hle : ∀ position, (ids position).Le (ids' position)) (expr : Expression)
    (position : Offset) (hfree : expr.negationFree = true) :
    (combine ids expr position).Le (combine ids' expr position) :=
  have hrel : Respected Bitmap.Le :=
    ⟨Le.refl _, fun _ _ _ _ => and_mono, fun _ _ _ _ => or_mono⟩
  hrel.combine hle expr position hfree

theorem combine_nil (expr : Expression) (position : Offset) (hfree : expr.negationFree = true) :
    combine (fun _ => []) expr position = [] := by
  have hrel : Respected fun ids _ => ids = [] := by
    refine ⟨rfl, ?_, ?_⟩ <;> rintro left right _ _ rfl rfl <;> rfl
  exact @Respected.combine _ _ (fun _ => []) hrel (fun _ => rfl) expr position hfree

variable (ids : Offset → Ids) (id : Nat)

mutual

theorem test_combine :
    ∀ (expr : Expression) (position : Offset), expr.negationFree = true →
      (combine ids expr position).test id =
        expr.valueAt (fun position => (ids position).test id) position
  | .none, _, _ => rfl
  | .conjunction [], _, _ => rfl
  | .conjunction (x :: xs), position, hfree => by
    rw [negationFree, negationFreeAll, Bool.and_eq_true] at hfree
    rw [combine, (test_combineRest xs _ _ _ hfree.2).1, test_combine x _ hfree.1, valueAt]
  | .disjunction [], _, _ => rfl
  | .disjunction (x :: xs), position, hfree => by
    rw [negationFree, negationFreeAll, Bool.and_eq_true] at hfree
    rw [combine, (test_combineRest xs _ _ _ hfree.2).2, test_combine x _ hfree.1, valueAt]
  | .negation _, _, hfree => by cases hfree
  | .predicate _, _, _ => rfl

theorem test_combineRest :
    ∀ (xs : List Expression) (position : Offset) (index : Nat) (result : Ids),
      negationFreeAll xs = true →
      (combineRest ids and xs position index result).test id =
          (result.test id && allAt (fun position => (ids position).test id) xs position index) ∧
        (combineRest ids or xs position index result).test id =
          (result.test id || anyAt (fun position => (ids position).test id) xs position index)
  | [], _, _, _, _ => by simp [combineRest, allAt, anyAt]
  | x :: xs, position, index, result, hfree => by
    rw [negationFreeAll, Bool.and_eq_true] at hfree
    rw [combineRest, combineRest, (test_combineRest xs _ _ _ hfree.2).1,
      (test_combineRest xs _ _ _ hfree.2).2, test_and, test_or, test_combine x _ hfree.1, allAt,
      anyAt, Bool.and_assoc, Bool.or_assoc]
    exact ⟨rfl, rfl⟩

end

mutual

theorem mem_selected :
    ∀ (expr : Expression) (position : Offset), expr.wellFormed = true →
      (id ∈ expr.selected (fun position => (ids position).toSet) position ↔
        expr.valueAt (fun position => (ids position).test id) position = true)
  | .none, _, _ => by simp [selected, valueAt]
  | .conjunction [], _, hwell => by simp [wellFormed] at hwell
  | .conjunction (x :: xs), position, hwell => by
    rw [wellFormed, Bool.and_eq_true] at hwell
    rw [selected, (mem_selectedBy (x :: xs) position 0 hwell.2).1, allAt, valueAt]
  | .disjunction [], _, hwell => by simp [wellFormed] at hwell
  | .disjunction (x :: xs), position, hwell => by
    rw [wellFormed, Bool.and_eq_true] at hwell
    rw [selected, (mem_selectedBy (x :: xs) position 0 hwell.2).2, anyAt, valueAt]
  | .negation x, position, hwell => by
    rw [selected, Set.mem_compl_iff, mem_selected x _ hwell,
      valueAt, Bool.not_eq_true, Bool.not_eq_true']
  | .predicate _, _, _ => Iff.rfl

theorem mem_selectedBy :
    ∀ (xs : List Expression) (position : Offset) (index : Nat), wellFormedAll xs = true →
      (id ∈ selectedByAll (fun position => (ids position).toSet) xs position index ↔
          allAt (fun position => (ids position).test id) xs position index = true) ∧
        (id ∈ selectedByAny (fun position => (ids position).toSet) xs position index ↔
          anyAt (fun position => (ids position).test id) xs position index = true)
  | [], _, _, _ => by simp [selectedByAll, allAt, selectedByAny, anyAt]
  | x :: xs, position, index, hwell => by
    rw [wellFormedAll, Bool.and_eq_true] at hwell
    have hx := mem_selected x (position ++ [index]) hwell.1
    have hxs := mem_selectedBy xs position (index + 1) hwell.2
    rw [selectedByAll, allAt, Bool.and_eq_true, selectedByAny, anyAt, Bool.or_eq_true]
    exact ⟨and_congr hx hxs.1, or_congr hx hxs.2⟩

end

theorem toSet_combine (ids : Offset → Ids) (expr : Expression) (position : Offset)
    (hfree : expr.negationFree = true) (hwell : expr.wellFormed = true) :
    (combine ids expr position).toSet =
      expr.selected (fun position => (ids position).toSet) position := by
  ext id
  rw [mem_selected ids id expr position hwell, ← test_combine ids id expr position hfree]
  rfl

end IdsEvaluator

namespace EvaluatorState

/-- The union of the ids that were answered for a position. -/
def answered (answers : List (Offset × Ids)) (position : Offset) : Ids :=
  answers.foldl (fun ids answer =>
    if answer.1 = position then Bitmap.or ids answer.2 else ids) []

theorem answered_append (answers : List (Offset × Ids)) (answer : Offset × Ids)
    (position : Offset) : answered (answers ++ [answer]) position =
      if answer.1 = position then or (answered answers position) answer.2
      else answered answers position := by
  rw [answered, foldl_append]
  rfl

variable {position : Offset}

theorem mem_answered {answers : List (Offset × Ids)} {id : Nat} :
    id ∈ (answered answers position).toSet ↔
      ∃ answer ∈ answers, answer.1 = position ∧ id ∈ answer.2.toSet := by
  have hfold : ∀ ids : Ids, id ∈ toSet (answers.foldl (fun ids answer =>
      if answer.1 = position then or ids answer.2 else ids) ids) ↔
      id ∈ ids.toSet ∨ ∃ answer ∈ answers, answer.1 = position ∧ id ∈ answer.2.toSet := by
    induction answers with
    | nil => simp
    | cons head tail ih =>
      intro ids
      rw [foldl_cons, ih]
      split
      next heq => simp [heq, toSet, test_or, or_assoc]
      next hne => simp [hne]
  rw [answered, hfold]
  simp

/-- The bookkeeping of an evaluator: the answers so far, the positions of the
requests that are still open, and the number of triples not yet started. The
hits stay below what the answers give, and nothing is delivered before the last
answer. -/
structure Tracks (expr : Expression) (fallback : Ids) (answers : List (Offset × Ids))
    (missing : List Offset) (unstarted : Nat) (state : EvaluatorState) : Prop where
  expr_eq : state.expr = expr
  fallback_eq : state.idsToUseForNoIndexer = fallback
  hits_eq : ∀ position, IdsEvaluator.collected state.predicateHits position =
    answered answers position
  missing_eq : ∀ position, ((state.predicateHits position).map Prod.fst).getD 0 =
    missing.count position
  pending_eq : state.pendingResponses = missing.length + unstarted
  hits_le : state.hits.Le (IdsEvaluator.combine (answered answers) expr [0])
  waiting : missing.length + unstarted ≠ 0 → state.promisePending = true ∧ state.sent = []
  delivered : missing.length + unstarted = 0 → state.promisePending = false ∧
    state.sent = [IdsEvaluator.combine (answered answers) expr [0]]

variable {expr : Expression} {fallback : Ids} {answers : List (Offset × Ids)}
  {missing : List Offset} {unstarted : Nat} {state : EvaluatorState} {eval : List EvaluationTriple}

theorem answered_le (answers : List (Offset × Ids)) (answer : Offset × Ids) (position : Offset) :
    (answered answers position).Le (answered (answers ++ [answer]) position) := by
  rw [answered_append]
  split
  · exact le_or_left _ _
  · exact Le.refl _

section

variable (htracks : Tracks expr fallback answers missing unstarted state)

include htracks

theorem Tracks.perm {reordered : List Offset} (hperm : missing.Perm reordered) :
    Tracks expr fallback answers reordered unstarted state := by
  have hlen := hperm.length_eq
  exact { htracks with
    missing_eq := fun position => hperm.count_eq position ▸ htracks.missing_eq position
    pending_eq := hlen ▸ htracks.pending_eq
    waiting := hlen ▸ htracks.waiting
    delivered := hlen ▸ htracks.delivered }

theorem Tracks.found (hmissing : position ∈ missing) : ∃ accumulated,
      state.predicateHits position = some (missing.count position, accumulated) := by
  have hcount := htracks.missing_eq position
  have hpos := count_pos_iff.mpr hmissing
  cases hfound : state.predicateHits position with
  | none =>
    rw [hfound, Option.map_none, Option.getD_none] at hcount
    omega
  | some entry =>
    rw [hfound, Option.map_some, Option.getD_some] at hcount
    exact ⟨entry.2, by rw [← hcount]⟩

/-- Adding the ids of an answer closes its request; the response is still to be
counted. -/
theorem Tracks.record (hfree : expr.negationFree = true) (hmissing : position ∈ missing)
    {accumulated : Ids} (ids : Ids)
    (hfound : state.predicateHits position = some (missing.count position, accumulated)) :
    Tracks expr fallback (answers ++ [(position, ids)]) (missing.erase position) (unstarted + 1)
      { state with
        predicateHits := update state.predicateHits position
          (some (missing.count position - 1, or accumulated ids)) } := by
  have hlen := length_erase_of_mem hmissing
  have hpos := length_pos_of_mem hmissing
  refine ⟨htracks.expr_eq, htracks.fallback_eq, ?_, ?_, ?_, ?_, ?_, ?_⟩
  · intro other
    have hother := htracks.hits_eq other
    rw [answered_append]
    by_cases heq : position = other
    · subst heq
      simp only [collected, hfound] at hother
      simp only [collected, update_self, if_true, hother]
    · simp only [collected, update_of_ne (Ne.symm heq), heq, if_false]
      exact hother
  · intro other
    by_cases heq : other = position
    · subst heq
      simp [count_erase_self]
    · simp only [update_of_ne heq, count_erase_of_ne heq]
      exact htracks.missing_eq other
  · have hpend := htracks.pending_eq
    simp only
    omega
  · exact htracks.hits_le.trans
      (combine_mono (answered_le answers _) expr [0] hfree)
  · exact fun _ => htracks.waiting (by omega)
  · exact fun hzero => by omega

/-- Evaluating the expression brings the hits up to date. -/
theorem Tracks.evaluate : Tracks expr fallback answers missing unstarted state.evaluate ∧
      state.evaluate.hits = combine (answered answers) expr [0] := by
  have hcoll : collected state.predicateHits = answered answers :=
    funext htracks.hits_eq
  have hhits : state.evaluate.hits = combine (answered answers) expr [0] := by
    simp only [EvaluatorState.evaluate]
    rw [run_eq, htracks.expr_eq, hcoll]
    exact or_eq_right_of_le htracks.hits_le
  refine ⟨{ htracks with hits_le := ?_ }, hhits⟩
  rw [hhits]
  exact Le.refl _

end

/-- Counting a response delivers the hits if it was the last one. -/
theorem Tracks.decrementPending
    (htracks : Tracks expr fallback answers missing (unstarted + 1) state)
    (hhits : missing.length + unstarted = 0 →
      state.hits = combine (answered answers) expr [0]) :
    Tracks expr fallback answers missing unstarted state.decrementPending := by
  have hpend : state.pendingResponses - 1 = missing.length + unstarted := by
    have := htracks.pending_eq
    omega
  obtain ⟨hpromise, hsent⟩ := htracks.waiting (by omega)
  unfold EvaluatorState.decrementPending
  simp only [hpend]
  by_cases hzero : missing.length + unstarted = 0
  · rw [if_pos hzero]
    simp only [hpromise, hsent, hhits hzero]
    exact { htracks with
      pending_eq := rfl
      hits_le := Le.refl _
      waiting := fun hne => absurd hzero hne
      delivered := fun _ => ⟨rfl, rfl⟩ }
  · rw [if_neg hzero]
    exact { htracks with
      pending_eq := rfl
      waiting := fun _ => ⟨hpromise, hsent⟩
      delivered := fun h => absurd h hzero }

/-- An answer is recorded. If it is the last one, then no request is open, so
the position of the answer is complete and the expression was just evaluated. -/
theorem Tracks.answer (hfree : expr.negationFree = true)
    (htracks : Tracks expr fallback answers missing unstarted state) (hmissing : position ∈ missing)
    (ids : Ids) :
    Tracks expr fallback (answers ++ [(position, ids)]) (missing.erase position) unstarted
      (state.handleAnswer position ids) := by
  obtain ⟨accumulated, hfound⟩ := htracks.found hmissing
  have hrecord := htracks.record hfree hmissing ids hfound
  simp only [handleAnswer, hfound]
  by_cases hcompl : missing.count position - 1 = 0
  · rw [if_pos hcompl]
    obtain ⟨hevaluate, hhits⟩ := hrecord.evaluate
    exact hevaluate.decrementPending fun _ => hhits
  · rw [if_neg hcompl]
    apply hrecord.decrementPending
    have hcount := count_erase_self (a := position) (l := missing)
    have hlen := count_le_length (a := position) (l := missing.erase position)
    omega

/-- A triple is counted as missing before it is known whether there is an
indexer for it. -/
def opened (state : EvaluatorState) (position : Offset) : EvaluatorState :=
  let entry := (state.predicateHits position).getD (0, [])
  { state with
    predicateHits := Function.update state.predicateHits position (some (entry.1 + 1, entry.2)) }

theorem Tracks.open (htracks : Tracks expr fallback answers missing (unstarted + 1) state)
    (position : Offset) :
    Tracks expr fallback answers (position :: missing) unstarted (state.opened position) := by
  have hpend := htracks.pending_eq
  refine ⟨htracks.expr_eq, htracks.fallback_eq, ?_, ?_, ?_, htracks.hits_le, ?_, ?_⟩
  · intro other
    by_cases heq : other = position
    · subst heq
      rw [← htracks.hits_eq other]
      simp only [collected, opened, update_self]
      cases state.predicateHits other <;> rfl
    · simp only [collected, opened, update_of_ne heq]
      exact htracks.hits_eq other
  · intro other
    by_cases heq : other = position
    · subst heq
      rw [count_cons_self, ← htracks.missing_eq other]
      simp only [opened, update_self]
      cases state.predicateHits other <;> rfl
    · simp only [opened, update_of_ne heq, count_cons_of_ne (Ne.symm heq)]
      exact htracks.missing_eq other
  · simp only [opened, length_cons]
    omega
  · exact fun _ => htracks.waiting (by omega)
  · intro hzero
    simp only [length_cons] at hzero
    omega

/-- The answers that are given without asking an indexer. -/
def immediateAnswers (fallback : Ids) (eval : List EvaluationTriple) : List (Offset × Ids) :=
  (eval.filter fun triple => triple.indexer.isNone).map fun triple => (triple.position, fallback)

def requests (eval : List EvaluationTriple) : List Offset :=
  (eval.filter fun triple => triple.indexer.isSome).map EvaluationTriple.position

theorem Tracks.startAll (hfree : expr.negationFree = true) (eval : List EvaluationTriple)
    (htracks : Tracks expr fallback answers missing eval.length state) :
    Tracks expr fallback (answers ++ immediateAnswers fallback eval) (requests eval ++ missing) 0
      (eval.foldl start state) := by
  induction eval generalizing answers missing state with
  | nil =>
    simp only [immediateAnswers, filter_nil, map_nil, append_nil]
    exact htracks
  | cons triple rest ih =>
    have hopened := htracks.open triple.position
    cases hindexer : triple.indexer with
    | none =>
      have hanswer := hopened.answer hfree mem_cons_self fallback
      rw [erase_cons_head] at hanswer
      have hstart : state.start triple =
          (state.opened triple.position).handleAnswer triple.position fallback := by
        simp [start, opened, hindexer, handleNoIndexer, handleResult, htracks.fallback_eq]
      rw [← hstart] at hanswer
      have hrest := ih hanswer
      simp only [immediateAnswers, requests, filter_cons, hindexer] at hrest ⊢
      rw [append_assoc] at hrest
      exact hrest
    | some indexer =>
      have hstart : state.start triple = state.opened triple.position := by
        simp [start, opened, hindexer]
      rw [← hstart] at hopened
      have hrest := (ih hopened).perm perm_middle
      simp only [immediateAnswers, requests, filter_cons, hindexer] at hrest ⊢
      exact hrest

theorem reply_eq (state : EvaluatorState) (answer : EvaluationTriple × Option Ids) :
    state.reply answer = state.handleAnswer answer.1.position (answer.2.getD []) := by
  unfold reply
  cases answer.2 <;> rfl

theorem Tracks.replies (hfree : expr.negationFree = true)
    (replies : List (EvaluationTriple × Option Ids)) {later : List Offset}
    (htracks : Tracks expr fallback answers missing 0 state)
    (hperm : ((replies.map fun answer => answer.1.position) ++ later).Perm missing) :
    Tracks expr fallback
      (answers ++ replies.map fun answer => (answer.1.position, answer.2.getD [])) later 0
      (replies.foldl reply state) := by
  induction replies generalizing answers missing state with
  | nil =>
    simp only [map_nil, append_nil]
    exact htracks.perm hperm.symm
  | cons head tail ih =>
    have hmem : head.1.position ∈ missing := hperm.mem_iff.mp mem_cons_self
    have hanswer := htracks.answer hfree hmem (head.2.getD [])
    rw [← reply_eq] at hanswer
    have hrest := ih hanswer ((cons_perm_iff_perm_erase.mp hperm).2)
    rw [append_assoc] at hrest
    exact hrest

theorem tracks_initial (expr : Expression) (eval : List EvaluationTriple) (fallback : Ids)
    (hne : eval ≠ []) :
    Tracks expr fallback [] [] eval.length {
      expr := expr
      eval := eval
      idsToUseForNoIndexer := fallback
      pendingResponses := eval.length } where
  expr_eq := rfl
  fallback_eq := rfl
  hits_eq := fun _ => rfl
  missing_eq := fun _ => rfl
  pending_eq := by simp
  hits_le := ⟨Nat.zero_le _, fun _ hbit => by simp at hbit⟩
  waiting := fun _ => ⟨rfl, rfl⟩
  delivered := fun hzero => by
    rw [length_nil, Nat.zero_add, length_eq_zero_iff] at hzero
    exact absurd hzero hne

/-- The hits of all answers are delivered once, also when the run handler
answers every triple itself and then finds that nothing is pending. -/
theorem tracks_run (fallback : Ids) (hfree : expr.negationFree = true) (hne : eval ≠ []) :
    Tracks expr fallback (immediateAnswers fallback eval) (requests eval) 0
      (run expr eval fallback) := by
  have hstarted := (tracks_initial expr eval fallback hne).startAll hfree
  rw [append_nil] at hstarted
  simp only [run]
  split
  next hpend =>
    rw [hstarted.pending_eq] at hpend
    unfold deliver
    rw [(hstarted.delivered hpend).1]
    exact hstarted
  · exact hstarted

/-- The ids received for a position: those of its answers, and the ids that
stand in for every missing indexer. An error contributes nothing. -/
def received (eval : List EvaluationTriple) (fallback : Ids)
    (replies : List (EvaluationTriple × Option Ids)) (position : Offset) : Set Nat :=
  {id | (∃ triple ∈ eval, triple.position = position ∧ triple.indexer = none ∧
      id ∈ fallback.toSet) ∨
    ∃ reply ∈ replies, reply.1.position = position ∧ ∃ ids, reply.2 = some ids ∧ id ∈ ids.toSet}

def allAnswers (fallback : Ids) (eval : List EvaluationTriple)
    (replies : List (EvaluationTriple × Option Ids)) : List (Offset × Ids) :=
  immediateAnswers fallback eval ++
    replies.map fun answer => (answer.1.position, answer.2.getD [])

theorem toSet_answered_eq_received (eval : List EvaluationTriple) (fallback : Ids)
    (replies : List (EvaluationTriple × Option Ids)) (position : Offset) :
    (answered (allAnswers fallback eval replies) position).toSet =
      received eval fallback replies position := by
  ext id
  rw [mem_answered, allAnswers]
  simp only [mem_append, or_and_right, exists_or]
  apply or_congr
  · simp only [immediateAnswers, mem_map, mem_filter, Option.isNone_iff_eq_none]
    constructor
    · rintro ⟨_, ⟨triple, ⟨hmem, hnone⟩, rfl⟩, hpos, hid⟩
      exact ⟨triple, hmem, hpos, hnone, hid⟩
    · rintro ⟨triple, hmem, hpos, hnone, hid⟩
      exact ⟨_, ⟨triple, ⟨hmem, hnone⟩, rfl⟩, hpos, hid⟩
  · simp only [mem_map]
    constructor
    · rintro ⟨_, ⟨reply, hmem, rfl⟩, hpos, hid⟩
      cases hids : reply.2 with
      | none => simp [hids] at hid
      | some ids => exact ⟨reply, hmem, hpos, ids, hids, by simpa [hids] using hid⟩
    · rintro ⟨reply, hmem, hpos, ids, hids, hid⟩
      exact ⟨_, ⟨reply, hmem, rfl⟩, hpos, by simpa [hids] using hid⟩

/-- After the last answer the hits of all answers are sent. -/
theorem sent_eq (hfree : expr.negationFree = true) (hne : eval ≠ []) (fallback : Ids)
    {replies : List (EvaluationTriple × Option Ids)}
    (horder : (replies.map Prod.fst).Perm (eval.filter fun triple => triple.indexer.isSome)) :
    (replies.foldl reply (run expr eval fallback)).sent =
      [combine (answered (allAnswers fallback eval replies)) expr [0]] := by
  have hpos : (replies.map fun answer => answer.1.position).Perm (requests eval) := by
    have := horder.map position
    rwa [map_map] at this
  rw [← append_nil (replies.map _)] at hpos
  exact (((tracks_run fallback hfree hne).replies hfree replies hpos).delivered rfl).2

/-- For every order of the answers, the evaluator delivers exactly one result,
not before the last answer, and the result is the boolean combination of the
ids received for each predicate. -/
theorem evaluator_delivers (expr : Expression) (eval : List EvaluationTriple) (fallback : Ids)
    (replies : List (EvaluationTriple × Option Ids)) (hfree : expr.negationFree = true)
    (hwell : expr.wellFormed = true)
    (horder : (replies.map Prod.fst).Perm (eval.filter fun triple => triple.indexer.isSome)) :
    (∃ result, (replies.foldl reply (run expr eval fallback)).sent = [result] ∧
      result.toSet = expr.selected (received eval fallback replies) [0]) ∧
    ∀ done rest, replies = done ++ rest → rest ≠ [] →
      (done.foldl reply (run expr eval fallback)).sent = [] := by
  by_cases hne : eval = []
  · -- Nothing to evaluate: the handler of the run message delivers no ids.
    subst hne
    obtain rfl : replies = [] := map_eq_nil_iff.mp (perm_nil.mp horder)
    refine ⟨⟨[], rfl, ?_⟩, fun done rest heq hrest => ?_⟩
    · have hreceived : received [] fallback [] = fun _ => toSet [] := by
        funext position
        simp [received]
      have hcombine := toSet_combine (fun _ => []) expr [0] hfree hwell
      rw [combine_nil expr [0] hfree] at hcombine
      rw [hreceived]
      exact hcombine
    · exact absurd (append_eq_nil_iff.mp heq.symm).2 hrest
  · constructor
    · refine ⟨_, sent_eq hfree hne fallback horder, ?_⟩
      rw [toSet_combine _ expr [0] hfree hwell]
      congr 1
      funext position
      exact toSet_answered_eq_received eval fallback replies position
    · intro done rest heq hrest
      subst heq
      have hpositions := horder.map position
      rw [map_map, map_append] at hpositions
      have hpart := (tracks_run fallback hfree hne).replies hfree done hpositions
      refine (hpart.waiting ?_).2
      rw [length_map]
      exact fun hzero => hrest (length_eq_zero_iff.mp hzero)

/-- A predicate on two columns and a disjunction, one operand of which has no
indexer. -/
def sampleTriples : List EvaluationTriple :=
  let predicate : Predicate := ⟨.fieldExtractor "x", .equal, .data (.basic (.bool true))⟩
  [⟨[0, 0], predicate, some 0⟩, ⟨[0, 0], predicate, some 1⟩, ⟨[0, 1, 0], predicate, none⟩,
    ⟨[0, 1, 1], predicate, some 2⟩]

def sampleExpression : Expression :=
  let predicate : Predicate := ⟨.fieldExtractor "x", .equal, .data (.basic (.bool true))⟩
  .conjunction [.predicate predicate, .disjunction [.predicate predicate, .predicate predicate]]

/-- The answers come in reverse, and the second indexer fails. -/
def sampleReplies : List (EvaluationTriple × Option Ids) :=
  match sampleTriples with
  | [first, second, _, fourth] =>
    [(fourth, some [false, true, false]), (second, none), (first, some [true, true])]
  | _ => []

theorem sampleReplies_reverse : sampleReplies.map Prod.fst =
    (sampleTriples.filter fun triple => triple.indexer.isSome).reverse := by
  decide

/-- The last of the replies lets the evaluator send the combined result. -/
theorem evaluator_delivers_sample :
    (sampleReplies.foldl reply (run sampleExpression sampleTriples [true])).sent =
        [[true, true, false]] ∧
      ∃ result, (sampleReplies.foldl reply (run sampleExpression sampleTriples [true])).sent =
        [result] ∧ result.toSet =
          sampleExpression.selected (received sampleTriples [true] sampleReplies) [0] :=
  ⟨by decide, (evaluator_delivers sampleExpression sampleTriples [true] sampleReplies
    (by decide) (by decide) (sampleReplies_reverse ▸ reverse_perm _)).1⟩

end EvaluatorState

end Vast
