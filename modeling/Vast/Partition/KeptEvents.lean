import Vast.Partition.PassivePartition

/-! # Events that a partition keeps

An index that fails contributes nothing, so a predicate counts as false for an event unless
one of its columns has no indexer or answers. The event is kept if the expression is still
true then. Without any answer there is no bitmap, and the store is not restricted.
-/

namespace Vast

open Foundation RecordType List EvaluatorState Bitmap Bool IdsEvaluator Expression

namespace IdsEvaluator

variable {schema : VastType} {resolved : List (Offset × Predicate)} {xs : List Expression}

theorem resolveOperandsAt_cons {x : Expression} {position : Offset} {index : Nat}
    (hresolve : resolveOperandsAt schema (x :: xs) position index = some resolved) :
    ∃ first others, x.resolveAt schema (position ++ [index]) = some first ∧
      resolveOperandsAt schema xs position (index + 1) = some others ∧
      resolved = first ++ others := by
  rw [resolveOperandsAt] at hresolve
  split at hresolve
  next first others hfirst hothers =>
    exact ⟨first, others, hfirst, hothers, (Option.some.inj hresolve).symm⟩
  · cases hresolve

/-- The combined ids are as long as those of every predicate. -/
def AsLong (schema : VastType) (ids : Offset → Ids) (expr : Expression) : Prop :=
  ∀ position resolved, expr.resolveAt schema position = some resolved →
    ∀ entry ∈ resolved, (ids entry.1).length ≤ (combine ids expr position).length

theorem length_le_combineRest {ids : Offset → Ids} {op : Ids → Ids → Ids}
    (hop : ∀ left right, (op left right).length = max left.length right.length)
    (hxs : ∀ x ∈ xs, AsLong schema ids x) (position : Offset) (index : Nat) (result : Ids)
    (hresolve : resolveOperandsAt schema xs position index = some resolved) :
    result.length ≤ (combineRest ids op xs position index result).length ∧ ∀ entry ∈ resolved,
        (ids entry.1).length ≤ (combineRest ids op xs position index result).length := by
  induction xs generalizing index result resolved with
  | nil =>
    cases hresolve
    exact ⟨le_refl _, fun entry hentry => nomatch hentry⟩
  | cons x xs ih =>
    obtain ⟨hx, hxs⟩ := forall_mem_cons.mp hxs
    obtain ⟨first, others, hfirst, hothers, rfl⟩ := resolveOperandsAt_cons hresolve
    obtain ⟨hres, hrest⟩ := ih hxs (index + 1)
      (op result (combine ids x (position ++ [index]))) hothers
    rw [hop, Nat.max_le] at hres
    refine ⟨hres.1, forall_mem_append.mpr ⟨fun entry hentry => ?_, hrest⟩⟩
    exact le_trans (hx _ _ hfirst entry hentry) hres.2

theorem length_le_combine (ids : Offset → Ids) (expr : Expression)
    (hfree : expr.negationFree = true) : AsLong schema ids expr := by
  induction expr with
  | none => exact fun _ _ hresolve => nomatch hresolve
  | negation operand _ => cases hfree
  | predicate pred =>
    intro position resolved hresolve
    rw [resolveAt] at hresolve
    split at hresolve
    · cases hresolve
    · cases hresolve
      intro entry hentry
      obtain ⟨pred, -, rfl⟩ := mem_map.mp hentry
      exact le_refl _
  | connective kind operands ih =>
    have hlong := fun x hx => ih x hx (negationFree_apply.mp hfree x hx)
    intro position resolved hresolve
    have hops : resolveOperandsAt schema operands position 0 = some resolved := by
      cases kind <;> exact hresolve
    cases operands with
    | nil =>
      cases hops
      exact fun entry hentry => nomatch hentry
    | cons x xs =>
      obtain ⟨hx, hxs⟩ := forall_mem_cons.mp hlong
      obtain ⟨first, others, hfirst, hothers, rfl⟩ := resolveOperandsAt_cons hops
      have hcombine : ∃ op, (∀ left right, (op left right).length =
          max left.length right.length) ∧ combine ids (kind.apply (x :: xs)) position =
          combineRest ids op xs position 1 (combine ids x (position ++ [0])) := by
        cases kind
        · exact ⟨and, length_and, rfl⟩
        · exact ⟨or, length_or, rfl⟩
      obtain ⟨op, hop, hcombine⟩ := hcombine
      obtain ⟨hres, hrest⟩ := length_le_combineRest hop hxs position 1
        (combine ids x (position ++ [0])) hothers
      rw [hcombine]
      refine forall_mem_append.mpr ⟨fun entry hentry => ?_, hrest⟩
      exact le_trans (hx _ _ hfirst entry hentry) hres

end IdsEvaluator

namespace Expression

/-- An expression without negations stays true if more predicates are true. -/
theorem valueAt_mono {values values' : Offset → Bool}
    (hvalues : ∀ position, values position = true → values' position = true) (expr : Expression)
    (position : Offset) (hfree : expr.negationFree = true)
    (hvalue : expr.valueAt values position = true) : expr.valueAt values' position = true := by
  -- The value is the only bit of the combined ids.
  have htest : ∀ values : Offset → Bool, (combine (fun position => [values position])
      expr position).test 0 = expr.valueAt values position :=
    fun values => test_combine _ 0 expr position hfree
  have hle : ∀ position, Bitmap.Le [values position] [values' position] := by
    intro position
    refine ⟨le_refl 1, fun index => ?_⟩
    cases index with
    | zero => exact hvalues position
    | succ index => exact id
  rw [← htest] at hvalue ⊢
  exact (combine_mono hle expr position hfree).test_le 0 hvalue

end Expression

namespace PassivePartition

section Kept

variable [Regex] (partition : PassivePartition) (fails : Nat → RelationalOperator → Data → Bool)
  {id : Nat} {replies : List (EvaluationTriple × Option Ids)} {triple : EvaluationTriple}
  {event : Event} {answers : List (Offset × Ids)}

/-- Whether the request of a triple brings no bitmap: the lookup fails, or the schema has
another name. -/
def silent (triple : EvaluationTriple) : Bool :=
  triple.indexer.isSome &&
    match triple.predicate.lhs, triple.predicate.rhs with
    | .metaExtractor .type, .data x =>
      !Data.evaluate (.basic (.string partition.schema.name)) triple.predicate.op x
    | .metaExtractor .importTime, .data _ => false
    | .dataExtractor _ column, .data x => fails column triple.predicate.op x
    | _, _ => true

/-- Whether the predicate of a triple counts for an event. All events count if there is no
indexer, and none if the lookup fails. -/
def counts (event : Event) (triple : EvaluationTriple) : Bool :=
  triple.indexer.isNone ||
    match triple.predicate.lhs, triple.predicate.rhs with
    | .metaExtractor .type, .data x =>
      Data.evaluate (.basic (.string partition.schema.name)) triple.predicate.op x
    | .metaExtractor .importTime, .data _ => true
    | .dataExtractor _ column, .data x =>
      !fails column triple.predicate.op x &&
        partition.cellMatches event column triple.predicate.op x
    | _, _ => false

/-- Whether one of the predicates at a position counts for an event. -/
def countsAt (expr : Expression) (event : Event) (position : Offset) : Bool :=
  (partition.evaluate expr).any fun triple =>
    triple.position == position && partition.counts fails event triple

/-- Every matching event can be found: the partition has columns, the expression resolves
for the combined schema, and either there is no bitmap at all or the expression is true for
the event when only the predicates count that have an answer. -/
def Survives (expr : Expression) : Prop :=
  ∀ event ∈ partition.events, Matches expr event →
    partition.fields ≠ [] ∧ partition.evaluate expr ≠ [] ∧
      ((∀ triple ∈ partition.evaluate expr, partition.silent fails triple = true) ∨
        expr.valueAt (partition.countsAt fails expr event) [0] = true)

variable {partition fails} {lookup : Lookup} {expr : Expression}

/-! ## Answers -/

section

omit [Regex]

theorem typeIds_eq (hid : id < partition.events.length) :
    partition.typeIds = [(partition.schema.name, replicate partition.events.length true)] := by
  have hslices : partition.slices.isEmpty = false := by
    cases hslices : partition.slices with
    | nil =>
      rw [events, hslices] at hid
      exact absurd hid (Nat.not_lt_zero id)
    | cons slice slices => rfl
  rw [typeIds, hslices]
  rfl

theorem test_replicate_true {id count : Nat} (hid : id < count) :
    test (replicate count true) id = true := by
  rw [test, getD_eq_getElem?_getD, getElem?_replicate_of_lt hid, Option.getD_some]

theorem test_allIds (hid : id < partition.events.length) : partition.allIds.test id = true := by
  rw [allIds, typeIds_eq hid]
  exact test_replicate_true hid

end

theorem test_rowIds_type (hid : id < partition.events.length) (op : RelationalOperator) (x : Data) :
    (partition.rowIds .type op x).test id =
      Data.evaluate (.basic (.string partition.schema.name)) op x := by
  simp only [rowIds, typeIds_eq hid, foldl_cons, foldl_nil, nil_or]
  split
  next hmatch => rw [hmatch, test_replicate_true hid]
  next hmatch =>
    rw [not_eq_true] at hmatch
    rw [hmatch]
    rfl

/-- Whether an id is among the ids for a triple. -/
def tripleHas (lookup : Lookup) (expr : Expression) (id : Nat) (triple : EvaluationTriple) : Prop :=
  if triple.indexer.isNone then
    (partition.idsForEvaluation (partition.evaluate expr)).test id = true
  else ∃ ids, partition.answer lookup triple.predicate = some ids ∧ ids.test id = true

/-- The ids collected for a position, with the answers to all requests. -/
def collected (partition : PassivePartition) (expr : Expression)
    (replies : List (EvaluationTriple × Option Ids)) : Offset → Ids :=
  EvaluatorState.answered (EvaluatorState.allAnswers
    (partition.idsForEvaluation (partition.evaluate expr)) (partition.evaluate expr) replies)

theorem test_collected (hreplies : replies.Perm (partition.answers lookup expr))
    (position : Offset) (id : Nat) : (partition.collected expr replies position).test id = true ↔
      ∃ triple ∈ partition.evaluate expr, triple.position = position ∧
        partition.tripleHas lookup expr id triple := by
  have hset := toSet_answered_eq_received (partition.evaluate expr)
    (partition.idsForEvaluation (partition.evaluate expr)) replies position
  have hmem := Set.ext_iff.mp hset id
  refine hmem.trans ?_
  constructor
  · intro hrecv
    rcases hrecv with ⟨triple, htriple, hpos, hnone, hid⟩ |
      ⟨reply, hreply, hpos, ids, hids, hid⟩
    · refine ⟨triple, htriple, hpos, ?_⟩
      rw [tripleHas, hnone]
      exact hid
    · obtain ⟨triple, htriple, rfl⟩ := mem_map.mp (hreplies.mem_iff.mp hreply)
      obtain ⟨htriple, hsome⟩ := mem_filter.mp htriple
      refine ⟨triple, htriple, hpos, ?_⟩
      rw [tripleHas, if_neg (by simpa [Option.isSome_iff_ne_none] using hsome)]
      exact ⟨ids, hids, hid⟩
  · intro htriple
    obtain ⟨triple, htriple, hpos, hhas⟩ := htriple
    rw [tripleHas] at hhas
    split at hhas
    next hnone =>
      exact Or.inl ⟨triple, htriple, hpos, Option.isNone_iff_eq_none.mp hnone, hhas⟩
    next hsome =>
      obtain ⟨ids, hids, hid⟩ := hhas
      refine Or.inr ⟨(triple, partition.answer lookup triple.predicate), ?_, hpos, ids, hids, hid⟩
      apply hreplies.mem_iff.mpr
      apply mem_map.mpr
      refine ⟨triple, mem_filter.mpr ⟨htriple, ?_⟩, rfl⟩
      simpa [Option.isSome_iff_ne_none] using hsome

theorem tripleHas_of_counts (hsound : partition.Sound lookup) (hfails : FailsExactly fails lookup)
    (hevent : partition.events[id]? = some event) (htriple : triple ∈ partition.evaluate expr)
    (hcounts : partition.counts fails event triple = true) :
    partition.tripleHas lookup expr id triple := by
  have hid : id < partition.events.length := (List.getElem?_eq_some_iff.mp hevent).1
  rw [tripleHas]
  split
  next hnone =>
    rw [idsForEvaluation, if_pos (any_eq_true.mpr ⟨triple, htriple, hnone⟩)]
    exact test_allIds hid
  next hsome =>
    rw [counts, Bool.not_eq_true _ |>.mp hsome, Bool.false_or] at hcounts
    rw [answer]
    split at hcounts
    next x hlhs hrhs =>
      rw [hlhs, hrhs]
      exact ⟨_, rfl, (test_rowIds_type hid _ _).trans hcounts⟩
    next x hlhs hrhs =>
      rw [hlhs, hrhs]
      exact ⟨_, rfl, test_allIds hid⟩
    next type column x hlhs hrhs =>
      rw [hlhs, hrhs]
      rw [and_eq_true] at hcounts
      cases hlookup : lookup column triple.predicate.op x with
      | none =>
        rw [(hfails _ _ _).mp hlookup] at hcounts
        cases hcounts.1
      | some ids => exact ⟨ids, hlookup, hsound _ _ _ ids hlookup id event hevent hcounts.2⟩
    · cases hcounts

/-! ## Kept events -/

theorem handed_eq (hfree : expr.negationFree = true) (hfields : partition.fields ≠ [])
    (hne : partition.evaluate expr ≠ []) (hreplies : replies.Perm (partition.answers lookup expr)) :
    partition.handed expr replies =
      some (combine (partition.collected expr replies) expr [0]) := by
  have horder : (replies.map Prod.fst).Perm
      ((partition.evaluate expr).filter fun triple => triple.indexer.isSome) := by
    have hmap := hreplies.map Prod.fst
    rwa [answers, map_map, Function.comp_def, map_id'] at hmap
  rw [handed, if_neg (not_or_intro hfields hne), sent_eq hfree hne _ horder]
  rfl

omit [Regex] in
theorem answered_eq_nil (hnil : ∀ answer ∈ answers, answer.2 = []) (position : Offset) :
    answered answers position = [] := by
  rw [answered]
  induction answers with
  | nil => rfl
  | cons head tail ih =>
    rw [foldl_cons, hnil head mem_cons_self, Bitmap.or_nil, ite_self]
    exact ih fun answer hanswer => hnil answer (mem_cons_of_mem _ hanswer)

theorem rowIds_type_eq_nil {op : RelationalOperator} {x : Data}
    (hmatch : Data.evaluate (.basic (.string partition.schema.name)) op x = false) :
    partition.rowIds .type op x = [] := by
  rw [rowIds, typeIds]
  split
  · rfl
  · simp [hmatch]

/-- A request that brings no bitmap has no ids. -/
theorem getD_answer_of_silent (hfails : FailsExactly fails lookup)
    (hsilent : partition.silent fails triple = true) :
    (partition.answer lookup triple.predicate).getD [] = [] := by
  rw [silent, and_eq_true] at hsilent
  have hmatch := hsilent.2
  rw [answer]
  split
  next kind x hlhs hrhs =>
    rw [hlhs, hrhs] at hmatch
    cases kind with
    | type => exact rowIds_type_eq_nil ((not_eq_true' _).mp hmatch)
    | importTime => cases hmatch
  next type column x hlhs hrhs =>
    rw [hlhs, hrhs] at hmatch
    rw [(hfails _ _ _).mpr hmatch]
    rfl
  · rfl

/-- Requests that bring no bitmap leave no bitmap for any position. -/
theorem collected_of_silent (hfails : FailsExactly fails lookup)
    (hreplies : replies.Perm (partition.answers lookup expr))
    (hsilent : ∀ triple ∈ partition.evaluate expr, partition.silent fails triple = true) :
    partition.collected expr replies = fun _ => [] := by
  funext position
  apply answered_eq_nil
  intro answer hanswer
  rcases mem_append.mp hanswer with himmediate | hlater
  · obtain ⟨triple, htriple, rfl⟩ := mem_map.mp himmediate
    obtain ⟨htriple, hnone⟩ := mem_filter.mp htriple
    have hsome := hsilent triple htriple
    rw [silent, Option.isNone_iff_eq_none.mp hnone] at hsome
    cases hsome
  · obtain ⟨reply, hreply, rfl⟩ := mem_map.mp hlater
    obtain ⟨triple, htriple, rfl⟩ := mem_map.mp (hreplies.mem_iff.mp hreply)
    exact getD_answer_of_silent hfails (hsilent triple (mem_filter.mp htriple).1)

theorem losesNothing_of_survives (hfree : expr.negationFree = true)
    (hsurvives : partition.Survives fails expr) : partition.LosesNothing expr fails := by
  intro lookup hsound hfails replies hreplies id event hevent hmatches
  obtain ⟨hfields, hne, hfound⟩ := hsurvives event (mem_of_getElem? hevent) hmatches
  refine ⟨_, handed_eq hfree hfields hne hreplies, ?_⟩
  rcases hfound with hsilent | hvalue
  · left
    rw [collected_of_silent hfails hreplies hsilent, combine_nil expr [0] hfree]
  · right
    rw [test_combine _ id expr [0] hfree]
    refine valueAt_mono ?_ expr [0] hfree hvalue
    intro position hcounts
    obtain ⟨triple, htriple, hcounts⟩ := any_eq_true.mp hcounts
    rw [and_eq_true, beq_iff_eq] at hcounts
    rw [test_collected hreplies]
    exact ⟨triple, htriple, hcounts.1, tripleHas_of_counts hsound hfails hevent htriple hcounts.2⟩

/-! ## Lost events -/

/-- Indexes that fail as given and are exact otherwise. -/
def exactLookup (partition : PassivePartition)
    (fails : Nat → RelationalOperator → Data → Bool) : Lookup :=
  fun column op x =>
    if fails column op x then none
    else some (partition.events.map fun event => partition.cellMatches event column op x)

omit [Regex] in
theorem test_map_events (f : Event → Bool) (id : Nat) :
    test (partition.events.map f) id = true ↔
      ∃ event, partition.events[id]? = some event ∧ f event = true := by
  rw [test, getD_eq_getElem?_getD, getElem?_map]
  cases partition.events[id]? <;> simp

theorem sound_exactLookup : partition.Sound (partition.exactLookup fails) := by
  intro column op x ids hlookup id event hevent hmatch
  rw [exactLookup] at hlookup
  split at hlookup
  · cases hlookup
  · cases hlookup
    exact (test_map_events _ id).mpr ⟨event, hevent, hmatch⟩

theorem failsExactly_exactLookup : FailsExactly fails (partition.exactLookup fails) := by
  intro column op x
  rw [exactLookup]
  split
  next hfails => exact iff_of_true rfl hfails
  next hfails => exact iff_of_false (by simp) hfails

theorem counts_of_tripleHas (hevent : partition.events[id]? = some event)
    (hhas : partition.tripleHas (partition.exactLookup fails) expr id triple) :
    partition.counts fails event triple = true := by
  have hid : id < partition.events.length := (List.getElem?_eq_some_iff.mp hevent).1
  rw [tripleHas] at hhas
  rw [counts]
  split at hhas
  next hnone => rw [hnone, Bool.true_or]
  next hsome =>
    obtain ⟨ids, hanswer, htest⟩ := hhas
    rw [or_eq_true]
    right
    rw [answer] at hanswer
    split at hanswer
    next kind x hlhs hrhs =>
      cases hanswer
      rw [hlhs, hrhs]
      cases kind with
      | type => exact (test_rowIds_type hid _ x).symm.trans htest
      | importTime => rfl
    next type column x hlhs hrhs =>
      rw [exactLookup] at hanswer
      split at hanswer
      · cases hanswer
      next hfails =>
        cases hanswer
        obtain ⟨event', hevent', hmatch⟩ := (test_map_events _ id).mp htest
        cases hevent.symm.trans hevent'
        rw [hlhs, hrhs]
        exact (and_eq_true _ _).mpr ⟨by simpa using hfails, hmatch⟩
    · cases hanswer

omit [Regex] in
/-- The ids for a position are as long as those of each answer. -/
theorem length_le_answered {answer : Offset × Ids} (hanswer : answer ∈ answers) :
    answer.2.length ≤ (answered answers answer.1).length := by
  obtain ⟨before, after, rfl⟩ := append_of_mem hanswer
  induction after using reverseRecOn with
  | nil =>
    rw [answered_append, if_pos rfl, length_or]
    exact le_max_right _ _
  | append_singleton after other ih =>
    have hle := (answered_le (before ++ answer :: after) other answer.1).length_le
    rw [append_assoc] at hle
    exact le_trans (ih (by simp)) hle

omit [Regex] in
theorem length_allIds (hid : id < partition.events.length) :
    partition.allIds.length = partition.events.length := by
  rw [allIds, typeIds_eq hid, foldl_cons, foldl_nil, nil_or, length_replicate]

/-- With exact indexes, a request that is not silent brings a bitmap for all events. -/
theorem length_answer (hid : id < partition.events.length) (hsome : triple.indexer.isSome = true)
    (hloud : partition.silent fails triple = false) :
    ((partition.answer (partition.exactLookup fails) triple.predicate).getD []).length =
      partition.events.length := by
  rw [silent, hsome] at hloud
  rw [answer]
  split
  next kind x hlhs hrhs =>
    rw [hlhs, hrhs] at hloud
    cases kind with
    | type =>
      simp [rowIds, typeIds_eq hid, (not_eq_false' _).mp hloud]
    | importTime => exact length_allIds hid
  next type column x hlhs hrhs =>
    rw [hlhs, hrhs] at hloud
    rw [exactLookup, if_neg (by simpa using hloud)]
    exact length_map _
  next hmeta hdata =>
    split at hloud
    next hlhs hrhs => exact absurd hrhs (hmeta _ _ hlhs)
    next hlhs hrhs => exact absurd hrhs (hmeta _ _ hlhs)
    next hlhs hrhs => exact absurd hrhs (hdata _ _ _ hlhs)
    · cases hloud

/-- With exact indexes, the result is as long as the partition if a request is not silent. -/
theorem length_le_handed (hfree : expr.negationFree = true) (hid : id < partition.events.length)
    (htriple : triple ∈ partition.evaluate expr) (hloud : partition.silent fails triple = false) :
    partition.events.length ≤ (combine (partition.collected expr
      (partition.answers (partition.exactLookup fails) expr)) expr [0]).length := by
  -- The triple has an answer of this length.
  have hanswer : ∃ ids, ids.length = partition.events.length ∧ (triple.position, ids) ∈
      allAnswers (partition.idsForEvaluation (partition.evaluate expr))
        (partition.evaluate expr) (partition.answers (partition.exactLookup fails) expr) := by
    cases hindexer : triple.indexer with
    | none =>
      have hnone : triple.indexer.isNone = true := by rw [hindexer]; rfl
      have hany : ((partition.evaluate expr).any fun triple => triple.indexer.isNone) = true :=
        any_eq_true.mpr ⟨triple, htriple, hnone⟩
      refine ⟨partition.idsForEvaluation (partition.evaluate expr), ?_, ?_⟩
      · rw [idsForEvaluation, if_pos hany, length_allIds hid]
      · apply mem_append_left
        exact mem_map.mpr ⟨triple, mem_filter.mpr ⟨htriple, hnone⟩, rfl⟩
    | some indexer =>
      have hsome : triple.indexer.isSome = true := by rw [hindexer]; rfl
      refine ⟨_, length_answer hid hsome hloud, ?_⟩
      apply mem_append_right
      refine mem_map.mpr ⟨_, mem_map.mpr ⟨triple, mem_filter.mpr ⟨htriple, hsome⟩, rfl⟩, rfl⟩
  obtain ⟨ids, hlen, hmem⟩ := hanswer
  obtain ⟨entry, hentry, rfl⟩ := mem_map.mp htriple
  rw [resolvePositions] at hentry
  cases hresolve : expr.resolveAt partition.combinedSchema [0] with
  | none =>
    rw [hresolve] at hentry
    cases hentry
  | some resolved =>
    rw [hresolve] at hentry
    rw [← hlen]
    exact le_trans (length_le_answered hmem)
      (length_le_combine _ expr hfree _ _ hresolve entry hentry)

theorem survives_of_losesNothing (hfree : expr.negationFree = true)
    (hkeeps : partition.LosesNothing expr fails) : partition.Survives fails expr := by
  intro event hmem hmatches
  obtain ⟨id, hevent⟩ := getElem?_of_mem hmem
  have hid : id < partition.events.length := (List.getElem?_eq_some_iff.mp hevent).1
  have hreplies := Perm.refl (partition.answers (partition.exactLookup fails) expr)
  obtain ⟨ids, hhanded, hids⟩ := hkeeps _ sound_exactLookup failsExactly_exactLookup _ hreplies
    id event hevent hmatches
  have hasked : ¬ (partition.fields = [] ∨ partition.evaluate expr = []) := by
    intro hnothing
    rw [handed, if_pos hnothing] at hhanded
    cases hhanded
  obtain ⟨hfields, hne⟩ := not_or.mp hasked
  refine ⟨hfields, hne, ?_⟩
  rw [handed_eq hfree hfields hne hreplies] at hhanded
  cases hhanded
  rcases hids with hnil | htest
  · -- A request that is not silent would make the result as long as the partition.
    left
    intro triple htriple
    by_contra hloud
    rw [not_eq_true] at hloud
    have hlen := length_le_handed hfree hid htriple hloud
    rw [hnil] at hlen
    exact absurd (Nat.lt_of_lt_of_le hid hlen) (Nat.not_lt_zero id)
  · right
    rw [test_combine _ id expr [0] hfree] at htest
    refine valueAt_mono ?_ expr [0] hfree htest
    intro position hpos
    obtain ⟨triple, htriple, heq, hhas⟩ := (test_collected hreplies position id).mp hpos
    apply any_eq_true.mpr
    refine ⟨triple, htriple, ?_⟩
    rw [and_eq_true, beq_iff_eq]
    exact ⟨heq, counts_of_tripleHas hevent hhas⟩

/-- No event is lost if and only if every matching event is found with the answers that do
not fail. -/
theorem losesNothing_iff (partition : PassivePartition)
    (fails : Nat → RelationalOperator → Data → Bool) (expr : Expression)
    (hfree : expr.negationFree = true) :
    partition.LosesNothing expr fails ↔ partition.Survives fails expr :=
  ⟨survives_of_losesNothing hfree, losesNothing_of_survives hfree⟩

end Kept

/-! ## Instances -/

def stringAndNumber : PassivePartition where
  schema := .enriched (.record [("a", .basic .string), ("c", .basic .int64)]) (some "sample") []
  slices := [{
    schema := .enriched (.record [("a", .basic .string), ("c", .basic .int64)]) (some "sample") []
    offset := some 0
    importTime := 0
    rows := [[.basic (.string "a"), .basic (.int64 1)]]
    typed := by decide }]
  schema_eq := by
    intro slice hslice
    rw [List.mem_singleton.mp hslice]
  hasIndexer := fun _ => true

/-- The order of strings and the equality of numbers. -/
def lessAndEqual : Expression :=
  .conjunction [.predicate ⟨.fieldExtractor "a", .less, .data (.basic (.string "b"))⟩,
    .predicate ⟨.fieldExtractor "c", .equal, .data (.basic (.int64 1))⟩]

/-- The index for strings does not support the order. -/
def stringsFail : Nat → RelationalOperator → Data → Bool :=
  fun column op _ => column == 0 && op == .less

/-- Indexes that do not fail lose nothing. -/
theorem losesNothing_without_failures :
    @LosesNothing stringAndNumber literalRegex lessAndEqual fun _ _ _ => false := by
  let := literalRegex
  refine (losesNothing_iff stringAndNumber (fun _ _ _ => false) lessAndEqual rfl).mpr ?_
  intro event hevent _
  obtain rfl := mem_singleton.mp hevent
  exact ⟨by decide, by decide, Or.inr (by decide)⟩

/-- The event matches, but the failure hides it in the conjunction. -/
theorem failure_hides_event :
    ¬ @LosesNothing stringAndNumber literalRegex lessAndEqual stringsFail := by
  let := literalRegex
  intro hkeeps
  have hsurvives := survives_of_losesNothing rfl hkeeps
  obtain ⟨-, -, hfound⟩ := hsurvives _ mem_cons_self ⟨_, rfl, by decide⟩
  revert hfound
  decide

end PassivePartition

end Vast
