import Vast.Query.Complement
import Vast.Query.RowEquivalence

/-! # Tailoring twice

An expression that is tailored already is tailored again before it is evaluated.
Bound predicates stay what they are, so the second time drops only what the first
time has left as nil inside an expression. That is what a predicate on timestamps
becomes for a schema without timestamps: it counts as false at first, and as not
applicable then.
-/

namespace Vast

open Foundation List Verdict
open Expression hiding none

/-! ## Predicates -/

namespace TypeResolver

variable {schema : VastType} {operands : List Expression} {kind : Connective}

theorem gather_of_settled (hops : ∀ operand ∈ operands, operand ≠ .none)
    (result : List Expression) :
    gather kind (operands.map .ok) result = .ok (collected kind (result ++ operands)) := by
  induction operands generalizing result with
  | nil =>
    rw [append_nil]
    rfl
  | cons operand rest ih =>
    obtain ⟨hne, hrest⟩ := forall_mem_cons.mp hops
    rw [map_cons, gather_of_ne_none hne, ih hrest, ← append_cons]

theorem resolve_collected
    (hsettled : ∀ operand ∈ operands, operand ≠ .none ∧ resolve schema operand = .ok operand) :
    resolve schema (collected kind operands) = .ok (collected kind operands) := by
  match operands with
  | [] => rfl
  | [operand] => exact (hsettled operand (mem_singleton_self _)).2
  | first :: second :: rest =>
    refine (resolve_apply schema kind _).trans ?_
    rw [map_congr_left fun operand hop => (hsettled operand hop).2]
    exact gather_of_settled (fun operand hop => (hsettled operand hop).1) []

/-- What a predicate becomes: a predicate on columns, two of them for a timestamp, or
itself. -/
theorem resolved_cases {pred : Predicate} {resolved : Expression}
    (hresolve : resolvePredicate schema pred = .ok resolved) :
    (∃ op rhs columns, resolved = connect op (boundTo op rhs columns)) ∨
      (∃ op rhs columns others, resolved =
        .disjunction [connect op (boundTo op rhs columns), connect op (boundTo op rhs others)]) ∨
      resolved = .predicate pred := by
  rcases Evaluate.resolvePredicate_cases schema pred with
    ⟨type, rhs, -, htype⟩ | ⟨field, rhs, hfield⟩ | hother
  · have hextr := (htype pred.op).symm.trans hresolve
    unfold resolveTypeExtractor at hextr
    simp only [resolveExtractor_eq] at hextr
    split at hextr
    · split at hextr
      · split at hextr
        · cases hextr
        · cases hextr
          exact Or.inr (Or.inl ⟨_, _, _, _, rfl⟩)
      · cases hextr
        exact Or.inl ⟨_, _, _, rfl⟩
    · cases hextr
      exact Or.inl ⟨_, _, _, rfl⟩
  · cases (hfield pred.op).symm.trans hresolve
    exact Or.inl ⟨_, _, _, resolveFieldExtractor_eq _ _ _ _⟩
  · cases (hother pred.op).symm.trans hresolve
    exact Or.inr (Or.inr rfl)

theorem connect_ne_disjunction_none (op : RelationalOperator) (rhs : Data)
    (columns : List (VastType × Nat)) :
    connect op (boundTo op rhs columns) ≠ .disjunction [.none, .none] := by
  match columns with
  | [] | [_] => exact fun hconnect => by cases hconnect
  | first :: second :: rest =>
    simp only [boundTo, connect, map_cons, bound]
    split <;> simp

/-- A predicate of what is left comes from a predicate of the expression. -/
theorem mem_predicates_resolve {expression resolved : Expression} {pred : Predicate}
    (hresolve : resolve schema expression = .ok resolved) (hpred : pred ∈ predicates resolved) :
    ∃ source ∈ predicates expression, ∃ part, resolvePredicate schema source = .ok part ∧
      pred ∈ predicates part := by
  induction expression generalizing resolved with
  | none =>
    cases hresolve
    exact absurd hpred not_mem_nil
  | predicate source => exact ⟨source, mem_singleton_self _, resolved, hresolve, hpred⟩
  | negation operand ih =>
    rw [resolve] at hresolve
    split at hresolve
    · cases hresolve
    · cases hresolve
      exact absurd hpred not_mem_nil
    next hop =>
      cases hresolve
      exact ih hop hpred
  | connective kind operands ih =>
    rcases resolve_apply_cases hresolve with ⟨_, _, _, _, _, _, _, _, rfl⟩ |
      ⟨results, hresults, -, rfl⟩
    · exact absurd hpred not_mem_nil
    · rw [predicates_collected, mem_flatMap] at hpred
      obtain ⟨result, hresult, hpred⟩ := hpred
      have hmem : .ok result ∈ operands.map (resolve schema) := by
        rw [hresults]
        exact mem_map_of_mem (mem_of_mem_filter hresult)
      obtain ⟨operand, hop, heq⟩ := mem_map.mp hmem
      obtain ⟨source, hsource, hpart⟩ := ih operand hop heq hpred
      exact ⟨source, predicates_apply kind operands ▸ mem_flatMap_of_mem hop hsource, hpart⟩

/-- A comparison with timestamps of which the schema has none. -/
def UnmatchedTimestamp (schema : VastType) (pred : Predicate) : Prop :=
  resolvePredicate schema pred = .ok (.disjunction [.none, .none])

instance (schema : VastType) (pred : Predicate) : Decidable (UnmatchedTimestamp schema pred) :=
  inferInstanceAs (Decidable (_ = _))

end TypeResolver

/-! ## Expressions -/

namespace Evaluate

open TypeResolver

variable [Regex] {slice : TableSlice} {row : List Data} {pred : Predicate} {resolved : Expression}

/-- What a predicate says when it is tailored twice. -/
def retailoredVerdict (slice : TableSlice) (row : List Data) (pred : Predicate) :
    Verdict TailorError :=
  if UnmatchedTimestamp slice.schema pred then .ok none else predicateVerdict slice row pred

theorem reading_connect (op : RelationalOperator) (rhs : Data) (columns : List (VastType × Nat)) :
    reading (predicateVerdict slice row) (connect op (boundTo op rhs columns)) =
      .ok (applied slice row (connect op (boundTo op rhs columns))) := by
  have hsettled : ∀ operand ∈ boundTo op rhs columns, operand ≠ .none ∧
      resolve slice.schema operand = .ok operand := by
    rw [boundTo, forall_mem_map]
    exact fun _ _ => ⟨by simp [bound], rfl⟩
  rw [← map_applied_resolve, connect_eq, resolve_collected hsettled]
  rfl

/-- The parts of a comparison with timestamps. -/
theorem either_applied (first second : Expression) :
    either (.ok (applied slice row first)) (.ok (applied slice row second)) =
      if first = .none ∧ second = .none then (.ok none : Verdict TailorError)
      else .ok (applied slice row (.disjunction [first, second])) := by
  by_cases hfirst : first = .none
  · subst hfirst
    by_cases hsecond : second = .none
    · subst hsecond
      rfl
    · rw [if_neg fun hboth => hsecond hboth.2]
      simp [applied, holds, holdsAny, either]
  · rw [if_neg fun hboth => hfirst hboth.1, applied_of_ne_none hfirst]
    simp only [either, Except.map]
    rw [← holds_eq_getD_applied, applied_of_ne_none (by simp)]
    simp [holds, holdsAny]

/-- The second time, a predicate says what it has said, unless it is on timestamps that
the schema does not have. -/
theorem reading_resolvePredicate (hresolve : resolvePredicate slice.schema pred = .ok resolved) :
    reading (predicateVerdict slice row) resolved = retailoredVerdict slice row pred := by
  have hverdict : predicateVerdict slice row pred = .ok (applied slice row resolved) := by
    rw [predicateVerdict, hresolve]
    rfl
  unfold retailoredVerdict
  have hunmatched : UnmatchedTimestamp slice.schema pred ↔
      resolved = .disjunction [.none, .none] := by
    rw [UnmatchedTimestamp, hresolve, Except.ok.injEq]
  simp only [hverdict, hunmatched]
  rcases resolved_cases hresolve with
    ⟨op, rhs, columns, rfl⟩ | ⟨op, rhs, columns, others, rfl⟩ | rfl
  · rw [if_neg (connect_ne_disjunction_none op rhs columns), reading_connect]
  · rw [reading_disjunction, map_cons, map_cons, map_nil, reading_connect, reading_connect,
      disjoin_cons, disjoin_cons, disjoin_nil, either_none, either_applied]
    simp
  · exact hverdict

section Connectives

variable {ε : Type} {verdict : Predicate → Verdict ε} {kind : Connective}
  {verdicts : List (Verdict ε)}

omit [Regex]

theorem conclude_ok (hverdicts : ∀ said ∈ verdicts, ∃ answer, said = .ok answer) :
    ∃ answer, conclude kind verdicts = .ok answer := by
  induction verdicts with
  | nil => cases kind <;> exact ⟨_, rfl⟩
  | cons said rest ih =>
    obtain ⟨⟨first, rfl⟩, hrest⟩ := forall_mem_cons.mp hverdicts
    obtain ⟨answer, hanswer⟩ := ih hrest
    cases kind with
    | all => exact ⟨_, (congrArg (both _) hanswer).trans (both_ok _ _)⟩
    | any => exact ⟨_, (congrArg (either _) hanswer).trans (either_ok _ _)⟩

/-- Nothing after a part that does not apply is asked. -/
theorem conjoin_of_none (hverdicts : ∀ said ∈ verdicts, ∃ answer, said = .ok answer)
    (rest : List (Verdict ε)) : conjoin (verdicts ++ .ok none :: rest) = .ok none := by
  induction verdicts with
  | nil => rfl
  | cons said others ih =>
    obtain ⟨⟨first, rfl⟩, hothers⟩ := forall_mem_cons.mp hverdicts
    rw [cons_append, conjoin_cons, ih hothers]
    cases first <;> rfl

theorem reading_collected {operands : List Expression} (hne : kind = .all → operands ≠ []) :
    reading verdict (collected kind operands) = conclude kind (operands.map (reading verdict)) := by
  match operands with
  | [] =>
    cases kind with
    | all => exact absurd rfl (hne rfl)
    | any => rfl
  | [operand] => exact ((folds_conclude kind).single _).symm
  | first :: second :: rest => exact reading_apply _ kind (by simp)

theorem disjoin_filter (operands : List Expression) :
    disjoin ((operands.filter (· ≠ .none)).map (reading verdict)) =
      disjoin (operands.map (reading verdict)) := by
  induction operands with
  | nil => rfl
  | cons operand rest ih =>
    by_cases hnone : operand = .none
    · rw [filter_cons_of_neg (by simpa using hnone), ih, hnone]
      rfl
    · rw [filter_cons_of_pos (by simpa using hnone), map_cons, disjoin_cons, ih]
      rfl

/-- Operands that are resolved one by one say what their results say. -/
theorem readings_of_resolved {resolver : Expression → Except ε Expression}
    {before after : Expression → Verdict ε} {operands results : List Expression}
    (hresults : operands.map resolver = results.map .ok)
    (hops : ∀ operand ∈ operands, ∀ result, resolver operand = .ok result →
      after result = before operand ∧ ∃ answer, before operand = .ok answer) :
    results.map after = operands.map before ∧
      ∀ said ∈ operands.map before, ∃ answer, said = .ok answer := by
  induction operands generalizing results with
  | nil => cases results <;> simp_all
  | cons operand rest ih =>
    cases results with
    | nil => cases hresults
    | cons first tail =>
      rw [map_cons, map_cons, cons.injEq] at hresults
      rw [forall_mem_cons] at hops
      obtain ⟨hsaid, hanswer⟩ := hops.1 first hresults.1
      obtain ⟨htail, hanswers⟩ := ih hresults.2 hops.2
      rw [map_cons, hsaid, htail]
      exact ⟨rfl, forall_mem_cons.mpr ⟨hanswer, hanswers⟩⟩

end Connectives

/-- The second time, an expression says what it says when predicates on timestamps that
the schema does not have are taken as not applicable. -/
theorem reading_resolve {expression resolved : Expression}
    (hresolve : resolve slice.schema expression = .ok resolved) :
    reading (predicateVerdict slice row) resolved =
        reading (retailoredVerdict slice row) expression ∧
      ∃ answer, reading (retailoredVerdict slice row) expression = .ok answer := by
  induction expression generalizing resolved with
  | none =>
    cases hresolve
    exact ⟨rfl, _, rfl⟩
  | predicate pred =>
    refine ⟨reading_resolvePredicate hresolve, ?_⟩
    rw [resolve] at hresolve
    rw [reading, retailoredVerdict, predicateVerdict, hresolve]
    split <;> exact ⟨_, rfl⟩
  | negation operand ih =>
    rw [resolve] at hresolve
    rw [reading]
    split at hresolve
    · cases hresolve
    next hnone =>
      cases hresolve
      rw [← (ih hnone).1]
      exact ⟨rfl, _, rfl⟩
    next resolved hne hop =>
      cases hresolve
      obtain ⟨hreading, answer, hanswer⟩ := ih hop
      rw [reading, hreading, hanswer]
      exact ⟨rfl, _, rfl⟩
  | connective kind operands ih =>
    rcases resolve_apply_cases hresolve with
      ⟨before, operand, after, results, rfl, rfl, hbefore, hnone, rfl⟩ |
      ⟨results, hres, hne, rfl⟩
    · obtain ⟨-, hanswers⟩ := readings_of_resolved hbefore fun part hpart _ =>
        ih part (mem_append_left _ hpart)
      rw [reading_apply _ _ (by simp), map_append, map_cons, ← (ih operand (by simp) hnone).1]
      have hskipped := conjoin_of_none hanswers (after.map (reading (retailoredVerdict slice row)))
      exact ⟨hskipped.symm, _, hskipped⟩
    · obtain ⟨hreading, hanswers⟩ := readings_of_resolved hres fun part hpart _ => ih part hpart
      by_cases hnil : operands = []
      · obtain rfl : results = [] := by simpa [hnil] using hres.symm
        rw [hnil]
        cases kind <;> exact ⟨rfl, _, rfl⟩
      · have hresults_ne : results ≠ [] := by
          rintro rfl
          exact hnil (by simpa using hres)
        rw [reading_apply _ kind hnil, ← hreading]
        rw [← hreading] at hanswers
        refine ⟨?_, conclude_ok hanswers⟩
        cases kind with
        | all =>
          rw [filter_eq_self.mpr (by simpa using hne rfl)]
          exact reading_collected fun _ => hresults_ne
        | any =>
          exact (reading_collected fun hall => by cases hall).trans (disjoin_filter results)

/-- Whether a row satisfies an expression in which predicates on timestamps that the schema
does not have are not applicable. -/
def holdsRetailored (slice : TableSlice) (row : List Data) (expression : Expression) : Bool :=
  match reading (retailoredVerdict slice row) expression with
  | .ok (some holds) => holds
  | _ => false

/-- What is tailored can be tailored again, unless it is nil. -/
theorem tailor_tailored {expression tailored : Expression}
    (htailored : tailor expression slice.schema = .ok tailored) (hne : tailored ≠ .none) :
    ∃ again, tailor tailored slice.schema = .ok again ∧
      ∀ row, holds slice row again = holdsRetailored slice row expression := by
  have hexpr : expression ≠ .none := by
    rintro rfl
    cases htailored
  rw [tailor_of_ne_none hexpr] at htailored
  rw [tailor_of_ne_none hne]
  have happlied : ∀ row, (resolve slice.schema tailored).map (applied slice row) =
      reading (retailoredVerdict slice row) expression := by
    intro row
    rw [map_applied_resolve]
    exact (reading_resolve htailored).1
  cases hagain : resolve slice.schema tailored with
  | error error =>
    have hsays : ∃ answer, reading (retailoredVerdict slice []) expression = .ok answer :=
      (reading_resolve htailored).2
    obtain ⟨answer, hanswer⟩ := hsays
    have hrow := happlied []
    rw [hagain, hanswer] at hrow
    cases hrow
  | ok again =>
    refine ⟨again, rfl, fun row => ?_⟩
    rw [holdsRetailored, ← happlied, hagain, holds_eq_getD_applied]
    cases hsays : applied slice row again with
    | none | some holds => simp [Except.map, hsays]

end Evaluate

end Vast
