import Vast.Evaluate.Expression
import Vast.Foundation.Verdict
import Vast.Query.Tailor
import Vast.Query.Visitors

/-! # What an expression says about a row

A predicate says that a row matches or that it does not, unless it applies to no
column of the schema. Tailoring an expression and evaluating the result combines
what the predicates say: operands that do not apply are dropped from
disjunctions and make conjunctions inapplicable.
-/

namespace Vast

open Foundation List Verdict Connective

namespace Expression

variable {ε : Type} (verdict : Predicate → Verdict ε) {operands : List Expression}
  {expression : Expression} {kind : Connective}

/-- A conjunction without operands does not apply. -/
def conjoinSome : List (Verdict ε) → Verdict ε
  | [] => .ok Option.none
  | verdicts => Verdict.conjoin verdicts

mutual

def reading : Expression → Verdict ε
  | .none => .ok Option.none
  | .conjunction operands => conjoinSome (readingList operands)
  | .disjunction operands => Verdict.disjoin (readingList operands)
  | .negation operand => (reading operand).negate
  | .predicate pred => verdict pred

def readingList : List Expression → List (Verdict ε)
  | [] => []
  | operand :: rest => reading operand :: readingList rest

end

theorem conjoinSome_of_ne_nil {verdicts : List (Verdict ε)} (hne : verdicts ≠ []) :
    conjoinSome verdicts = conjoin verdicts := by
  cases verdicts with
  | nil => exact absurd rfl hne
  | cons _ _ => rfl

theorem readingList_eq (operands : List Expression) :
    readingList verdict operands = operands.map (reading verdict) := by
  induction operands with
  | nil => rfl
  | cons operand rest ih => rw [readingList, ih, map_cons]

theorem reading_disjunction (operands : List Expression) :
    reading verdict (.disjunction operands) = disjoin (operands.map (reading verdict)) := by
  rw [reading, readingList_eq]

/-- What a connective says, from what its operands say. -/
def conclude : Connective → List (Verdict ε) → Verdict ε
  | .all => Verdict.conjoin
  | .any => Verdict.disjoin

theorem reading_apply (kind : Connective) (hne : operands ≠ []) :
    reading verdict (kind.apply operands) = conclude kind (operands.map (reading verdict)) := by
  cases kind with
  | all =>
    rw [apply, reading, readingList_eq, conjoinSome_of_ne_nil]
    · rfl
    · simpa using hne
  | any => exact reading_disjunction verdict operands

variable {verdict} {verdict' : Predicate → Verdict ε}

theorem reading_apply_congr (kind : Connective) {operands operands' : List Expression}
    (hmap : operands.map (reading verdict) = operands'.map (reading verdict')) :
    reading verdict (kind.apply operands) = reading verdict' (kind.apply operands') := by
  rw [← readingList_eq, ← readingList_eq] at hmap
  cases kind <;> rw [apply, reading, hmap, reading]

theorem reading_congr (hverdict : ∀ pred ∈ predicates expression, verdict pred = verdict' pred) :
    reading verdict expression = reading verdict' expression := by
  induction expression with
  | none => rfl
  | predicate pred => exact hverdict pred (by simp [predicates])
  | negation operand ih => rw [reading, ih hverdict, reading]
  | connective kind operands ih =>
    rw [predicates_apply, forall_mem_flatMap] at hverdict
    exact reading_apply_congr kind (map_congr_left fun operand hop =>
      ih operand hop (hverdict operand hop))

/-! ## Hoisting -/

mutual

/-- No operand is missing: there is no nil inside, and every connective has an
operand. -/
def proper : Expression → Bool
  | .none => false
  | .conjunction operands => !operands.isEmpty && properList operands
  | .disjunction operands => !operands.isEmpty && properList operands
  | .negation operand => proper operand
  | .predicate _ => true

def properList : List Expression → Bool
  | [] => true
  | operand :: rest => proper operand && properList rest

end

theorem proper_apply : proper (kind.apply operands) = true ↔
      operands ≠ [] ∧ ∀ operand ∈ operands, proper operand = true := by
  have hlist := @checkAll_iff proper properList rfl (fun _ _ => rfl) operands
  cases kind <;> simp [apply, proper, hlist]

theorem folds_conclude (kind : Connective) : Folds (conclude kind : List (Verdict ε) → _) := by
  cases kind with
  | all => exact ⟨by simp [conclude], by simp [conclude, conjoin_append]⟩
  | any => exact ⟨by simp [conclude], by simp [conclude, disjoin_append]⟩

theorem conclude_answers (kind : Connective) {answers : List Bool} (hne : answers ≠ []) :
    conclude kind (answers.map fun answer => (.ok (some answer) : Verdict ε)) =
      .ok (some (kind.combine answers)) := by
  induction answers with
  | nil => exact absurd rfl hne
  | cons first rest ih =>
    by_cases hnil : rest = []
    · rw [hnil, map_singleton, (folds_conclude kind).single, (folds_combine kind).single]
    · rw [map_cons, ← singleton_append, (folds_conclude kind).append, ih hnil,
        (folds_conclude kind).single]
      cases kind <;> simp [conclude, combine, both, either, Except.map]

theorem conclude_answers_append (answers : List Bool) (rest : List (Verdict ε)) :
    conclude kind (answers.map (fun answer => .ok (some answer)) ++ rest) =
      if answers = [] then conclude kind rest
      else conclude kind [.ok (some (kind.combine answers)), conclude kind rest] := by
  split
  next hnil => rw [hnil, map_nil, nil_append]
  next hne => rw [(folds_conclude kind).append, conclude_answers kind hne]

theorem absorbs_conclude (kind : Connective) :
    Verdict.Absorbs (conclude kind : List (Verdict ε) → _) := by
  cases kind with
  | all => exact absorbs_conjoin
  | any => exact absorbs_disjoin

theorem proper_parts (hproper : ∀ operand ∈ operands, proper operand = true) :
    ∀ part ∈ operands.flatMap kind.parts, proper part = true := by
  rw [forall_mem_flatMap]
  intro operand hop
  rcases kind.parts_cases operand with hself | ⟨inner, rfl, hinner⟩
  · rw [hself]
    exact forall_mem_singleton.mpr (hproper operand hop)
  · rw [hinner]
    exact (proper_apply.mp (hproper _ hop)).2

theorem parts_ne_nil (hne : operands ≠ []) (hproper : ∀ operand ∈ operands, proper operand = true) :
    operands.flatMap kind.parts ≠ [] := by
  obtain ⟨operand, hop⟩ := exists_mem_of_ne_nil _ hne
  intro hnil
  have hparts := flatMap_eq_nil_iff.mp hnil operand hop
  rcases kind.parts_cases operand with hself | ⟨inner, rfl, hinner⟩
  · simp [hself] at hparts
  · exact (proper_apply.mp (hproper _ hop)).1 (hinner.symm.trans hparts)

def isEmptyConjunction : Expression → Bool
  | .conjunction [] => true
  | _ => false

mutual

/-- No operand of a conjunction is a conjunction without operands. That one does not apply, and
the hoister drops it. -/
def hoistable : Expression → Bool
  | .none => true
  | .conjunction operands => operands.all (!isEmptyConjunction ·) && hoistableList operands
  | .disjunction operands => hoistableList operands
  | .negation operand => hoistable operand
  | .predicate _ => true

def hoistableList : List Expression → Bool
  | [] => true
  | operand :: rest => hoistable operand && hoistableList rest

end

theorem hoistable_apply : hoistable (kind.apply operands) = true ↔
      (kind = .all → operands.all (!isEmptyConjunction ·) = true) ∧
      ∀ operand ∈ operands, hoistable operand = true := by
  have hlist := @checkAll_iff hoistable hoistableList rfl (fun _ _ => rfl) operands
  cases kind with
  | all => rw [apply, hoistable, Bool.and_eq_true, hlist, forall_prop_of_true rfl]
  | any => simp [apply, hoistable, hlist]

theorem hoistable_parts (hops : ∀ operand ∈ operands, hoistable operand = true) :
    ∀ part ∈ operands.flatMap kind.parts, hoistable part = true := by
  rw [forall_mem_flatMap]
  intro operand hop
  rcases kind.parts_cases operand with hself | ⟨inner, rfl, hinner⟩
  · rw [hself]
    exact forall_mem_singleton.mpr (hops operand hop)
  · rw [hinner]
    exact (hoistable_apply.mp (hops _ hop)).2

/-- Hoisting keeps what an expression says. -/
theorem reading_hoist (hhoistable : hoistable expression = true) :
    reading verdict (hoist expression) = reading verdict expression := by
  induction expression using induct_parts with
  | none => rfl
  | predicate => rfl
  | negation operand ih => rw [hoist, reading, ih hhoistable, reading]
  | connective kind operands ih =>
    obtain ⟨hempty, hops⟩ := hoistable_apply.mp hhoistable
    have hparts := fun part hpart => ih part hpart (hoistable_parts hops part hpart)
    cases kind with
    | any =>
      refine Eq.trans ?_ (reading_disjunction verdict operands).symm
      exact (folds_conclude .any).hoist hparts (fun _ _ => reading_disjunction ..)
        (reading_disjunction ..)
    | all =>
      by_cases hnil : operands = []
      · rw [hnil]
        rfl
      · have hinner : ∀ inner, .conjunction inner ∈ operands → inner ≠ [] := by
          rintro inner hinner rfl
          cases all_eq_true.mp (hempty rfl) _ hinner
        have hne : operands.flatMap (parts .all) ≠ [] := by
          obtain ⟨operand, hop⟩ := exists_mem_of_ne_nil _ hnil
          intro hparts
          have hpart := flatMap_eq_nil_iff.mp hparts operand hop
          rcases parts_cases .all operand with hself | ⟨inner, rfl, hself⟩
          · simp [hself] at hpart
          · exact hinner inner hop (hself.symm.trans hpart)
        rw [reading_apply _ .all hnil]
        exact (folds_conclude .all).hoist hparts
          (fun inner hmem => reading_apply _ .all (hinner inner hmem))
          (reading_apply _ .all (by simpa using hne))

theorem hoistable_of_proper (hproper : proper expression = true) :
    hoistable expression = true := by
  induction expression with
  | negation operand ih => exact ih hproper
  | connective kind operands ih =>
    have hops := (proper_apply.mp hproper).2
    refine hoistable_apply.mpr ⟨fun _ => all_eq_true.mpr fun operand hop => ?_,
      fun operand hop => ih operand hop (hops operand hop)⟩
    have hoperand := hops operand hop
    unfold isEmptyConjunction
    split
    · cases hoperand
    · rfl
  | _ => rfl

theorem proper_hoist (hproper : proper expression = true) : proper (hoist expression) = true := by
  induction expression using induct_parts with
  | none => exact hproper
  | predicate => rfl
  | negation operand ih => exact ih hproper
  | connective kind operands ih =>
    obtain ⟨hne, hops⟩ := proper_apply.mp hproper
    have hhoisted : ∀ part ∈ (operands.flatMap kind.parts).map hoist, proper part = true :=
      forall_mem_map.mpr fun part hpart =>
        ih part hpart (proper_parts hops part hpart)
    rw [hoist_apply]
    unfold single
    split
    next part hpart => exact hhoisted part (by simp [hpart])
    · exact proper_apply.mpr ⟨by simpa using parts_ne_nil hne hops, hhoisted⟩

end Expression

/-! ## Tailored expressions -/

namespace Evaluate

open Expression hiding none
open TypeResolver

variable [Regex] (slice : TableSlice) (row : List Data)

/-- What a tailored expression says about a row. The nil expression applies to
nothing. -/
def applied : Expression → Option Bool
  | .none => none
  | expression => some (holds slice row expression)

def predicateVerdict (pred : Predicate) : Verdict TailorError :=
  (resolvePredicate slice.schema pred).map (applied slice row)

variable {slice row} {kind : Connective}

theorem applied_of_ne_none {expression : Expression} (hne : expression ≠ .none) :
    applied slice row expression = some (holds slice row expression) := by
  cases expression with
  | none => exact absurd rfl hne
  | _ => rfl

theorem holds_eq_getD_applied (expression : Expression) :
    holds slice row expression = (applied slice row expression).getD false := by
  cases expression <;> rfl

theorem applied_collected {operands : List Expression} (hne : operands ≠ [])
    (hops : ∀ operand ∈ operands, operand ≠ .none) : applied slice row (collected kind operands) =
      some (kind.combine (operands.map (holds slice row))) := by
  match operands with
  | [] => exact absurd rfl hne
  | [operand] =>
    rw [collected, applied_of_ne_none (hops operand (mem_singleton_self _))]
    exact congrArg some ((folds_combine kind).single _).symm
  | first :: second :: rest =>
    have happly : applied slice row (collected kind (first :: second :: rest)) =
        some (holds slice row (kind.apply (first :: second :: rest))) := by
      cases kind <;> rfl
    rw [happly, holds_apply]

theorem map_applied_gather {outcomes : List (Except TailorError Expression)}
    {result : List Expression} (hres : ∀ operand ∈ result, operand ≠ .none)
    (hne : kind = .all → result ≠ [] ∨ outcomes ≠ []) :
    (gather kind outcomes result).map (applied slice row) =
      conclude kind ((result.map (holds slice row)).map (fun answer => .ok (some answer)) ++
        outcomes.map (Except.map (applied slice row))) := by
  induction outcomes generalizing result with
  | nil =>
    by_cases hnil : result = []
    · subst hnil
      cases kind with
      | all => simp at hne
      | any => rfl
    · rw [map_nil, append_nil, gather, Except.map, applied_collected hnil hres,
        conclude_answers kind (by simpa using hnil)]
  | cons outcome rest ih =>
    cases outcome with
    | error error =>
      rw [conclude_answers_append]
      split <;> cases kind <;> rfl
    | ok resolved =>
      by_cases hresolved : resolved = .none
      · subst hresolved
        cases kind with
        | all =>
          rw [conclude_answers_append]
          split <;> rfl
        | any =>
          rw [gather, ih hres nofun, conclude_answers_append, conclude_answers_append]
          rfl
      · rw [gather_of_ne_none hresolved, ih (forall_mem_append.mpr
          ⟨hres, forall_mem_singleton.mpr hresolved⟩) fun _ => Or.inl (by simp)]
        simp [Except.map, applied_of_ne_none hresolved]

/-- Tailoring combines what the predicates say. -/
theorem map_applied_resolve (expression : Expression) :
    (resolve slice.schema expression).map (applied slice row) =
      reading (predicateVerdict slice row) expression := by
  induction expression with
  | none => rfl
  | predicate => rfl
  | negation operand ih =>
    rw [resolve, reading, ← ih]
    split
    next herror => simp [herror, Except.map, negate]
    next hnone => simp [hnone, Except.map, applied]
    next resolved hne hresolve =>
      rw [hresolve, Except.map, Except.map, applied_of_ne_none hne]
      rfl
  | connective kind operands ih =>
    rw [resolve_apply]
    by_cases hnil : operands = []
    · subst hnil
      cases kind <;> rfl
    · rw [map_applied_gather (forall_mem_nil _) fun _ => Or.inr (by simpa using hnil), map_nil,
        map_nil, nil_append, map_map, reading_apply _ kind hnil]
      exact congrArg (conclude kind) (map_congr_left ih)

theorem reading_of_tailor {expression tailored : Expression}
    (htailor : tailor expression slice.schema = .ok tailored) :
    reading (predicateVerdict slice row) expression = .ok (applied slice row tailored) := by
  unfold tailor at htailor
  split at htailor
  · cases htailor
  · rw [← map_applied_resolve, htailor, Except.map]

end Evaluate

end Vast
