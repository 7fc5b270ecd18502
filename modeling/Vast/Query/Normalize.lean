import Vast.Query.Reading

/-! # Normalization

An expression is hoisted, its literals are moved to the right-hand side,
negations are pushed down to the operators, repeated operands are removed, and
the result is hoisted again.
-/

namespace Vast

open Foundation List Verdict Connective

namespace Predicate

/-- Move the extractor to the left-hand side. -/
def align (pred : Predicate) : Predicate :=
  match pred.lhs, pred.rhs with
  | .data _, .data _ => pred
  | .data _, _ => ⟨pred.rhs, pred.op.flip, pred.lhs⟩
  | _, _ => pred

def negate (pred : Predicate) : Predicate :=
  { pred with op := pred.op.negate }

end Predicate

namespace Connective

/-- The connective that is left when a negation is pushed down. -/
def denegate : Bool → Connective → Connective
  | false, kind => kind
  | true, .all => .any
  | true, .any => .all

end Connective

namespace Expression

mutual

def align : Expression → Expression
  | .none => .none
  | .conjunction operands => .conjunction (alignList operands)
  | .disjunction operands => .disjunction (alignList operands)
  | .negation operand => .negation (align operand)
  | .predicate pred => .predicate pred.align

def alignList : List Expression → List Expression
  | [] => []
  | operand :: rest => align operand :: alignList rest

end

mutual

/-- Push negations down. The flag tells whether there is one to push. -/
def denegate (negated : Bool) : Expression → Expression
  | .none => .none
  | .conjunction operands =>
    if negated then .disjunction (denegateList negated operands)
    else .conjunction (denegateList negated operands)
  | .disjunction operands =>
    if negated then .conjunction (denegateList negated operands)
    else .disjunction (denegateList negated operands)
  | .negation (.negation operand) => denegate negated operand
  | .negation operand => denegate (!negated) operand
  | .predicate pred => .predicate (if negated then pred.negate else pred)

def denegateList (negated : Bool) : List Expression → List Expression
  | [] => []
  | operand :: rest => denegate negated operand :: denegateList negated rest

end

mutual

/-- Remove repeated operands. Negations are gone at this point; one that is met
would be dropped. -/
def deduplicate : Expression → Expression
  | .none => .none
  | .conjunction operands => .conjunction (deduplicateList operands [])
  | .disjunction operands => .disjunction (deduplicateList operands [])
  | .negation operand => deduplicate operand
  | .predicate pred => .predicate pred

/-- The operands that are left, after the result so far. -/
def deduplicateList : List Expression → List Expression → List Expression
  | [], result => result
  | operand :: rest, result =>
    let visited := deduplicate operand
    deduplicateList rest
      (if result.any (·.same visited) then result else result ++ [visited])

end

def normalize (expression : Expression) : Expression :=
  hoist (deduplicate (denegate false (align (hoist expression))))

theorem align_apply (kind : Connective) (operands : List Expression) :
    align (kind.apply operands) = kind.apply (operands.map align) := by
  have hlist : alignList operands = operands.map align := by
    induction operands with
    | nil => rfl
    | cons operand rest ih => rw [alignList, ih, map_cons]
  cases kind <;> rw [apply, align, hlist]

theorem denegate_apply (negated : Bool) (kind : Connective) (operands : List Expression) :
    denegate negated (kind.apply operands) =
      (kind.denegate negated).apply (operands.map (denegate negated)) := by
  have hlist : denegateList negated operands = operands.map (denegate negated) := by
    induction operands with
    | nil => rfl
    | cons operand rest ih => rw [denegateList, ih, map_cons]
  cases kind <;> cases negated <;> simp [Connective.apply, Connective.denegate, denegate, hlist]

theorem deduplicate_apply (kind : Connective) (operands : List Expression) :
    deduplicate (kind.apply operands) = kind.apply (deduplicateList operands []) := by
  cases kind <;> rw [apply, deduplicate]

/-! ## Alignment -/

section Reading

variable {ε : Type} {verdict : Predicate → Verdict ε} {expression : Expression}
  {verdicts : List (Verdict ε)} {operands result : List Expression}

theorem reading_align (expression : Expression) : reading verdict (align expression) =
      reading (fun pred => verdict pred.align) expression := by
  induction expression with
  | negation operand ih => rw [align, reading, ih, reading]
  | connective kind operands ih =>
    rw [align_apply]
    apply reading_apply_congr
    rw [map_map]
    exact map_congr_left ih
  | _ => rfl

/-! ## Negations -/

/-- Stepping through a double negation is the same as pushing twice. -/
theorem denegate_negation : ∀ (negated : Bool) (operand : Expression),
    denegate negated (.negation operand) = denegate (!negated) operand
  | negated, .negation inner => by
    rw [denegate, denegate_negation (!negated) inner, Bool.not_not]
  | _, .none => rfl
  | _, .conjunction _ => rfl
  | _, .disjunction _ => rfl
  | _, .predicate _ => rfl

theorem negationFree_denegate (negated : Bool) (expression : Expression) :
    (denegate negated expression).negationFree = true := by
  induction expression generalizing negated with
  | none | predicate => rfl
  | negation operand ih =>
    rw [denegate_negation]
    exact ih (!negated)
  | connective kind operands ih =>
    rw [denegate_apply, negationFree_apply, forall_mem_map]
    exact fun operand hop => ih operand hop negated

mutual

/-- What holds where negations are pushed: into the operators of predicates, and by De Morgan's
laws into connectives. The flag tells whether there is one to push. -/
def Pushes (invertible : Predicate → Prop) (uniform : List Expression → Prop) :
    Bool → Expression → Prop
  | _, .none => True
  | negated, .conjunction operands =>
    (negated = true → uniform operands) ∧ PushesList invertible uniform negated operands
  | negated, .disjunction operands =>
    (negated = true → uniform operands) ∧ PushesList invertible uniform negated operands
  | negated, .negation operand => Pushes invertible uniform (!negated) operand
  | negated, .predicate pred => negated = true → invertible pred

def PushesList (invertible : Predicate → Prop) (uniform : List Expression → Prop) :
    Bool → List Expression → Prop
  | _, [] => True
  | negated, operand :: rest =>
    Pushes invertible uniform negated operand ∧ PushesList invertible uniform negated rest

end

theorem pushes_apply {invertible : Predicate → Prop} {uniform : List Expression → Prop}
    {negated : Bool} {kind : Connective} : Pushes invertible uniform negated (kind.apply operands) ↔
      (negated = true → uniform operands) ∧
        ∀ operand ∈ operands, Pushes invertible uniform negated operand := by
  have hlist : PushesList invertible uniform negated operands ↔
      ∀ operand ∈ operands, Pushes invertible uniform negated operand := by
    induction operands with
    | nil => simp [PushesList]
    | cons operand rest ih => rw [PushesList, ih, forall_mem_cons]
  cases kind <;> rw [apply, Pushes, hlist]

theorem exists_answers (hverdicts : ∀ said ∈ verdicts, ∃ holds, said = .ok (some holds)) :
    ∃ answers : List Bool, verdicts = answers.map fun answer => .ok (some answer) := by
  induction verdicts with
  | nil => exact ⟨[], rfl⟩
  | cons said rest ih =>
    obtain ⟨⟨first, rfl⟩, hrest⟩ := forall_mem_cons.mp hverdicts
    obtain ⟨answers, rfl⟩ := ih hrest
    exact ⟨first :: answers, rfl⟩

theorem deMorgan (kind : Connective) (hne : verdicts ≠ [])
    (hverdicts : ∀ said ∈ verdicts, ∃ holds, said = .ok (some holds)) :
    conclude (kind.denegate true) (verdicts.map negate) =
      (conclude kind verdicts).negate := by
  obtain ⟨answers, rfl⟩ := exists_answers hverdicts
  rw [ne_eq, map_eq_nil_iff] at hne
  have hnegate : (answers.map fun answer => (.ok (some answer) : Verdict ε)).map negate =
      (answers.map (!·)).map fun answer => .ok (some answer) := by
    rw [map_map, map_map]
    rfl
  rw [hnegate, conclude_answers kind hne, conclude_answers _ (by simpa using hne), negate_ok]
  cases kind <;> simp [Connective.denegate, Connective.combine, not_all_eq_any_not,
    not_any_eq_all_not]

theorem conclude_none (kind : Connective) (hne : verdicts ≠ [])
    (hnone : ∀ said ∈ verdicts, said = .ok Option.none) :
    conclude kind verdicts = .ok Option.none := by
  obtain ⟨count, hcount⟩ : ∃ count, verdicts = replicate (count + 1) (.ok Option.none) :=
    ⟨verdicts.length - 1, eq_replicate_iff.mpr ⟨by
      have hpos := length_pos_iff.mpr hne
      omega, hnone⟩⟩
  rw [hcount]
  cases kind with
  | all => rfl
  | any =>
    clear hcount hne
    induction count with
    | zero => rfl
    | succ count ih => exact ih

/-- All of the operands apply, or none of them. -/
def SayAlike (verdict : Predicate → Verdict ε) (operands : List Expression) : Prop :=
  (∀ operand ∈ operands, ∃ holds, reading verdict operand = .ok (some holds)) ∨
    ∀ operand ∈ operands, reading verdict operand = .ok Option.none

/-- Pushing a negation down negates what an expression says. -/
theorem reading_denegate {invertible : Predicate → Prop} {uniform : List Expression → Prop}
    (hinvert : ∀ pred, invertible pred → verdict pred.negate = (verdict pred).negate)
    (huniform : ∀ operands, uniform operands → SayAlike verdict operands) (negated : Bool)
    (hpushes : Pushes invertible uniform negated expression) :
    reading verdict (denegate negated expression) =
      if negated then (reading verdict expression).negate else reading verdict expression := by
  induction expression generalizing negated with
  | none => cases negated <;> rfl
  | predicate pred =>
    cases negated with
    | false => rfl
    | true => exact hinvert pred (hpushes rfl)
  | negation operand ih =>
    rw [denegate_negation, ih (!negated) hpushes, reading, negate_negate]
    cases negated <;> rfl
  | connective kind operands ih =>
    obtain ⟨hpushed, hops⟩ := pushes_apply.mp hpushes
    have hop := fun operand hop => ih operand hop negated (hops operand hop)
    rw [denegate_apply]
    cases negated with
    | false =>
      refine reading_apply_congr kind ?_
      rw [map_map]
      exact map_congr_left hop
    | true =>
      by_cases hne : operands = []
      · rw [hne]
        cases kind <;> rfl
      rw [reading_apply _ _ (by simpa using hne), reading_apply _ kind hne, map_map, if_pos rfl]
      have hmap : operands.map (reading verdict ∘ denegate true) =
          (operands.map (reading verdict)).map negate := by
        rw [map_map]
        exact map_congr_left hop
      rw [hmap]
      rcases huniform operands (hpushed rfl) with happly | hnone
      · exact deMorgan kind (by simpa using hne) (forall_mem_map.mpr happly)
      · rw [conclude_none kind (by simpa using hne) (forall_mem_map.mpr hnone),
          conclude_none _ (by simpa using hne)]
        · rfl
        · rw [map_map, forall_mem_map]
          intro operand hop
          rw [Function.comp_apply, hnone operand hop]
          rfl

/-! ## Repeated operands -/

theorem deduplicateList_ne_nil (hne : operands ≠ [] ∨ result ≠ []) :
    deduplicateList operands result ≠ [] := by
  induction operands generalizing result with
  | nil =>
    exact hne.resolve_left (by simp)
  | cons operand rest ih =>
    apply ih
    right
    split
    next hany =>
      obtain ⟨seen, hmem, -⟩ := any_eq_true.mp hany
      exact ne_nil_of_mem hmem
    · simp

theorem forall_mem_deduplicateList {good : Expression → Prop}
    (hops : ∀ operand ∈ operands, good (deduplicate operand))
    (hres : ∀ operand ∈ result, good operand) :
    ∀ operand ∈ deduplicateList operands result, good operand := by
  induction operands generalizing result with
  | nil => rwa [deduplicateList]
  | cons operand rest ih =>
    rw [forall_mem_cons] at hops
    apply ih hops.2
    split
    · exact hres
    · exact forall_mem_append.mpr ⟨hres, forall_mem_singleton.mpr hops.1⟩

theorem predicates_deduplicate (expression : Expression) :
    ∀ pred ∈ predicates (deduplicate expression), pred ∈ predicates expression := by
  induction expression with
  | negation operand ih => exact ih
  | connective kind operands ih =>
    rw [deduplicate_apply, predicates_apply, predicates_apply, forall_mem_flatMap]
    refine forall_mem_deduplicateList (fun operand hop pred hpred => ?_) (forall_mem_nil _)
    exact mem_flatMap_of_mem hop (ih operand hop pred hpred)
  | _ => exact fun _ => id

/-- Predicates that are the same say the same. -/
def Respects (verdict : Predicate → Verdict ε) (among : Predicate → Prop) : Prop :=
  ∀ first second, among first → among second → first.same second = true →
    verdict first = verdict second

section Same

variable {among : Predicate → Prop} (hrespects : Respects verdict among)

include hrespects

theorem reading_same {first second : Expression} (hsame : first.same second = true)
    (hfirst : ∀ pred ∈ predicates first, among pred)
    (hsecond : ∀ pred ∈ predicates second, among pred) :
    reading verdict first = reading verdict second := by
  induction first generalizing second with
  | none => cases second <;> first | rfl | cases hsame
  | predicate pred =>
    cases second with
    | predicate other =>
      exact hrespects pred other (hfirst pred (mem_singleton_self _))
        (hsecond other (mem_singleton_self _)) hsame
    | _ => cases hsame
  | negation operand ih =>
    cases second with
    | negation other => rw [reading, ih hsame hfirst hsecond, reading]
    | _ => cases hsame
  | connective kind operands ih =>
    obtain ⟨others, rfl, hothers⟩ := same_apply hsame
    rw [predicates_apply, forall_mem_flatMap] at hfirst hsecond
    apply reading_apply_congr
    clear hsame
    induction hothers with
    | nil => rfl
    | cons hop _ ihrest =>
      rw [forall_mem_cons] at ih hfirst hsecond
      rw [map_cons, map_cons, ih.1 hop hfirst.1 hsecond.1,
        ihrest ih.2 hfirst.2 hsecond.2]

theorem combine_deduplicateList {combine : List (Verdict ε) → Verdict ε}
    (habsorbs : Verdict.Absorbs combine)
    (hops : ∀ operand ∈ operands, reading verdict (deduplicate operand) = reading verdict operand)
    (hamong : ∀ operand ∈ operands, ∀ pred ∈ predicates operand, among pred)
    (hres : ∀ operand ∈ result, ∀ pred ∈ predicates operand, among pred) :
    combine ((deduplicateList operands result).map (reading verdict)) =
      combine (result.map (reading verdict) ++ operands.map (reading verdict)) := by
  induction operands generalizing result with
  | nil => simp [deduplicateList]
  | cons operand rest ih =>
    rw [forall_mem_cons] at hops hamong
    have hvisited : ∀ pred ∈ predicates (deduplicate operand), among pred :=
      fun pred hpred => hamong.1 pred (predicates_deduplicate operand pred hpred)
    rw [deduplicateList, map_cons, ← hops.1]
    split
    next hany =>
      obtain ⟨seen, hseen, hsame⟩ := any_eq_true.mp hany
      rw [ih hops.2 hamong.2 hres,
        ← reading_same hrespects hsame (hres seen hseen) hvisited]
      exact (habsorbs.skip (mem_map_of_mem hseen) _).symm
    · rw [ih hops.2 hamong.2 (forall_mem_append.mpr
        ⟨hres, forall_mem_singleton.mpr hvisited⟩), map_append, append_assoc]
      rfl

/-- Removing repeated operands keeps what an expression without negations says. -/
theorem reading_deduplicate (hfree : expression.negationFree = true)
    (hamong : ∀ pred ∈ predicates expression, among pred) :
    reading verdict (deduplicate expression) = reading verdict expression := by
  induction expression with
  | none => rfl
  | predicate => rfl
  | negation => cases hfree
  | connective kind operands ih =>
    rw [negationFree_apply] at hfree
    rw [predicates_apply, forall_mem_flatMap] at hamong
    rw [deduplicate_apply]
    by_cases hne : operands = []
    · rw [hne, deduplicateList]
    · rw [reading_apply _ kind (deduplicateList_ne_nil (Or.inl hne)), reading_apply _ kind hne]
      exact combine_deduplicateList hrespects (absorbs_conclude kind) (fun operand hop =>
        ih operand hop (hfree operand hop) (hamong operand hop)) hamong (forall_mem_nil _)

end Same

end Reading

end Expression

end Vast
