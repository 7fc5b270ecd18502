import Vast.Core.Expression
import Vast.Evaluate.Cell

/-! # Visitors of expressions

The hoister flattens nested connectives of the same kind, and the validator
checks that the operands of the predicates fit together.
-/

namespace Vast

open List Connective Expression

namespace Expression

/-! ## Parts of an expression -/

mutual

def predicates : Expression → List Predicate
  | .none => []
  | .conjunction operands => predicatesList operands
  | .disjunction operands => predicatesList operands
  | .negation operand => predicates operand
  | .predicate pred => [pred]

def predicatesList : List Expression → List Predicate
  | [] => []
  | operand :: rest => predicates operand ++ predicatesList rest

end

mutual

def size : Expression → Nat
  | .conjunction operands => sizeList operands + 1
  | .disjunction operands => sizeList operands + 1
  | .negation operand => size operand + 1
  | _ => 1

def sizeList : List Expression → Nat
  | [] => 0
  | operand :: rest => size operand + sizeList rest

end

theorem predicatesList_eq (operands : List Expression) :
    predicatesList operands = operands.flatMap predicates := by
  induction operands with
  | nil => rfl
  | cons operand rest ih => rw [predicatesList, ih, flatMap_cons]

@[simp]
theorem predicates_apply (kind : Connective) (operands : List Expression) :
    predicates (kind.apply operands) = operands.flatMap predicates := by
  cases kind <;> rw [apply, predicates, predicatesList_eq]

theorem size_pos (expression : Expression) : 0 < size expression := by
  cases expression <;> simp [size]

theorem sizeList_eq (operands : List Expression) : sizeList operands = (operands.map size).sum := by
  induction operands with
  | nil => rfl
  | cons operand rest ih => rw [sizeList, ih, map_cons, sum_cons]

theorem size_apply (kind : Connective) (operands : List Expression) :
    size (kind.apply operands) = (operands.map size).sum + 1 := by
  cases kind <;> rw [apply, size, sizeList_eq]

/-! ## Equality -/

end Expression

/-- Literals are compared as values, so that the two zeros are the same and a value that is
not a number is not the same as itself. -/
def Operand.same : Operand → Operand → Bool
  | .data a, .data b => a.same b
  | a, b => a = b

def Predicate.same (first second : Predicate) : Bool :=
  first.lhs.same second.lhs && first.op == second.op && first.rhs.same second.rhs

namespace Expression

mutual

def same : Expression → Expression → Bool
  | .none, .none => true
  | .conjunction as, .conjunction bs => sameList as bs
  | .disjunction as, .disjunction bs => sameList as bs
  | .negation a, .negation b => same a b
  | .predicate a, .predicate b => a.same b
  | _, _ => false

def sameList : List Expression → List Expression → Bool
  | [], [] => true
  | a :: as, b :: bs => same a b && sameList as bs
  | _, _ => false

end

theorem same_apply {kind : Connective} {operands : List Expression} {other : Expression}
    (hsame : same (kind.apply operands) other = true) :
    ∃ others, other = kind.apply others ∧
      Forall₂ (fun first second => same first second = true) operands others := by
  have hlist : ∀ others, sameList operands others = true →
      Forall₂ (fun first second => same first second = true) operands others := by
    clear hsame
    induction operands with
    | nil =>
      intro others hothers
      cases others with
      | nil => exact .nil
      | cons => cases hothers
    | cons operand rest ih =>
      intro others hothers
      cases others with
      | nil => cases hothers
      | cons first others =>
        rw [sameList, Bool.and_eq_true] at hothers
        exact .cons hothers.1 (ih others hothers.2)
  cases kind <;> cases other <;> first | exact ⟨_, rfl, hlist _ hsame⟩ | cases hsame

/-! ## The hoister -/

def single (connective : List Expression → Expression) : List Expression → Expression
  | [operand] => operand
  | operands => connective operands

mutual

def hoist : Expression → Expression
  | .none => .none
  | .conjunction operands => single .conjunction (hoistConjunction operands)
  | .disjunction operands => single .disjunction (hoistDisjunction operands)
  | .negation operand => .negation (hoist operand)
  | .predicate pred => .predicate pred

def hoistConjunction : List Expression → List Expression
  | [] => []
  | .conjunction inner :: rest => hoistList inner ++ hoistConjunction rest
  | operand :: rest => hoist operand :: hoistConjunction rest

def hoistDisjunction : List Expression → List Expression
  | [] => []
  | .disjunction inner :: rest => hoistList inner ++ hoistDisjunction rest
  | operand :: rest => hoist operand :: hoistDisjunction rest

def hoistList : List Expression → List Expression
  | [] => []
  | operand :: rest => hoist operand :: hoistList rest

end

theorem hoistList_eq (operands : List Expression) : hoistList operands = operands.map hoist := by
  induction operands with
  | nil => rfl
  | cons operand rest ih => rw [hoistList, ih, map_cons]

theorem hoist_apply (kind : Connective) (operands : List Expression) : hoist (kind.apply operands) =
      single kind.apply ((operands.flatMap kind.parts).map hoist) := by
  cases kind with
  | all =>
    rw [apply, hoist]
    congr 1
    induction operands with
    | nil => rfl
    | cons operand rest ih =>
      cases operand <;>
        simp [hoistConjunction, ih, hoistList_eq, parts]
  | any =>
    rw [apply, hoist]
    congr 1
    induction operands with
    | nil => rfl
    | cons operand rest ih =>
      cases operand <;>
        simp [hoistDisjunction, ih, hoistList_eq, parts]

/-- A way to combine what operands say that does not depend on how they are grouped. -/
structure Folds {β : Type} (combine : List β → β) : Prop where
  single : ∀ said, combine [said] = said
  append : ∀ first second, combine (first ++ second) = combine [combine first, combine second]

namespace Folds

variable {β : Type} {combine : List β → β} {f : Expression → β} {operands : List Expression}
  {kind : Connective}

theorem apply_single (hfolds : Folds combine) {connective : List Expression → Expression}
    (hconnective : f (connective operands) = combine (operands.map f)) :
    f (Expression.single connective operands) = combine (operands.map f) := by
  unfold Expression.single
  split
  · exact (hfolds.single _).symm
  · exact hconnective

theorem parts (hfolds : Folds combine)
    (hnested : ∀ inner, kind.apply inner ∈ operands →
      f (kind.apply inner) = combine (inner.map f)) :
    combine ((operands.flatMap kind.parts).map f) = combine (operands.map f) := by
  induction operands with
  | nil => rfl
  | cons operand rest ih =>
    have hop : combine ((kind.parts operand).map f) = f operand := by
      rcases kind.parts_cases operand with hself | ⟨inner, rfl, hinner⟩
      · rw [hself]
        exact hfolds.single _
      · rw [hinner, hnested inner mem_cons_self]
    have hcons := hfolds.append [f operand] (rest.map f)
    rw [hfolds.single] at hcons
    rw [flatMap_cons, map_append, hfolds.append, hop,
      ih fun inner hinner => hnested inner (mem_cons_of_mem _ hinner), ← hcons]
    rfl

theorem hoist (hfolds : Folds combine)
    (hkept : ∀ part ∈ operands.flatMap kind.parts, f (hoist part) = f part)
    (hnested : ∀ inner, kind.apply inner ∈ operands → f (kind.apply inner) = combine (inner.map f))
    (hconnective : f (kind.apply ((operands.flatMap kind.parts).map hoist)) =
      combine (((operands.flatMap kind.parts).map hoist).map f)) :
    f (hoist (kind.apply operands)) = combine (operands.map f) := by
  rw [hoist_apply, hfolds.apply_single hconnective, ← hfolds.parts hnested, map_map]
  exact congrArg combine (map_congr_left hkept)

end Folds

theorem folds_combine (kind : Connective) : Folds kind.combine := by
  cases kind <;> exact ⟨by simp [combine], by simp [combine]⟩

theorem folds_flatten (α : Type) : Folds (flatten : List (List α) → List α) :=
  ⟨by simp, by simp⟩

theorem predicates_single (kind : Connective) (operands : List Expression) :
    predicates (single kind.apply operands) = operands.flatMap predicates :=
  (folds_flatten _).apply_single (predicates_apply ..)

/-! ## The validator -/

structure SyntaxError where
  message : String
  operands : List Operand
  deriving DecidableEq

def isOrdering (op : RelationalOperator) : Bool :=
  op == .less || op == .lessEqual || op == .greater || op == .greaterEqual

def validateOperands (lhs : Operand) (op : RelationalOperator) (rhs : Operand) :
    Except SyntaxError Unit :=
  match lhs, rhs with
  | .metaExtractor .type, .data value =>
    if value.isString || value.isPattern then .ok ()
    else .error ⟨"type meta extractor requires string or pattern operand", [lhs, rhs]⟩
  | .metaExtractor .importTime, .data value =>
    if value.isTime && isOrdering op then .ok ()
    else .error ⟨"import_time attribute extractor only supports time comparisons #import_time",
      [lhs, rhs]⟩
  | .typeExtractor type, .data value =>
    -- Aliases are only known to the type resolver.
    if !type.hasValue || compatible type op value then .ok ()
    else .error ⟨"type extractor type check failure", [lhs, rhs]⟩
  | .fieldExtractor _, .data _ => .ok ()
  | _, _ => .error ⟨"incompatible predicate operands", [lhs, rhs]⟩

section Validator

variable [Regex]

def validatePredicate (pred : Predicate) : Except SyntaxError Unit :=
  match pred.rhs with
  | .data (.basic (.pattern text)) =>
    if Regex.valid text then validateOperands pred.lhs pred.op pred.rhs
    else .error ⟨"failed to create regular expression from pattern", [pred.rhs]⟩
  | _ => validateOperands pred.lhs pred.op pred.rhs

mutual

def validate : Expression → Except SyntaxError Unit
  | .none => .error ⟨"nil expression is invalid", []⟩
  | .conjunction operands => validateList operands
  | .disjunction operands => validateList operands
  | .negation operand => validate operand
  | .predicate pred => validatePredicate pred

def validateList : List Expression → Except SyntaxError Unit
  | [] => .ok ()
  | operand :: rest =>
    match validate operand with
    | .error error => .error error
    | .ok () => validateList rest

end

theorem validate_apply (kind : Connective) (operands : List Expression) :
    validate (kind.apply operands) = .ok () ↔ ∀ operand ∈ operands, validate operand = .ok () := by
  have hlist : validate (kind.apply operands) = validateList operands := by
    cases kind <;> rw [apply, validate]
  rw [hlist]
  clear hlist
  induction operands with
  | nil => simp [validateList]
  | cons operand rest ih =>
    rw [validateList]
    split
    next herror => simp [herror]
    next hop => simpa [hop] using ih

variable {expression : Expression}

theorem validatePredicate_of_mem (hvalid : validate expression = .ok ()) :
    ∀ pred ∈ predicates expression, validatePredicate pred = .ok () := by
  induction expression with
  | none => simp [predicates]
  | negation operand ih => exact ih hvalid
  | predicate pred =>
    rw [validate] at hvalid
    simpa [predicates] using hvalid
  | connective kind operands ih =>
    rw [validate_apply] at hvalid
    rw [predicates_apply, forall_mem_flatMap]
    exact fun operand hop => ih operand hop (hvalid operand hop)

theorem validateOperands_of_validatePredicate {pred : Predicate}
    (hvalid : validatePredicate pred = .ok ()) :
    validateOperands pred.lhs pred.op pred.rhs = .ok () := by
  unfold validatePredicate at hvalid
  split at hvalid
  · split at hvalid
    · exact hvalid
    · cases hvalid
  · exact hvalid

end Validator

/-! ## The loose reading

The catalog decides with incomplete knowledge. It reads an expression loosely: a
negation may always match. -/

section Loosely

variable (may : Predicate → Bool)

mutual

/-- Whether an expression may match, when it is known which predicates may. -/
def loosely : Expression → Bool
  | .none => true
  | .conjunction operands => looselyAll operands
  | .disjunction operands => looselyAny operands
  | .negation _ => true
  | .predicate pred => may pred

def looselyAll : List Expression → Bool
  | [] => true
  | operand :: rest => loosely operand && looselyAll rest

def looselyAny : List Expression → Bool
  | [] => false
  | operand :: rest => loosely operand || looselyAny rest

end

mutual

/-- The predicates that the loose reading asks about. -/
def asked : Expression → List Predicate
  | .none => []
  | .conjunction operands => askedList operands
  | .disjunction operands => askedList operands
  | .negation _ => []
  | .predicate pred => [pred]

def askedList : List Expression → List Predicate
  | [] => []
  | operand :: rest => asked operand ++ askedList rest

end

theorem asked_apply (kind : Connective) (operands : List Expression) :
    asked (kind.apply operands) = operands.flatMap asked := by
  have hlist : askedList operands = operands.flatMap asked := by
    induction operands with
    | nil => rfl
    | cons operand rest ih => rw [askedList, ih, flatMap_cons]
  cases kind <;> rw [apply, asked, hlist]

theorem asked_subset (expression : Expression) : asked expression ⊆ predicates expression := by
  induction expression with
  | connective kind operands ih =>
    rw [asked_apply, predicates_apply]
    intro pred hpred
    obtain ⟨operand, hop, hmem⟩ := mem_flatMap.mp hpred
    exact mem_flatMap_of_mem hop (ih operand hop hmem)
  | negation => exact nil_subset _
  | _ => exact Subset.refl _

theorem loosely_conjunction (operands : List Expression) :
    loosely may (.conjunction operands) = operands.all (loosely may) := by
  rw [loosely]
  induction operands with
  | nil => rfl
  | cons operand rest ih => rw [looselyAll, ih, all_cons]

theorem loosely_disjunction (operands : List Expression) :
    loosely may (.disjunction operands) = operands.any (loosely may) := by
  rw [loosely]
  induction operands with
  | nil => rfl
  | cons operand rest ih => rw [looselyAny, ih, any_cons]

theorem loosely_apply (kind : Connective) (operands : List Expression) :
    loosely may (kind.apply operands) = kind.combine (operands.map (loosely may)) := by
  cases kind with
  | all => simp [apply, combine, loosely_conjunction]
  | any => simp [apply, combine, loosely_disjunction]

variable {may} {may' : Predicate → Bool}

theorem loosely_mono (hmono : ∀ pred ∈ asked expression, may pred = true → may' pred = true)
    (hmay : loosely may expression = true) : loosely may' expression = true := by
  induction expression with
  | none => rfl
  | negation => rfl
  | predicate pred => exact hmono pred (by simp [asked]) hmay
  | connective kind operands ih =>
    rw [asked_apply, forall_mem_flatMap] at hmono
    have hops : ∀ operand ∈ operands, loosely may operand = true →
        loosely may' operand = true := fun operand hop =>
      ih operand hop (hmono operand hop)
    cases kind with
    | all =>
      rw [apply, loosely_conjunction, all_eq_true] at hmay ⊢
      exact fun operand hop => hops operand hop (hmay operand hop)
    | any =>
      rw [apply, loosely_disjunction, any_eq_true] at hmay ⊢
      obtain ⟨operand, hop, hmay⟩ := hmay
      exact ⟨operand, hop, hops operand hop hmay⟩

end Loosely

/-! ## What hoisting preserves -/

theorem loosely_hoist (may : Predicate → Bool) (expression : Expression) :
    loosely may (hoist expression) = loosely may expression := by
  induction expression using induct_parts with
  | connective kind operands ih =>
    rw [loosely_apply]
    exact (folds_combine kind).hoist ih (fun _ _ => loosely_apply ..) (loosely_apply ..)
  | _ => rfl

theorem predicates_hoist (expression : Expression) :
    predicates (hoist expression) = predicates expression := by
  induction expression using induct_parts with
  | connective kind operands ih =>
    rw [predicates_apply]
    exact (folds_flatten _).hoist ih (fun _ _ => predicates_apply ..) (predicates_apply ..)
  | negation operand ih => rw [hoist, predicates, ih, predicates]
  | _ => rfl

/-- A visitor has left the operands as they were or made them smaller. -/
def Shrunk (operands origins : List Expression) : Prop :=
  operands = origins ∨ (operands.map size).sum < (origins.map size).sum

namespace Shrunk

variable {first second origins others : List Expression} {operand origin : Expression}

theorem trans (hfirst : Shrunk first second) (hsecond : Shrunk second origins) :
    Shrunk first origins := by
  rcases hfirst with rfl | hfirst
  · exact hsecond
  · rcases hsecond with rfl | hsecond
    · exact Or.inr hfirst
    · exact Or.inr (hfirst.trans hsecond)

theorem append (hfirst : Shrunk first origins) (hsecond : Shrunk second others) :
    Shrunk (first ++ second) (origins ++ others) := by
  simp only [Shrunk, map_append, sum_append]
  rcases hfirst with rfl | hfirst <;> rcases hsecond with rfl | hsecond
  · exact Or.inl rfl
  all_goals exact Or.inr (by omega)

theorem negation (hshrunk : Shrunk [operand] [origin]) :
    Shrunk [.negation operand] [.negation origin] :=
  hshrunk.imp (by simp) (by simp [size])

theorem apply (hshrunk : Shrunk first origins) (kind : Connective) :
    Shrunk [kind.apply first] [kind.apply origins] :=
  hshrunk.imp (fun heq => by rw [heq]) (by simp [size_apply])

theorem map {f : Expression → Expression}
    (hshrunk : ∀ origin ∈ origins, Shrunk [f origin] [origin]) :
    Shrunk (origins.map f) origins := by
  induction origins with
  | nil => exact Or.inl rfl
  | cons origin rest ih =>
    rw [forall_mem_cons] at hshrunk
    exact hshrunk.1.append (ih hshrunk.2)

end Shrunk

theorem shrunk_flatMap_parts (kind : Connective) (operands : List Expression) :
    Shrunk (operands.flatMap kind.parts) operands := by
  induction operands with
  | nil => exact Or.inl rfl
  | cons operand rest ih =>
    have hparts : Shrunk (kind.parts operand) [operand] := by
      rcases kind.parts_cases operand with hself | ⟨inner, rfl, hinner⟩
      · exact Or.inl hself
      · right
        simp [hinner, size_apply]
    exact hparts.append ih

theorem shrunk_hoist (expression : Expression) : Shrunk [hoist expression] [expression] := by
  induction expression using induct_parts with
  | none | predicate => exact Or.inl rfl
  | negation operand ih => exact ih.negation
  | connective kind operands ih =>
    have hsingle (operands : List Expression) :
        Shrunk [single kind.apply operands] [kind.apply operands] := by
      unfold single
      split
      · right
        simp [size_apply]
      · exact Or.inl rfl
    have hmap := (Shrunk.map ih).trans (shrunk_flatMap_parts kind operands)
    rw [hoist_apply]
    exact (hsingle _).trans (hmap.apply kind)

end Expression

end Vast
