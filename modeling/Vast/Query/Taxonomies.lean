import Vast.Core.KeySuffix
import Vast.Foundation.AssocList
import Vast.Query.Visitors

/-! # Taxonomies

A concept is a name for several fields. A model is a tuple of concepts and of
other models, and is compared with a record. Predicates on concepts and models
are substituted by predicates on the fields that a schema has.
-/

namespace Vast

open List Connective
open Expression hiding none
open Foundation RecordType

/-- The definition of a concept: fields, and other concepts whose fields are also
considered. -/
structure Concept where
  fields : List String
  concepts : List String

/-- The definition of a model: concepts and models in order. -/
structure Model where
  definition : List String

structure Taxonomies where
  concepts : List (String × Concept)
  models : List (String × Model)

inductive ResolveError where
  /-- The record does not have as many values as the model has leaves. -/
  | invalidQuery (record : List (String × Data)) (model : String)
  /-- The leaves of the model are not all found within the steps that are given. -/
  | diverges
  deriving DecidableEq

namespace Taxonomies

/-! ## Concepts -/

def insertNames (set names : List String) : List String :=
  names.foldl (fun set name => if name ∈ set then set else set ++ [name]) set

/-- The referenced concepts and the fields that are collected from definitions. -/
structure Collected where
  log : List String
  targetFields : List String

def loadDefinition (collected : Collected) (definition : Concept) : Collected where
  log := insertNames collected.log definition.concepts
  targetFields := insertNames collected.targetFields definition.fields

/-- The fields of a concept. The concepts that are referenced by the definition are
loaded, but not what these reference in turn: the loop ends where the log ended
before it. -/
def targetFields (taxonomies : Taxonomies) (definition : Concept) : List String :=
  let first := loadDefinition ⟨[], []⟩ definition
  (first.log.foldl (fun collected current =>
    match taxonomies.concepts.lookup current with
    | some reference => loadDefinition collected reference
    | none => collected) first).targetFields

section Resolve

variable (steps : Nat) (taxonomies : Taxonomies) (seen : List (String × List VastType))
  (prune : Bool)

/-- Whether a type has a field with the key that can be compared with the literal. -/
def hasField (key : List Char) (op : RelationalOperator) (value : Data) (type : VastType) : Bool :=
  match resolveKey 0 key type.fields with
  | some offset => compatible (fieldType type.fields offset) op value
  | none => false

/-- Whether one of the types has the field. The part of the name before a dot is
the name of the types; the first part that is one counts. -/
def contains (op : RelationalOperator) (value : Data) (before : List Char) : List Char → Bool
  | [] => false
  | char :: rest =>
    if char = '.' then
      match seen.lookup (String.ofList before) with
      | some types => types.any (hasField rest op value)
      | none => contains op value (before ++ [char]) rest
    else contains op value (before ++ [char]) rest

/-- How the predicate on a field is made from an operator and a literal. -/
abbrev MakePredicate := RelationalOperator → Data → String → Predicate

variable (pred : Predicate)

/-- A predicate on a concept becomes a disjunction over its fields. Other
predicates stay as they are. -/
def resolveConcepts (name : String) (op : RelationalOperator) (value : Data)
    (make : MakePredicate) : Expression :=
  match taxonomies.concepts.lookup name with
  | none => .predicate pred
  | some definition =>
    let targets := (taxonomies.targetFields definition).filter fun field =>
      !prune || contains seen op value [] field.toList
    match targets.map fun field => Expression.predicate (make op value field) with
    | [] => .predicate pred
    | [single] => single
    | operands => .disjunction operands

/-! ## Models -/

/-- Move to the next component. A level that is used up is left. -/
def advance : List (List String) → List (List String)
  | [] => []
  | (_ :: next :: rest) :: levels => (next :: rest) :: levels
  | _ :: levels => advance levels

/-- The leaves that a number of steps finds, and whether these are all. The levels
are what is left of the definitions, innermost first. Models are entered; empty
models ought to be rejected when they are loaded, and have no leaves here. -/
def modelLeaves : Nat → List (List String) → List String × Bool
  | _, [] => ([], true)
  | 0, _ => ([], false)
  | steps + 1, [] :: levels => modelLeaves steps (advance levels)
  | steps + 1, (name :: rest) :: levels =>
    match taxonomies.models.lookup name with
    | some model => modelLeaves steps (model.definition :: (name :: rest) :: levels)
    | none =>
      let found := modelLeaves steps (advance ((name :: rest) :: levels))
      (name :: found.1, found.2)

/-- The value that restricts each leaf, if any: by name when the first value of the
record has a name, and otherwise in order. -/
def restrictions (model : String) (record : List (String × Data)) (leaves : List String × Bool) :
    Except ResolveError (List (String × Option Data)) :=
  if record.head?.any fun entry => entry.1 ≠ "" then
    if leaves.2 then .ok (leaves.1.map fun leaf => (leaf, record.lookup leaf))
    else .error .diverges
  else if record.length < leaves.1.length then .error (.invalidQuery record model)
  else if !leaves.2 then .error .diverges
  else if leaves.1.length < record.length then .error (.invalidQuery record model)
  else .ok (leaves.1.zip (record.map fun entry =>
    if entry.2 = .none then none else some entry.2))

def existencePredicate : MakePredicate :=
  fun _ _ field => ⟨.fieldExtractor field, .notEqual, .data .none⟩

/-- The conjunction of the leaves without a value. -/
def unrestricted (leaves : List (String × Option Data)) : List Expression :=
  leaves.filterMap fun leaf =>
    match leaf.2 with
    | some _ => none
    | none =>
      some (taxonomies.resolveConcepts seen prune pred leaf.1 .equal .none existencePredicate)

def restricted (op : RelationalOperator) (make : MakePredicate)
    (leaves : List (String × Option Data)) : List Expression :=
  leaves.filterMap fun leaf =>
    leaf.2.map fun value => taxonomies.resolveConcepts seen prune pred leaf.1 op value make

/-- A negated operator negates the conjunction of the leaves with a value. -/
def combineLeaves (op : RelationalOperator) (unrestricted : List Expression) :
    List Expression → Expression
  | [] => .conjunction unrestricted
  | restricted =>
    let conjunction := single .conjunction restricted
    let expression := if op.isNegated then .negation conjunction else conjunction
    if unrestricted.isEmpty then expression else .conjunction (unrestricted ++ [expression])

/-- A predicate on a model becomes a conjunction over its leaves. -/
def resolveModels (name : String) (op : RelationalOperator) (value : Data)
    (make : MakePredicate) : Except ResolveError Expression :=
  match value with
  | .record [] => .ok .none
  | .record record =>
    match taxonomies.models.lookup name with
    | none => .ok (taxonomies.resolveConcepts seen prune pred name op value make)
    | some model =>
      match restrictions name record (taxonomies.modelLeaves steps [model.definition]) with
      | .error error => .error error
      | .ok leaves =>
        let positive := if op.isNegated then op.negate else op
        .ok (combineLeaves op (taxonomies.unrestricted seen prune pred leaves)
          (taxonomies.restricted seen prune pred positive make leaves))
  | value => .ok (taxonomies.resolveConcepts seen prune pred name op value make)

def resolvePredicate : Except ResolveError Expression :=
  match pred.lhs, pred.rhs with
  | .fieldExtractor field, .data value =>
    taxonomies.resolveModels steps seen prune pred field pred.op value fun op value field =>
      ⟨.fieldExtractor field, op, .data value⟩
  | .data value, .fieldExtractor field =>
    taxonomies.resolveModels steps seen prune pred field pred.op value fun op value field =>
      ⟨.data value, op, .fieldExtractor field⟩
  | _, _ => .ok (.predicate pred)

mutual

def resolveImpl : Expression → Except ResolveError Expression
  | .none => .ok .none
  | .conjunction operands => (resolveList operands).map .conjunction
  | .disjunction operands => (resolveList operands).map .disjunction
  -- The program uses the result below a negation without a check for errors.
  | .negation operand => (resolveImpl operand).map .negation
  | .predicate pred => taxonomies.resolvePredicate steps seen prune pred

def resolveList : List Expression → Except ResolveError (List Expression)
  | [] => .ok []
  | operand :: rest =>
    match resolveImpl operand with
    | .error error => .error error
    | .ok resolved => (resolveList rest).map (resolved :: ·)

end

end Resolve

/-- Substitute the concepts and models by the fields of a type. -/
def resolve (steps : Nat) (taxonomies : Taxonomies) (expression : Expression) (type : VastType) :
    Except ResolveError Expression :=
  taxonomies.resolveImpl steps [(type.name, [type])] true expression

/-! ## The predicates of the result -/

variable {name : String}

theorem mem_insertNames {set names : List String} :
    name ∈ insertNames set names ↔ name ∈ set ∨ name ∈ names := by
  induction names generalizing set with
  | nil => simp [insertNames]
  | cons head rest ih =>
    have hstep : insertNames set (head :: rest) =
        insertNames (if head ∈ set then set else set ++ [head]) rest := rfl
    rw [hstep, ih]
    split
    next hmem =>
      rw [mem_cons]
      constructor
      · exact fun h => h.imp_right Or.inr
      · rintro (hset | rfl | hrest)
        · exact Or.inl hset
        · exact Or.inl hmem
        · exact Or.inr hrest
    · rw [mem_append, mem_singleton, mem_cons, or_assoc]

variable {definition : Concept} {taxonomies : Taxonomies}

/-- The log is followed for one step. -/
theorem mem_targetFields {field : String} :
    field ∈ taxonomies.targetFields definition ↔ field ∈ definition.fields ∨
      ∃ reference ∈ definition.concepts, ∃ other,
        taxonomies.concepts.lookup reference = some other ∧ field ∈ other.fields := by
  have hfold : ∀ (log : List String) (collected : Collected),
      field ∈ (log.foldl (fun collected current =>
        match taxonomies.concepts.lookup current with
        | some reference => loadDefinition collected reference
        | none => collected) collected).targetFields ↔
      field ∈ collected.targetFields ∨ ∃ reference ∈ log,
        ∃ other, taxonomies.concepts.lookup reference = some other ∧ field ∈ other.fields := by
    intro log
    induction log with
    | nil => simp
    | cons current rest ih =>
      intro collected
      rw [foldl_cons, ih]
      cases hlookup : taxonomies.concepts.lookup current with
      | none => simp [hlookup]
      | some reference => simp [hlookup, loadDefinition, mem_insertNames, or_assoc]
  refine (hfold _ _).trans ?_
  simp [loadDefinition, mem_insertNames]

section Predicates

variable {steps : Nat} {taxonomies : Taxonomies} {seen : List (String × List VastType)}
  {prune : Bool} {pred : Predicate} {name : String} {op : RelationalOperator} {value : Data}
  {make : MakePredicate} {result : Predicate} {may : Predicate → Bool}
  {expression resolved : Expression} {operands : List Expression}

/-- The result for a concept is the predicate itself or a disjunction over fields. -/
theorem resolveConcepts_cases (pred : Predicate) (name : String) (op : RelationalOperator)
    (value : Data) (make : MakePredicate) :
    taxonomies.resolveConcepts seen prune pred name op value make = .predicate pred ∨
      ∃ names : List String, taxonomies.resolveConcepts seen prune pred name op value make =
        single .disjunction (names.map fun field => .predicate (make op value field)) := by
  unfold resolveConcepts
  split
  · exact Or.inl rfl
  next definition hlookup =>
    generalize (filter _ (taxonomies.targetFields definition)) = targets
    match targets with
    | [] => exact Or.inl rfl
    | [field] => exact Or.inr ⟨[field], rfl⟩
    | first :: second :: rest => exact Or.inr ⟨first :: second :: rest, rfl⟩

/-- If the result for a concept may match, then one of its predicates may. -/
theorem exists_of_loosely_resolveConcepts
    (hmay : loosely may (taxonomies.resolveConcepts seen prune pred name op value make) = true) :
    ∃ named ∈ predicates (taxonomies.resolveConcepts seen prune pred name op value make),
      may named = true ∧ (named = pred ∨ ∃ field, named = make op value field) := by
  rcases resolveConcepts_cases pred name op value make with heq | ⟨names, heq⟩
  · rw [heq] at hmay ⊢
    exact ⟨pred, mem_singleton_self _, hmay, Or.inl rfl⟩
  · rw [heq, ← apply, (folds_combine .any).apply_single (loosely_apply ..),
      combine, any_eq_true] at hmay
    obtain ⟨said, hsaid, hmay⟩ := hmay
    obtain ⟨operand, hop, rfl⟩ := mem_map.mp hsaid
    obtain ⟨field, -, rfl⟩ := mem_map.mp hop
    refine ⟨_, ?_, hmay, Or.inr ⟨field, rfl⟩⟩
    rw [heq, ← apply, predicates_single]
    exact mem_flatMap_of_mem hop (mem_singleton_self _)

/-- A predicate in the place of another one: the same, or one on a field. -/
def Substitutes (pred result : Predicate) : Prop :=
  result = pred ∨ ∃ field, result.lhs = .fieldExtractor field ∨ result.rhs = .fieldExtractor field

def OnField (make : MakePredicate) : Prop :=
  ∀ op value field, (make op value field).lhs = .fieldExtractor field ∨
    (make op value field).rhs = .fieldExtractor field

theorem substitutes_resolveConcepts
    (hmake : OnField make) (name : String) (op : RelationalOperator) (value : Data) :
    ∀ result ∈ predicates (taxonomies.resolveConcepts seen prune pred name op value make),
      Substitutes pred result := by
  intro result hres
  rcases resolveConcepts_cases pred name op value make with heq | ⟨names, heq⟩
  · rw [heq, predicates, mem_singleton] at hres
    exact Or.inl hres
  · rw [heq, ← apply, predicates_single, flatMap_map, mem_flatMap] at hres
    obtain ⟨field, -, hres⟩ := hres
    obtain rfl := mem_singleton.mp hres
    exact Or.inr ⟨field, hmake op value field⟩

theorem substitutes_unrestricted (pred : Predicate) (leaves : List (String × Option Data)) :
    ∀ result ∈ (taxonomies.unrestricted seen prune pred leaves).flatMap predicates,
      Substitutes pred result := by
  rw [forall_mem_flatMap]
  intro operand hop
  obtain ⟨leaf, -, hleaf⟩ := mem_filterMap.mp hop
  split at hleaf
  · cases hleaf
  · cases hleaf
    exact substitutes_resolveConcepts (fun _ _ _ => Or.inl rfl) _ _ _

theorem substitutes_restricted (hmake : OnField make) (op : RelationalOperator)
    (leaves : List (String × Option Data)) :
    ∀ result ∈ (taxonomies.restricted seen prune pred op make leaves).flatMap predicates,
      Substitutes pred result := by
  rw [forall_mem_flatMap]
  intro operand hop
  obtain ⟨leaf, -, hleaf⟩ := mem_filterMap.mp hop
  obtain ⟨value, -, rfl⟩ := Option.map_eq_some_iff.mp hleaf
  exact substitutes_resolveConcepts hmake _ _ _

theorem mem_predicates_combineLeaves {unrestricted restricted : List Expression}
    (hres : result ∈ predicates (combineLeaves op unrestricted restricted)) :
    result ∈ unrestricted.flatMap predicates ∨ result ∈ restricted.flatMap predicates := by
  cases restricted with
  | nil =>
    rw [combineLeaves, predicates, predicatesList_eq] at hres
    exact Or.inl hres
  | cons first rest =>
    have hpreds : predicates (if op.isNegated = true then
        .negation (single .conjunction (first :: rest))
        else single .conjunction (first :: rest)) = (first :: rest).flatMap predicates := by
      rw [← predicates_single .all]
      split
      · rw [predicates, apply]
      · rfl
    simp only [combineLeaves] at hres
    split at hres
    · rw [hpreds] at hres
      exact Or.inr hres
    · rw [predicates, predicatesList_eq, flatMap_append, flatMap_singleton, hpreds] at hres
      exact mem_append.mp hres

theorem substitutes_resolveModels (hmake : OnField make)
    (hresolve : taxonomies.resolveModels steps seen prune pred name op value make =
      .ok expression) : ∀ result ∈ predicates expression, Substitutes pred result := by
  unfold resolveModels at hresolve
  split at hresolve
  · cases hresolve
    simp [predicates]
  next record hrecord =>
    split at hresolve
    · cases hresolve
      exact substitutes_resolveConcepts hmake _ _ _
    next model hmodel =>
      split at hresolve
      · cases hresolve
      next leaves hleaves =>
        cases hresolve
        intro result hres
        rcases mem_predicates_combineLeaves hres with hres | hres
        · exact substitutes_unrestricted pred leaves result hres
        · exact substitutes_restricted hmake _ leaves result hres
  · cases hresolve
    exact substitutes_resolveConcepts hmake _ _ _

theorem substitutes_resolvePredicate
    (hresolve : taxonomies.resolvePredicate steps seen prune pred = .ok expression) :
    ∀ result ∈ predicates expression, Substitutes pred result := by
  unfold resolvePredicate at hresolve
  split at hresolve
  · exact substitutes_resolveModels (fun _ _ _ => Or.inl rfl) hresolve
  · exact substitutes_resolveModels (fun _ _ _ => Or.inr rfl) hresolve
  · cases hresolve
    intro result hres
    exact Or.inl (mem_singleton.mp hres)

theorem exists_of_map_eq_ok {ε α β : Type*} {f : α → β} {result : Except ε α} {value : β}
    (hmap : result.map f = .ok value) : ∃ before, result = .ok before ∧ f before = value := by
  cases result with
  | error error => cases hmap
  | ok before =>
    cases hmap
    exact ⟨before, rfl, rfl⟩

theorem map_resolveImpl_of_resolveList {resolved : List Expression}
    (hresolve : taxonomies.resolveList steps seen prune operands = .ok resolved) :
    operands.map (taxonomies.resolveImpl steps seen prune) = resolved.map .ok := by
  induction operands generalizing resolved with
  | nil =>
    cases hresolve
    rfl
  | cons operand rest ih =>
    rw [resolveList] at hresolve
    split at hresolve
    · cases hresolve
    next first hfirst =>
      obtain ⟨tail, htail, rfl⟩ := exists_of_map_eq_ok hresolve
      rw [map_cons, hfirst, ih htail, map_cons]

theorem resolveImpl_apply {kind : Connective} {resolved : Expression}
    (hresolve : taxonomies.resolveImpl steps seen prune (kind.apply operands) = .ok resolved) :
    ∃ results, resolved = kind.apply results ∧
      operands.map (taxonomies.resolveImpl steps seen prune) = results.map .ok := by
  cases kind with
  | all | any =>
    obtain ⟨results, hres, rfl⟩ := exists_of_map_eq_ok hresolve
    exact ⟨results, rfl, map_resolveImpl_of_resolveList hres⟩

theorem map_of_resolved {β : Type} {f g : Expression → β} {results : List Expression}
    (hres : operands.map (taxonomies.resolveImpl steps seen prune) = results.map .ok)
    (hops : ∀ operand ∈ operands, ∀ {resolved},
      taxonomies.resolveImpl steps seen prune operand = .ok resolved → f resolved = g operand) :
    results.map f = operands.map g := by
  induction operands generalizing results with
  | nil =>
    cases results with
    | nil => rfl
    | cons _ _ => cases hres
  | cons operand rest ih =>
    cases results with
    | nil => cases hres
    | cons first tail =>
      rw [map_cons, map_cons, cons.injEq] at hres
      rw [forall_mem_cons] at hops
      rw [map_cons, hops.1 hres.1, ih hres.2 hops.2, map_cons]

theorem substitutes_resolveImpl
    (hresolve : taxonomies.resolveImpl steps seen prune expression = .ok resolved) :
    ∀ result ∈ predicates resolved,
      ∃ pred ∈ predicates expression, Substitutes pred result := by
  induction expression generalizing resolved with
  | none =>
    cases hresolve
    simp [predicates]
  | predicate pred =>
    intro result hres
    exact ⟨pred, by simp [predicates], substitutes_resolvePredicate hresolve result hres⟩
  | negation operand ih =>
    obtain ⟨inner, hinner, rfl⟩ := exists_of_map_eq_ok hresolve
    simpa [predicates] using ih hinner
  | connective kind operands ih =>
    obtain ⟨results, rfl, hresults⟩ := resolveImpl_apply hresolve
    rw [predicates_apply, forall_mem_flatMap]
    intro found hfound result hres
    have hmem : .ok found ∈ operands.map (taxonomies.resolveImpl steps seen prune) := by
      rw [hresults]
      exact mem_map_of_mem hfound
    obtain ⟨operand, hoperand, hoperand'⟩ := mem_map.mp hmem
    obtain ⟨pred, hpred, hsubstitutes⟩ := ih operand hoperand hoperand' result hres
    rw [predicates_apply]
    exact ⟨pred, mem_flatMap.mpr ⟨operand, hoperand, hpred⟩, hsubstitutes⟩

/-! ## Success -/

/-- Whether a predicate can be resolved does not depend on the types. -/
theorem isOk_resolvePredicate (steps : Nat) (taxonomies : Taxonomies)
    (seen other : List (String × List VastType)) (prune : Bool) (pred : Predicate) :
    (taxonomies.resolvePredicate steps seen prune pred).isOk =
      (taxonomies.resolvePredicate steps other prune pred).isOk := by
  have hmodels : ∀ name op value make,
      (taxonomies.resolveModels steps seen prune pred name op value make).isOk =
        (taxonomies.resolveModels steps other prune pred name op value make).isOk := by
    intro name op value make
    unfold resolveModels
    split
    · rfl
    · split
      · rfl
      · split <;> rfl
    · rfl
  unfold resolvePredicate
  split
  · exact hmodels _ _ _ _
  · exact hmodels _ _ _ _
  · rfl

theorem isOk_resolveImpl (expression : Expression) :
    (taxonomies.resolveImpl steps seen prune expression).isOk =
      (predicates expression).all fun pred =>
        (taxonomies.resolvePredicate steps seen prune pred).isOk := by
  have hmap : ∀ {α : Type} (result : Except ResolveError α) (f : α → Expression),
      (result.map f).isOk = result.isOk := by
    intro α result f
    cases result <;> rfl
  induction expression with
  | none => rfl
  | predicate pred => rw [resolveImpl, predicates, all_cons, all_nil, Bool.and_true]
  | negation operand ih => rw [resolveImpl, predicates, ← ih, hmap]
  | connective kind operands ih =>
    have hlist : (taxonomies.resolveImpl steps seen prune (kind.apply operands)).isOk =
        (taxonomies.resolveList steps seen prune operands).isOk := by
      cases kind <;> rw [apply, resolveImpl, hmap]
    rw [hlist, predicates_apply]
    clear hlist
    induction operands with
    | nil => rfl
    | cons operand rest ihrest =>
      rw [forall_mem_cons] at ih
      rw [resolveList, flatMap_cons, all_append, ← ih.1, ← ihrest ih.2]
      cases taxonomies.resolveImpl steps seen prune operand with
      | error error => rfl
      | ok first => cases taxonomies.resolveList steps seen prune rest <;> rfl

/-! ## The loose reading of the result -/

/-- Whether what a predicate resolves to may match. -/
def mayResolved (steps : Nat) (taxonomies : Taxonomies) (seen : List (String × List VastType))
    (prune : Bool) (may : Predicate → Bool) (pred : Predicate) : Bool :=
  match taxonomies.resolvePredicate steps seen prune pred with
  | .ok resolved => loosely may resolved
  | .error _ => true

/-- A resolved expression may match when the expression may, read through the
resolution of its predicates. -/
theorem loosely_resolveImpl
    (hresolve : taxonomies.resolveImpl steps seen prune expression = .ok resolved) :
    loosely may resolved = loosely (taxonomies.mayResolved steps seen prune may) expression := by
  induction expression generalizing resolved with
  | none =>
    cases hresolve
    rfl
  | predicate pred =>
    rw [resolveImpl] at hresolve
    rw [loosely, mayResolved, hresolve]
  | negation operand =>
    obtain ⟨inner, -, rfl⟩ := exists_of_map_eq_ok hresolve
    rfl
  | connective kind operands ih =>
    obtain ⟨results, rfl, hres⟩ := resolveImpl_apply hresolve
    rw [loosely_apply, loosely_apply, map_of_resolved hres ih]

end Predicates

end Taxonomies

end Vast
