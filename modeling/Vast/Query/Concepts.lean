import Vast.Query.Taxonomies

/-! # Fields of concepts

A concept may reference other concepts, and its fields are those that a chain of
references leads to. The program computes them twice: once with a recursion that
remembers the concepts it has visited, and once, for predicates, with a log of
references that is only followed for one step.
-/

namespace Vast

open List Option
open Expression hiding none

/-! ## Resolving names -/

def maxRecursion : Nat := 100

abbrev ConceptsMap := List (String × Concept)

namespace ConceptsMap

/-- The concepts that were resolved, and the names of fields that were found. -/
structure Resolution where
  resolvedConceptsCache : List String
  fieldsOrConcepts : List String

/-- Names that are not concepts count as fields. Concepts are resolved once. -/
def tryResolveConcept (concepts : ConceptsMap) : Nat → Resolution → String → Resolution
  | 0, resolution, _ => resolution
  | limit + 1, resolution, name =>
    match concepts.lookup name with
    | some definition =>
      if name ∈ resolution.resolvedConceptsCache then resolution
      else definition.concepts.foldl (tryResolveConcept concepts limit)
        ⟨resolution.resolvedConceptsCache ++ [name],
          resolution.fieldsOrConcepts ++ definition.fields⟩
    | none =>
      { resolution with fieldsOrConcepts := resolution.fieldsOrConcepts ++ [name] }

variable (concepts : ConceptsMap)

def resolveConcepts (fieldsOrConcepts : List String) : List String :=
  (fieldsOrConcepts.foldl (tryResolveConcept concepts maxRecursion) ⟨[], []⟩).fieldsOrConcepts

/-! ## References -/

def References (name reference : String) : Prop :=
  ∃ definition, concepts.lookup name = some definition ∧ reference ∈ definition.concepts

/-- A chain of references leads from one name to another one. -/
abbrev Leads : String → String → Prop :=
  Relation.ReflTransGen concepts.References

/-- A chain of references leads to a concept with the field. -/
def HasField (name field : String) : Prop :=
  ∃ other definition, concepts.Leads name other ∧ concepts.lookup other = some definition ∧
    field ∈ definition.fields

/-- The resolution of a concept lists what its references lead to, and all fields of
the concepts that were visited. -/
structure Explores (start : String) (resolution : Resolution) : Prop where
  visited : ∀ name ∈ resolution.resolvedConceptsCache, ∀ definition,
    concepts.lookup name = some definition → definition.fields ⊆ resolution.fieldsOrConcepts
  found : ∀ field ∈ resolution.fieldsOrConcepts, concepts.HasField start field ∨
    concepts.Leads start field ∧ concepts.lookup field = none

variable {concepts : ConceptsMap} {start name : String} {definition : Concept}

/-- A way to resolve names that forgets nothing and, within the limit, visits the names
that are concepts. -/
def Visits (concepts : ConceptsMap) (start : String) (limit : Nat)
    (resolve : Resolution → String → Resolution) : Prop :=
  ∀ resolution name, concepts.Explores start resolution → concepts.Leads start name →
    concepts.Explores start (resolve resolution name) ∧
      resolution.resolvedConceptsCache ⊆ (resolve resolution name).resolvedConceptsCache ∧
      (0 < limit → (concepts.lookup name).isSome = true →
        name ∈ (resolve resolution name).resolvedConceptsCache)

theorem Visits.foldl {limit : Nat} {resolve : Resolution → String → Resolution}
    (hvisits : concepts.Visits start limit resolve) {references : List String}
    (hleads : ∀ reference ∈ references, concepts.Leads start reference)
    {before : Resolution} (hbefore : concepts.Explores start before) :
    concepts.Explores start (references.foldl resolve before) ∧
      before.resolvedConceptsCache ⊆ (references.foldl resolve before).resolvedConceptsCache ∧
      (0 < limit → ∀ reference ∈ references, (concepts.lookup reference).isSome = true →
        reference ∈ (references.foldl resolve before).resolvedConceptsCache) := by
  induction references generalizing before with
  | nil => exact ⟨hbefore, fun _ => id, fun _ _ hmem => absurd hmem not_mem_nil⟩
  | cons reference rest ih =>
    rw [forall_mem_cons] at hleads
    obtain ⟨hfirst, hsubset, hvisited⟩ := hvisits before reference hbefore hleads.1
    obtain ⟨hrest, hsubset_rest, hvisited_rest⟩ := ih hleads.2 hfirst
    refine ⟨hrest, Subset.trans hsubset hsubset_rest, fun hpos => ?_⟩
    rw [forall_mem_cons]
    exact ⟨fun hsome => hsubset_rest (hvisited hpos hsome), hvisited_rest hpos⟩

theorem Explores.enter {resolution : Resolution} (hexplores : concepts.Explores start resolution)
    (hleads : concepts.Leads start name) (hlookup : concepts.lookup name = some definition) :
    concepts.Explores start ⟨resolution.resolvedConceptsCache ++ [name],
      resolution.fieldsOrConcepts ++ definition.fields⟩ := by
  constructor
  · intro other hother found hfound
    rcases mem_append.mp hother with hold | hnew
    · exact subset_append_of_subset_left _ (hexplores.visited other hold found hfound)
    · rw [mem_singleton.mp hnew, hlookup] at hfound
      cases hfound
      exact subset_append_right _ _
  · intro field hfield
    rcases mem_append.mp hfield with hold | hnew
    · exact hexplores.found field hold
    · exact Or.inl ⟨name, definition, hleads, hlookup, hnew⟩

theorem visits_tryResolveConcept (concepts : ConceptsMap) (start : String) (limit : Nat) :
    concepts.Visits start limit (concepts.tryResolveConcept limit) := by
  induction limit with
  | zero =>
    intro resolution name hexplores _
    exact ⟨hexplores, fun _ => id, fun hpos => absurd hpos (lt_irrefl 0)⟩
  | succ limit ih =>
    intro resolution name hexplores hleads
    rw [tryResolveConcept]
    split
    next definition hlookup =>
      split
      next hcached => exact ⟨hexplores, fun _ => id, fun _ _ => hcached⟩
      · have hreferences : ∀ reference ∈ definition.concepts, concepts.Leads start reference :=
          fun reference hmem => hleads.tail ⟨definition, hlookup, hmem⟩
        obtain ⟨hafter, hsubset, -⟩ := ih.foldl hreferences (hexplores.enter hleads hlookup)
        refine ⟨hafter, fun other hother => hsubset (mem_append_left _ hother), ?_⟩
        exact fun _ _ => hsubset (mem_append_right _ mem_cons_self)
    next hnone =>
      refine ⟨⟨?_, ?_⟩, fun _ => id, ?_⟩
      · exact fun other hother found hfound => subset_append_of_subset_left _
          (hexplores.visited other hother found hfound)
      · intro field hfield
        rcases Foundation.mem_concat.mp hfield with hold | rfl
        · exact hexplores.found field hold
        · exact Or.inr ⟨hleads, hnone⟩
      · intro _ hsome
        rw [hnone] at hsome
        cases hsome

def HasNearField (concepts : ConceptsMap) (definition : Concept) (field : String) : Prop :=
  field ∈ definition.fields ∨ ∃ reference ∈ definition.concepts,
    ∃ other, concepts.lookup reference = some other ∧ field ∈ other.fields

theorem HasNearField.hasField {field : String} (hnear : concepts.HasNearField definition field)
    (hlookup : concepts.lookup name = some definition) : concepts.HasField name field := by
  rcases hnear with hfield | ⟨reference, hreference, other, hother, hfield⟩
  · exact ⟨name, definition, .refl, hlookup, hfield⟩
  · exact ⟨reference, other, .single ⟨definition, hlookup, hreference⟩, hother, hfield⟩

/-- The recursion finds near fields, and nothing but fields and names that are not
concepts. -/
theorem mem_resolveConcepts (hlookup : concepts.lookup name = some definition) :
    (∀ field, concepts.HasNearField definition field → field ∈ concepts.resolveConcepts [name]) ∧
    ∀ field ∈ concepts.resolveConcepts [name], concepts.HasField name field ∨
      concepts.Leads name field ∧ concepts.lookup field = none := by
  have hempty : concepts.Explores name ⟨[], []⟩ := ⟨by simp, by simp⟩
  have hstart : concepts.Explores name ⟨[name], definition.fields⟩ :=
    hempty.enter .refl hlookup
  have hresolve : concepts.resolveConcepts [name] = (definition.concepts.foldl
      (concepts.tryResolveConcept 99) ⟨[name], definition.fields⟩).fieldsOrConcepts := by
    rw [resolveConcepts, foldl_cons, show maxRecursion = 99 + 1 from rfl,
      tryResolveConcept]
    simp [hlookup]
  obtain ⟨hafter, hsubset, hvisited⟩ := (visits_tryResolveConcept concepts name 99).foldl
    (fun reference hmem => .single ⟨definition, hlookup, hmem⟩) hstart
  rw [hresolve]
  refine ⟨fun field hnear => ?_, hafter.found⟩
  rcases hnear with hfield | ⟨reference, hreference, other, hother, hfield⟩
  · exact hafter.visited name (hsubset mem_cons_self) definition hlookup hfield
  · have hmem := hvisited (by decide) reference hreference (by simp [hother])
    exact hafter.visited reference hmem other hother hfield

end ConceptsMap

/-! ## Predicates on concepts -/

namespace Taxonomies

open ConceptsMap

/-- Substitute the concepts and models by all of their fields. -/
def resolveUnpruned (steps : Nat) (taxonomies : Taxonomies) (expression : Expression) :
    Except ResolveError Expression :=
  taxonomies.resolveImpl steps [] false expression

variable {taxonomies : Taxonomies} {definition : Concept} {name : String} {value : Data}

def fieldPredicate (op : RelationalOperator) (value : Data) (field : String) : Predicate :=
  ⟨.fieldExtractor field, op, .data value⟩

/-- Every reference that a chain leads to is a concept or a field of the first one. -/
def ProperReferences (taxonomies : Taxonomies) (name : String) (definition : Concept) : Prop :=
  ∀ reference, Leads taxonomies.concepts name reference →
    (taxonomies.concepts.lookup reference).isSome = true ∨ reference ∈ definition.fields

/-- The predicate on a concept becomes predicates on exactly the fields that chains of
references lead to, and these are the ones that the recursion finds. -/
def ResolvesCompletely (steps : Nat) (taxonomies : Taxonomies) (name : String)
    (definition : Concept) (op : RelationalOperator) (value : Data) : Prop :=
  ∃ expression ∈ (taxonomies.resolveUnpruned steps
      (.predicate (fieldPredicate op value name))).toOption,
    (∀ pred, pred ∈ predicates expression ↔ ∃ field,
      HasField taxonomies.concepts name field ∧ pred = fieldPredicate op value field) ∧
    (taxonomies.ProperReferences name definition → ∀ field,
      fieldPredicate op value field ∈ predicates expression ↔
        field ∈ ConceptsMap.resolveConcepts taxonomies.concepts [name])

theorem predicatesList_map_predicate (names : List String) (make : String → Predicate) :
    predicatesList (names.map fun field => .predicate (make field)) = names.map make := by
  induction names with
  | nil => rfl
  | cons name rest ih =>
    rw [map_cons, predicatesList, predicates, singleton_append, ih, map_cons]

/-- A concept without near fields is left alone. -/
theorem predicates_resolveConcepts (hconcept : taxonomies.concepts.lookup name = some definition)
    (op : RelationalOperator) (value : Data) :
    predicates (taxonomies.resolveConcepts [] false (fieldPredicate op value name) name op value
        fieldPredicate) =
      (if taxonomies.targetFields definition = [] then [name]
        else taxonomies.targetFields definition).map (fieldPredicate op value) := by
  have htargets : ((taxonomies.targetFields definition).filter fun field =>
      !false || contains [] op value [] field.toList) = taxonomies.targetFields definition := by
    simp
  rw [resolveConcepts]
  simp only [hconcept, htargets]
  generalize taxonomies.targetFields definition = targets
  cases targets with
  | nil => rfl
  | cons first rest =>
    rw [← predicatesList_map_predicate]
    cases rest with
    | nil => simp [predicatesList]
    | cons second rest => rfl

/-- Records are compared with models, and the empty record with nothing. -/
theorem resolveImpl_fieldPredicate (steps : Nat) (seen : List (String × List VastType))
    (prune : Bool) (op : RelationalOperator)
    (hmodel : ∀ record, value = .record record → taxonomies.models.lookup name = none)
    (hvalue : value ≠ .record []) :
    taxonomies.resolveImpl steps seen prune (.predicate (fieldPredicate op value name)) =
      .ok (taxonomies.resolveConcepts seen prune (fieldPredicate op value name) name op value
        fieldPredicate) := by
  rw [resolveImpl]
  simp only [resolvePredicate, fieldPredicate, resolveModels]
  split
  · exact absurd rfl hvalue
  next record hne =>
    rw [hmodel record rfl]
    rfl
  · rfl

theorem fieldPredicate_injective (op : RelationalOperator) (value : Data) :
    Function.Injective (fieldPredicate op value) := by
  intro field other heq
  simpa [fieldPredicate] using heq

theorem hasField_of_mem_resolveConcepts
    (hconcept : taxonomies.concepts.lookup name = some definition)
    (hproper : taxonomies.ProperReferences name definition) {field : String}
    (hfield : field ∈ ConceptsMap.resolveConcepts taxonomies.concepts [name]) :
    HasField taxonomies.concepts name field := by
  rcases (mem_resolveConcepts hconcept).2 field hfield with hfield | ⟨hleads, hnone⟩
  · exact hfield
  · rcases hproper field hleads with hsome | hfield
    · rw [hnone] at hsome
      cases hsome
    · exact HasNearField.hasField (Or.inl hfield) hconcept

/-- What it takes for predicates on some fields to be a complete resolution. -/
theorem complete_iff (op : RelationalOperator) (fields : List String) :
    ((∀ pred, pred ∈ fields.map (fieldPredicate op value) ↔ ∃ field,
        HasField taxonomies.concepts name field ∧ pred = fieldPredicate op value field) ∧
      (taxonomies.ProperReferences name definition → ∀ field,
        fieldPredicate op value field ∈ fields.map (fieldPredicate op value) ↔
          field ∈ ConceptsMap.resolveConcepts taxonomies.concepts [name])) ↔
    (∀ field, HasField taxonomies.concepts name field ↔ field ∈ fields) ∧
      (taxonomies.ProperReferences name definition → ∀ field, field ∈ fields ↔
        field ∈ ConceptsMap.resolveConcepts taxonomies.concepts [name]) := by
  have hinjective := fieldPredicate_injective op value
  simp only [List.mem_map_of_injective hinjective]
  refine and_congr_left fun _ => ⟨fun hall field => ?_, fun hall pred => ?_⟩
  · rw [← List.mem_map_of_injective hinjective, hall]
    simp [hinjective.eq_iff]
  · simp [hall, eq_comm]

/-- A concept without near fields is only complete if it is a field of its own. -/
theorem complete_self_iff (hconcept : taxonomies.concepts.lookup name = some definition) :
    ((∀ field, HasField taxonomies.concepts name field ↔ field ∈ [name]) ∧
      (taxonomies.ProperReferences name definition → ∀ field, field ∈ [name] ↔
        field ∈ ConceptsMap.resolveConcepts taxonomies.concepts [name])) ↔
    (∀ field, HasField taxonomies.concepts name field ↔ field = name) ∧
      (taxonomies.ProperReferences name definition →
        name ∈ ConceptsMap.resolveConcepts taxonomies.concepts [name]) := by
  simp only [mem_singleton]
  refine and_congr_right fun hfields => ⟨fun hall hproper => (hall hproper name).mp rfl, ?_⟩
  intro hself hproper field
  constructor
  · rintro rfl
    exact hself hproper
  · intro hmem
    exact (hfields field).mp (hasField_of_mem_resolveConcepts hconcept hproper hmem)

/-- Near fields are complete if and only if there are no others. -/
theorem complete_near_iff (hconcept : taxonomies.concepts.lookup name = some definition) :
    ((∀ field, HasField taxonomies.concepts name field ↔
        field ∈ taxonomies.targetFields definition) ∧
      (taxonomies.ProperReferences name definition → ∀ field,
        field ∈ taxonomies.targetFields definition ↔
          field ∈ ConceptsMap.resolveConcepts taxonomies.concepts [name])) ↔
    ∀ field, HasField taxonomies.concepts name field →
      HasNearField taxonomies.concepts definition field := by
  have hnear (field : String) : field ∈ taxonomies.targetFields definition ↔
      HasNearField taxonomies.concepts definition field := mem_targetFields
  simp only [hnear]
  constructor
  · exact fun hall field => (hall.1 field).mp
  · intro hfields
    refine ⟨fun field => ⟨hfields field, fun hfield => hfield.hasField hconcept⟩, ?_⟩
    intro hproper field
    exact ⟨(mem_resolveConcepts hconcept).1 field, fun hmem =>
      hfields field (hasField_of_mem_resolveConcepts hconcept hproper hmem)⟩

/-- A predicate on a concept is resolved completely if and only if its fields are those
of its definition and of the definitions that this one references, and there is one. The
empty record is left to concepts without fields, and a concept without such fields is
taken for a field of the same name. -/
theorem resolvesCompletely_iff (steps : Nat) (taxonomies : Taxonomies) (name : String)
    (definition : Concept) (hconcept : taxonomies.concepts.lookup name = some definition)
    (op : RelationalOperator) (value : Data)
    (hmodel : ∀ record, value = .record record → taxonomies.models.lookup name = none) :
    taxonomies.ResolvesCompletely steps name definition op value ↔
      (value = .record [] ∧ ∀ field, ¬HasField taxonomies.concepts name field) ∨
      (value ≠ .record [] ∧ (∃ field, HasNearField taxonomies.concepts definition field) ∧
        ∀ field, HasField taxonomies.concepts name field →
          HasNearField taxonomies.concepts definition field) ∨
      (value ≠ .record [] ∧ (∀ field, ¬HasNearField taxonomies.concepts definition field) ∧
        (∀ field, HasField taxonomies.concepts name field ↔ field = name) ∧
        (taxonomies.ProperReferences name definition →
          name ∈ ConceptsMap.resolveConcepts taxonomies.concepts [name])) := by
  by_cases hvalue : value = .record []
  · subst hvalue
    have hresolve : taxonomies.resolveUnpruned steps
        (.predicate (fieldPredicate op (.record []) name)) = .ok .none := rfl
    have hnothing := @complete_iff taxonomies definition name (.record []) op []
    simp only [map_nil, not_mem_nil, iff_false, false_iff] at hnothing
    simp only [ResolvesCompletely, hresolve, Except.toOption, mem_def, some.injEq,
      exists_eq_left', predicates, not_mem_nil, false_iff, hnothing, ne_eq, not_true_eq_false,
      false_and, or_false, true_and]
    exact and_iff_left_of_imp fun hnone hproper field hmem =>
      hnone field (hasField_of_mem_resolveConcepts hconcept hproper hmem)
  · have hresolve := resolveImpl_fieldPredicate steps [] false op hmodel hvalue
    simp only [ResolvesCompletely, resolveUnpruned, hresolve, Except.toOption, mem_def,
      some.injEq, exists_eq_left', predicates_resolveConcepts hconcept op value, complete_iff,
      hvalue, false_and, false_or, ne_eq, not_false_eq_true, true_and]
    by_cases htargets : taxonomies.targetFields definition = []
    · have hnear : ∀ field, ¬HasNearField taxonomies.concepts definition field := by
        intro field hfield
        have hmem := mem_targetFields.mpr hfield
        rw [htargets] at hmem
        cases hmem
      rw [if_pos htargets, complete_self_iff hconcept]
      simp [hnear]
    · obtain ⟨field, hfield⟩ := exists_mem_of_ne_nil _ htargets
      have hnear : HasNearField taxonomies.concepts definition field := mem_targetFields.mp hfield
      have hnone : ¬ ∀ field, ¬HasNearField taxonomies.concepts definition field :=
        fun hnone => hnone field hnear
      rw [if_neg htargets, complete_near_iff hconcept]
      simp only [hnone, false_and, or_false]
      exact (and_iff_right ⟨field, hnear⟩).symm

/-! ## Chains of references -/

/-- A concept that references another one, which references a third one. -/
def chain : Taxonomies where
  concepts := [("net.src.ip", ⟨["zeek.conn.id.orig_h"], ["flow.src.ip"]⟩),
    ("flow.src.ip", ⟨["suricata.flow.src_ip"], ["packet.src.ip"]⟩),
    ("packet.src.ip", ⟨["pcap.packet.src"], []⟩)]
  models := []

/-- The field of the third concept gets no predicate. -/
theorem chain_resolved_partially :
    ((chain.resolveUnpruned 1 (.predicate (fieldPredicate .equal .none "net.src.ip"))).map
        predicates).toOption = some ([fieldPredicate .equal .none "zeek.conn.id.orig_h",
          fieldPredicate .equal .none "suricata.flow.src_ip"]) ∧
      ConceptsMap.resolveConcepts chain.concepts ["net.src.ip"] =
        ["zeek.conn.id.orig_h", "suricata.flow.src_ip", "pcap.packet.src"] ∧
      HasField chain.concepts "net.src.ip" "pcap.packet.src" := by
  refine ⟨by decide, by decide, "packet.src.ip", _, ?_, rfl, mem_cons_self⟩
  have hfirst : References chain.concepts "net.src.ip" "flow.src.ip" :=
    ⟨_, rfl, mem_cons_self⟩
  exact (Relation.ReflTransGen.single hfirst).tail ⟨_, rfl, mem_cons_self⟩

/-- One reference is followed. -/
theorem reference_resolved_completely : chain.ResolvesCompletely 1 "flow.src.ip"
    ⟨["suricata.flow.src_ip"], ["packet.src.ip"]⟩ .equal .none := by
  refine (resolvesCompletely_iff 1 chain "flow.src.ip" _ rfl .equal .none
    fun record hrecord => by cases hrecord).mpr (Or.inr (Or.inl ⟨by decide, ?_, ?_⟩))
  · exact ⟨"suricata.flow.src_ip", Or.inl mem_cons_self⟩
  · rintro field ⟨other, definition, hleads, hlookup, hfield⟩
    rcases hleads.cases_head with rfl | ⟨second, ⟨first, hfirst, hsecond⟩, hrest⟩
    · cases hlookup
      exact Or.inl hfield
    · cases hfirst
      rw [mem_singleton] at hsecond
      subst hsecond
      rcases hrest.cases_head with rfl | ⟨third, ⟨found, hfound, hthird⟩, -⟩
      · exact Or.inr ⟨_, mem_cons_self, definition, hlookup, hfield⟩
      · cases hfound
        cases hthird

end Taxonomies

end Vast
