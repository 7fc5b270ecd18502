import Mathlib.Data.List.Lex
import Mathlib.Data.List.Nodup
import Vast.Core.Type

/-! # Records and their leaves

Records nest. Every function that visits the leaf fields of a record does so in
one loop over a stack of levels, which steps into a nested record, reports a
leaf, or steps out at the end of a record. The functions differ in what they
remember per level. The loop visits the leaves in the order of the structural
recursion over the record.
-/

namespace Vast

open List Option
open VastType (resolveTransparent)

/-- A level of the loop: the record, the position in it, and what the loop
remembers for the level. -/
structure RecordLevel (κ : Type) where
  fields : List (String × VastType)
  position : Nat
  context : κ

structure Leaf (κ : Type) where
  offset : Offset
  name : String
  type : VastType
  context : κ
  deriving DecidableEq

/-- Replace what is remembered for a leaf. -/
def Leaf.map {κ κ' : Type} (f : κ → κ') (leaf : Leaf κ) : Leaf κ' :=
  { leaf with context := f leaf.context }

namespace RecordType

variable {κ : Type} (enter : κ → String → κ) {fields : List (String × VastType)} {pos : Nat}
  {name : String} {type : VastType} {leaf : Leaf (List String)}

/-- The offset of the current field, with the innermost level first in the stack. -/
def index (levels : List (RecordLevel κ)) : Offset :=
  (levels.map RecordLevel.position).reverse

def advance : List (RecordLevel κ) → List (RecordLevel κ)
  | [] => []
  | level :: levels => { level with position := level.position + 1 } :: levels

def walk : Nat → List (RecordLevel κ) → List (Leaf κ)
  | 0, _ => []
  | _ + 1, [] => []
  | fuel + 1, level :: levels =>
    match level.fields[level.position]? with
    -- At the end of a record the loop steps out one level.
    | none => walk fuel (advance levels)
    | some (name, type) =>
      match type.resolveTransparent with
      | .record fields =>
        walk fuel (⟨fields, 0, enter level.context name⟩ :: level :: levels)
      | _ =>
        ⟨index (level :: levels), name, type, level.context⟩ ::
          walk fuel (advance (level :: levels))

mutual

def steps : VastType → Nat
  | .enriched type _ _ => steps type
  | .record fields => fieldsSteps fields + 1
  | _ => 1

def fieldsSteps : List (String × VastType) → Nat
  | [] => 1
  | (_, type) :: rest => steps type + fieldsSteps rest

end

def visits (context : κ) (fields : List (String × VastType)) : List (Leaf κ) :=
  walk enter (fieldsSteps fields) [⟨fields, 0, context⟩]

/-- The names of the records around a field, outermost first. -/
def enclose (records : List String) (name : String) : List String :=
  records ++ [name]

/-- The leaf fields, with the names of the records around each. -/
def leaves (fields : List (String × VastType)) : List (Leaf (List String)) :=
  visits enclose [] fields

def key (fields : List (String × VastType)) : Offset → String
  | [] => ""
  | position :: rest =>
    match fields[position]? with
    | none => ""
    | some (name, type) =>
      match rest with
      | [] => name
      | _ => name ++ "." ++ key type.fields rest

def fieldType (fields : List (String × VastType)) : Offset → VastType
  | [] => .none
  | position :: rest =>
    match fields[position]? with
    | none => .none
    | some (_, type) =>
      match rest with
      | [] => type
      | _ => fieldType type.fields rest

def flatIndex (fields : List (String × VastType)) (offset : Offset) : Nat :=
  (leaves fields).findIdx fun leaf => leaf.offset == offset

/-! ## The order of the leaves -/

mutual

/-- The leaves below a field of the given name. The type is followed through its
enriched layers; a leaf has the type as declared. -/
def descend (context : κ) (offset : Offset) (name : String) (declared : VastType) :
    VastType → List (Leaf κ)
  | .enriched type _ _ => descend context offset name declared type
  | .record fields => descendFields (enter context name) offset 0 fields
  | _ => [⟨offset, name, declared, context⟩]

def descendFields (context : κ) (offset : Offset) (position : Nat) :
    List (String × VastType) → List (Leaf κ)
  | [] => []
  | (name, type) :: rest =>
    descend context (offset ++ [position]) name type type ++
      descendFields context offset (position + 1) rest

end

variable {enter}

theorem index_cons (level : RecordLevel κ) (levels : List (RecordLevel κ)) :
    index (level :: levels) = index levels ++ [level.position] := by
  simp [index]

theorem walk_nil (fuel : Nat) : walk enter fuel [] = [] := by
  cases fuel <;> rfl

theorem steps_eq (type : VastType) : steps type =
    match type.resolveTransparent with
    | .record fields => fieldsSteps fields + 1
    | _ => 1 := by
  induction type using VastType.resolveTransparent.induct with
  | case1 type _ _ ih => rw [steps, ih, resolveTransparent]
  | case2 type hne =>
    cases type <;> first | exact absurd rfl (hne _ _ _) | simp [steps, resolveTransparent]

theorem descend_eq (context : κ) (offset : Offset) (name : String) (declared type : VastType) :
    descend enter context offset name declared type =
      match type.resolveTransparent with
      | .record fields => descendFields enter (enter context name) offset 0 fields
      | _ => [⟨offset, name, declared, context⟩] := by
  induction type using VastType.resolveTransparent.induct with
  | case1 type _ _ ih => rw [descend, ih, resolveTransparent]
  | case2 type hne =>
    cases type <;> first | exact absurd rfl (hne _ _ _) | simp [descend, resolveTransparent]

/-- Induction over the fields of a record and of the records in it. -/
theorem fields_induct {motive : List (String × VastType) → Prop} (nil : motive [])
    (cons : ∀ name type rest, (∀ inner, type.resolveTransparent = .record inner → motive inner) →
      motive rest → motive ((name, type) :: rest)) (fields : List (String × VastType)) :
    motive fields := by
  induction hsteps : fieldsSteps fields using Nat.strongRecOn generalizing fields with
  | ind n ih =>
    match fields with
    | [] => exact nil
    | (name, type) :: rest =>
      rw [fieldsSteps, steps_eq] at hsteps
      refine cons name type rest (fun inner hrecord => ih _ ?_ inner rfl) (ih _ ?_ rest rfl)
      · simp only [hrecord] at hsteps
        omega
      · split at hsteps <;> omega

/-- The rest of a record takes its number of iterations and leaves the loop at
the next field of the record around it. -/
theorem walk_fields (context : κ) (levels : List (RecordLevel κ)) (fuel : Nat)
    (done rest : List (String × VastType)) :
    walk enter (fieldsSteps rest + fuel) (⟨done ++ rest, done.length, context⟩ :: levels) =
      descendFields enter context (index levels) done.length rest ++
        walk enter fuel (advance levels) := by
  induction rest using fields_induct generalizing context levels fuel done with
  | nil =>
    rw [fieldsSteps, Nat.add_comm, walk]
    simp [descendFields]
  | cons name type rest ihInner ih =>
    have htail := ih context levels fuel (done ++ [(name, type)])
    rw [length_append, append_assoc] at htail
    have hfield : (done ++ (name, type) :: rest)[done.length]? = some (name, type) := by simp
    rw [fieldsSteps, Nat.add_assoc, descendFields, append_assoc, steps_eq, descend_eq]
    split
    next inner hrecord =>
      rw [Nat.add_right_comm, walk, hfield]
      simp only [hrecord]
      refine (ihInner inner hrecord _ _ _ []).trans ?_
      rw [index_cons]
      exact congrArg _ htail
    next hleaf =>
      rw [Nat.add_comm 1, walk, hfield]
      simp only
      rw [index_cons]
      exact congrArg _ htail

/-- The loop reports the leaves in the order of the recursion. -/
theorem visits_eq (context : κ) (fields : List (String × VastType)) :
    visits enter context fields = descendFields enter context [] 0 fields := by
  have hwalk : visits enter context fields = _ := walk_fields context [] 0 [] fields
  rw [advance, walk_nil, append_nil] at hwalk
  exact hwalk

section Map

variable {κ' : Type} {enter' : κ' → String → κ'} (f : κ → κ')

theorem descendFields_map
    (henter : ∀ context name, f (enter context name) = enter' (f context) name) (context : κ)
    (offset : Offset) (pos : Nat) (fields : List (String × VastType)) :
    descendFields enter' (f context) offset pos fields =
      (descendFields enter context offset pos fields).map (Leaf.map f) := by
  induction fields using fields_induct generalizing context offset pos with
  | nil => rfl
  | cons name type rest ihInner ih =>
    rw [descendFields, descendFields, map_append, ih context offset, descend_eq, descend_eq]
    split
    next inner hrecord => rw [← henter, ihInner inner hrecord]
    · rfl

/-- Two traversals that remember related things visit the same leaves. -/
theorem visits_map (henter : ∀ context name, f (enter context name) = enter' (f context) name)
    (context : κ) (fields : List (String × VastType)) :
    visits enter' (f context) fields = (visits enter context fields).map (Leaf.map f) := by
  rw [visits_eq, visits_eq]
  exact descendFields_map f henter context [] 0 fields

end Map

/-! ## Offsets -/

def leafBelow (enter : κ → String → κ) (context : κ) (offset : Offset) (name : String)
    (type : VastType) : Offset → Option (Leaf κ)
  | [] =>
    match type.resolveTransparent with
    | .record _ => none
    | _ => some ⟨offset, name, type, context⟩
  | position :: rest =>
    type.fields[position]?.bind fun field =>
      leafBelow enter (enter context name) (offset ++ [position]) field.1 field.2 rest

theorem mem_descendFields (context : κ) (offset : Offset) (pos : Nat) (leaf : Leaf κ)
    (fields : List (String × VastType)) : leaf ∈ descendFields enter context offset pos fields ↔
      ∃ index field, fields[index]? = some field ∧ ∃ below,
        leafBelow enter context (offset ++ [pos + index]) field.1 field.2 below = some leaf := by
  induction fields using fields_induct generalizing context offset pos with
  | nil => simp [descendFields]
  | cons name type rest ihInner ih =>
    have hhead : leaf ∈ descend enter context (offset ++ [pos]) name type type ↔
        ∃ below, leafBelow enter context (offset ++ [pos]) name type below = some leaf := by
      rw [descend_eq]
      split
      next inner hrecord =>
        have hfields : type.fields = inner := by rw [VastType.fields, hrecord]
        simp only [ihInner inner hrecord, Nat.zero_add]
        constructor
        · rintro ⟨pos, field, hfield, below, hleaf⟩
          exact ⟨pos :: below, by rw [leafBelow, hfields, hfield]; exact hleaf⟩
        · rintro ⟨_ | ⟨pos, below⟩, hleaf⟩
          · simp [leafBelow, hrecord] at hleaf
          · rw [leafBelow, hfields, bind_eq_some_iff] at hleaf
            obtain ⟨field, hfield, hleaf⟩ := hleaf
            exact ⟨pos, field, hfield, below, hleaf⟩
      next hne =>
        rw [mem_singleton]
        constructor
        · rintro rfl
          exact ⟨[], by simp only [leafBelow]⟩
        · rintro ⟨_ | ⟨pos, below⟩, hleaf⟩
          · simpa [leafBelow, hne, eq_comm] using hleaf
          · simp [leafBelow, VastType.fields] at hleaf
    rw [descendFields, mem_append, hhead, ih context offset (pos + 1)]
    constructor
    · rintro (hhead | ⟨index, field, htail⟩)
      · exact ⟨0, (name, type), rfl, hhead⟩
      · exact ⟨index + 1, field, by rwa [← Nat.add_assoc, Nat.add_right_comm]⟩
    · rintro ⟨_ | index, field, hfield, hleaf⟩
      · cases hfield
        exact Or.inl hleaf
      · exact Or.inr ⟨index, field, hfield, by rwa [Nat.add_right_comm, Nat.add_assoc]⟩

theorem offset_leafBelow {context : κ} {offset below : Offset} {leaf : Leaf κ}
    (hleaf : leafBelow enter context offset name type below = some leaf) :
    leaf.offset = offset ++ below := by
  induction below generalizing context offset name type with
  | nil =>
    rw [leafBelow] at hleaf
    split at hleaf <;> cases hleaf
    exact (append_nil offset).symm
  | cons pos below ih =>
    obtain ⟨field, -, hleaf⟩ := bind_eq_some_iff.mp hleaf
    rw [ih hleaf, append_assoc, singleton_append]

theorem pairwise_offset_descendFields (context : κ) (offset : Offset) (pos : Nat)
    (fields : List (String × VastType)) :
    ((descendFields enter context offset pos fields).map Leaf.offset).Pairwise (· < ·) := by
  induction fields using fields_induct generalizing context offset pos with
  | nil => exact Pairwise.nil
  | cons name type rest ihInner ih =>
    rw [descendFields, map_append, pairwise_append]
    refine ⟨?_, ih context offset (pos + 1), ?_⟩
    · rw [descend_eq]
      split
      next inner hrecord => exact ihInner inner hrecord _ _ 0
      · exact pairwise_singleton _ _
    -- The offsets below two fields differ at the level of these fields.
    · rw [List.forall_mem_map]
      intro leaf hleaf
      rw [List.forall_mem_map]
      intro other hother
      rw [← append_nil (descend ..), ← descendFields, ← descendFields, mem_descendFields] at hleaf
      obtain ⟨_, _, hfirst, _, hleaf⟩ := hleaf
      obtain ⟨_, _, -, _, hother⟩ := (mem_descendFields ..).mp hother
      obtain ⟨hlt, -⟩ := List.getElem?_eq_some_iff.mp hfirst
      rw [length_singleton] at hlt
      rw [offset_leafBelow hleaf, offset_leafBelow hother, append_assoc, append_assoc]
      exact Lex.append_left _ (Lex.rel (by omega)) offset

theorem pairwise_offset_visits (context : κ) (fields : List (String × VastType)) :
    ((visits enter context fields).map Leaf.offset).Pairwise (· < ·) := by
  rw [visits_eq]
  exact pairwise_offset_descendFields context [] 0 fields

theorem nodup_offset_visits (context : κ) (fields : List (String × VastType)) :
    ((visits enter context fields).map Leaf.offset).Nodup :=
  (pairwise_offset_visits context fields).imp ne_of_lt

theorem mem_leaves : leaf ∈ leaves fields ↔ ∃ pos field, fields[pos]? = some field ∧
    ∃ below, leafBelow enclose [] [pos] field.1 field.2 below = some leaf := by
  rw [leaves, visits_eq, mem_descendFields]
  simp only [nil_append, Nat.zero_add]

/-! ## Keys -/

def qualify (records : List String) (name : List Char) : List Char :=
  records.foldr (fun record rest => record.toList ++ '.' :: rest) name

/-- The name of a field of which the offset below it is given. -/
def keyBelow (name : String) (type : VastType) : Offset → String
  | [] => name
  | position :: rest => name ++ "." ++ key type.fields (position :: rest)

def fieldTypeBelow (type : VastType) : Offset → VastType
  | [] => type
  | position :: rest => fieldType type.fields (position :: rest)

theorem fieldType_cons (hfield : fields[pos]? = some (name, type)) (rest : Offset) :
    fieldType fields (pos :: rest) = fieldTypeBelow type rest := by
  rw [fieldType, hfield]
  cases rest <;> rfl

theorem key_cons (hfield : fields[pos]? = some (name, type)) (rest : Offset) :
    key fields (pos :: rest) = keyBelow name type rest := by
  rw [key, hfield]
  cases rest <;> rfl

theorem key_leafBelow {records : List String} {offset below : Offset}
    (hleaf : leafBelow enclose records offset name type below = some leaf) :
    fieldTypeBelow type below = leaf.type ∧ ∃ inner, leaf.context = records ++ inner ∧
      (keyBelow name type below).toList = qualify inner leaf.name.toList := by
  induction below generalizing records offset name type with
  | nil =>
    rw [leafBelow] at hleaf
    split at hleaf <;> cases hleaf
    exact ⟨rfl, [], (append_nil records).symm, rfl⟩
  | cons pos below ih =>
    obtain ⟨field, hfield, hleaf⟩ := bind_eq_some_iff.mp hleaf
    obtain ⟨htype, inner, hctx, hkey⟩ := ih hleaf
    rw [fieldTypeBelow, fieldType_cons hfield, keyBelow, key_cons hfield]
    refine ⟨htype, name :: inner, by simpa [enclose] using hctx, ?_⟩
    rw [String.toList_append, hkey]
    simp [qualify]

theorem key_of_mem_leaves (hleaf : leaf ∈ leaves fields) :
    (key fields leaf.offset).toList = qualify leaf.context leaf.name.toList := by
  obtain ⟨pos, field, hfield, below, hleaf⟩ := mem_leaves.mp hleaf
  obtain ⟨-, inner, hctx, hkey⟩ := key_leafBelow hleaf
  rw [offset_leafBelow hleaf, singleton_append, key_cons hfield, hkey, hctx, nil_append]

theorem fieldType_of_mem_leaves (hleaf : leaf ∈ leaves fields) :
    fieldType fields leaf.offset = leaf.type := by
  obtain ⟨pos, field, hfield, below, hleaf⟩ := mem_leaves.mp hleaf
  rw [offset_leafBelow hleaf, singleton_append, fieldType_cons hfield]
  exact (key_leafBelow hleaf).1

theorem eq_of_offset_eq {leaf other : Leaf (List String)} (hleaf : leaf ∈ leaves fields)
    (hother : other ∈ leaves fields) (heq : leaf.offset = other.offset) : leaf = other :=
  inj_on_of_nodup_map (nodup_offset_visits [] fields) hleaf hother heq

theorem getElem?_flatIndex (hleaf : leaf ∈ leaves fields) :
    (leaves fields)[flatIndex fields leaf.offset]? = some leaf := by
  have hlt : flatIndex fields leaf.offset < (leaves fields).length :=
    findIdx_lt_length_of_exists ⟨leaf, hleaf, by simp⟩
  have hfound := findIdx_getElem (w := hlt)
  rw [beq_iff_eq] at hfound
  have heq := eq_of_offset_eq (getElem_mem hlt) hleaf hfound
  rw [getElem?_eq_getElem hlt]
  exact congrArg some heq

end RecordType

structure QualifiedRecordField where
  schemaName : String
  fieldName : String
  type : VastType
  deriving DecidableEq

def QualifiedRecordField.ofLeaf (schema : VastType) (leaf : Leaf (List String)) :
    QualifiedRecordField :=
  ⟨schema.name, RecordType.key schema.fields leaf.offset, leaf.type⟩

end Vast
