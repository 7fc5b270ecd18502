import Mathlib.Data.List.Basic

/-! # Types

The type system: basic types, the four complex types, and enriched types that
attach a name and attributes to another type. Enriched types nest, and type
equality compares the whole representation, metadata included.
-/

namespace Vast

/-- A position in a nested structure: the index at every level, outermost first. -/
abbrev Offset := List Nat

/-- Types without further structure. -/
inductive BasicType where
  | bool
  | int64
  | uint64
  | double
  | duration
  | time
  | string
  | ip
  | subnet
  deriving DecidableEq, Repr

/-- The type of a value or schema. An enriched type is transparent for all
functions that look at the structure of a type. -/
inductive VastType where
  | none
  | basic (type : BasicType)
  | enumeration (fields : List (String × Nat))
  | list (valueType : VastType)
  | map (keyType valueType : VastType)
  | record (fields : List (String × VastType))
  | enriched (type : VastType) (name : Option String)
      (attributes : List (String × Option String))

namespace VastType

mutual

/-- Structural comparison, as the comparison of the encoded bytes. -/
def beq : VastType → VastType → Bool
  | .none, .none => true
  | .basic a, .basic b => a == b
  | .enumeration a, .enumeration b => a == b
  | .list a, .list b => beq a b
  | .map a b, .map c d => beq a c && beq b d
  | .record a, .record b => beqFields a b
  | .enriched a n s, .enriched b m t => beq a b && n == m && s == t
  | _, _ => false

def beqFields : List (String × VastType) → List (String × VastType) → Bool
  | [], [] => true
  | (n, a) :: as, (m, b) :: bs => n == m && beq a b && beqFields as bs
  | _, _ => false

end

mutual

theorem beq_iff : ∀ a b : VastType, beq a b = true ↔ a = b
  | .none, b | .basic _, b | .enumeration _, b => by cases b <;> simp [beq]
  | .list a, b => by cases b <;> simp [beq, beq_iff a]
  | .map a c, b => by cases b <;> simp [beq, beq_iff a, beq_iff c]
  | .record as, b => by cases b <;> simp [beq, beqFields_iff as]
  | .enriched a _ _, b => by cases b <;> simp [beq, beq_iff a, and_assoc]

theorem beqFields_iff : ∀ as bs : List (String × VastType), beqFields as bs = true ↔ as = bs
  | [], bs => by cases bs <;> simp [beqFields]
  | (_, _) :: _, [] => by simp [beqFields]
  | (_, a) :: as, (_, b) :: bs => by simp [beqFields, beq_iff a b, beqFields_iff as bs]

end

instance : DecidableEq VastType := fun a b => decidable_of_iff (beq a b = true) (beq_iff a b)

def resolveTransparent : VastType → VastType
  | .enriched type _ _ => resolveTransparent type
  | type => type

/-- The conversion to `bool`: a type is false when it describes nothing, even
under a name. -/
def hasValue (type : VastType) : Bool :=
  type.resolveTransparent != .none

/-- The outermost name, and the empty string for an unnamed type. -/
def name : VastType → String
  | .enriched type name _ =>
    match name with
    | some name => name
    | Option.none => type.name
  | _ => ""

def names : VastType → List String
  | .enriched type name _ => name.toList ++ type.names
  | _ => []

/-- The value of an attribute in the outermost layer that has the key; an
attribute without a value has the empty string. -/
def findAttribute (key : String) : VastType → Option String
  | .enriched type _ attributes =>
    match attributes.find? (fun entry => entry.1 == key) with
    | some entry => some (entry.2.getD "")
    | Option.none => type.findAttribute key
  | _ => Option.none

def fields (type : VastType) : List (String × VastType) :=
  match type.resolveTransparent with
  | .record fields => fields
  | _ => []

def isContainer (type : VastType) : Bool :=
  match type.resolveTransparent with
  | .list _ | .map _ _ | .record _ => true
  | _ => false

theorem resolveTransparent_idem (type : VastType) :
    type.resolveTransparent.resolveTransparent = type.resolveTransparent := by
  induction type using resolveTransparent.induct with
  | case1 type name attributes ih => simpa [resolveTransparent] using ih
  | case2 type hne =>
    have heq : type.resolveTransparent = type := by
      cases type <;> first | rfl | exact absurd rfl (hne _ _ _)
    rw [heq, heq]

end VastType

end Vast
