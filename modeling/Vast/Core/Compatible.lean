import Vast.Core.Data
import Vast.Core.Operator
import Vast.Core.Type

/-! # Congruence and compatibility

Two types are congruent when they have the same structure, whatever their names
and attributes. A value is congruent to a type when it can stand for a value of
the type in a query. An operator between a column and a literal is compatible
when the comparison makes sense.
-/

namespace Vast

/-- The type of a value. Patterns and the keys of enumerations have no basic type. -/
def BasicData.type : BasicData → Option BasicType
  | .bool _ => some .bool
  | .int64 _ => some .int64
  | .uint64 _ => some .uint64
  | .double _ => some .double
  | .duration _ => some .duration
  | .time _ => some .time
  | .string _ => some .string
  | .pattern _ => none
  | .ip _ => some .ip
  | .subnet _ _ => some .subnet
  | .enumeration _ => none

namespace VastType

mutual

/-- Congruence of types. A type that describes nothing is congruent to all. -/
def congruent : VastType → VastType → Bool
  | .none, _ => true
  | .enriched type _ _, other => congruent type other
  | .basic type, other =>
    match other.resolveTransparent with
    | .none => true
    | .basic otherType => type == otherType
    | _ => false
  | .enumeration fields, other =>
    match other.resolveTransparent with
    | .none => true
    | .enumeration otherFields => fields.map Prod.snd == otherFields.map Prod.snd
    | _ => false
  | .list valueType, other =>
    match other.resolveTransparent with
    | .none => true
    | .list otherType => congruent valueType otherType
    | _ => false
  | .map keyType valueType, other =>
    match other.resolveTransparent with
    | .none => true
    | .map otherKey otherValue => congruent keyType otherKey && congruent valueType otherValue
    | _ => false
  | .record fields, other =>
    match other.resolveTransparent with
    | .none => true
    | .record otherFields => congruentFields fields otherFields
    | _ => false

def congruentFields : List (String × VastType) → List (String × VastType) → Bool
  | [], [] => true
  | (_, type) :: rest, (_, otherType) :: otherRest =>
    congruent type otherType && congruentFields rest otherRest
  | _, _ => false

end

def resolveEnumeration (fields : List (String × Nat)) (name : String) : Option Nat :=
  fields.lookup name

mutual

def congruentData : VastType → Data → Bool
  | .enriched type _ _, value => congruentData type value
  | .basic type, .basic (.pattern _) => type == .string
  | .basic type, .basic value => value.type == some type
  | .enumeration fields, .basic (.string name) => (resolveEnumeration fields name).isSome
  | .list _, .list _ => true
  | .map _ _, .map _ => true
  | .record fields, .list values => congruentValues fields values
  | .record fields, .record values =>
    fields.length == values.length && congruentRecord fields values
  | _, _ => false

/-- The values of a record without names, in the order of the fields. -/
def congruentValues : List (String × VastType) → List Data → Bool
  | [], [] => true
  | (_, type) :: rest, value :: values => congruentData type value && congruentValues rest values
  | _, _ => false

/-- Every field is found by its name. -/
def congruentRecord : List (String × VastType) → List (String × Data) → Bool
  | [], _ => true
  | (name, type) :: rest, values =>
    (match values.lookup name with
      | some value => congruentData type value
      | Option.none => false) && congruentRecord rest values

end

/-- Whether the type is the given basic type under its names and attributes. -/
def isBasic (type : VastType) (basic : BasicType) : Bool :=
  type.resolveTransparent == .basic basic

end VastType

namespace Data

def isString : Data → Bool
  | .basic (.string _) => true
  | _ => false

def isPattern : Data → Bool
  | .basic (.pattern _) => true
  | _ => false

def isIp : Data → Bool
  | .basic (.ip _) => true
  | _ => false

def isSubnet : Data → Bool
  | .basic (.subnet _ _) => true
  | _ => false

def isTime : Data → Bool
  | .basic (.time _) => true
  | _ => false

end Data

/-- Whether a column of the type can be compared with the literal. -/
def compatible (lhs : VastType) (op : RelationalOperator) (rhs : Data) : Bool :=
  match op with
  | .equal | .notEqual =>
    !lhs.hasValue || rhs == .none || (lhs.isBasic .string && rhs.isPattern) ||
      lhs.congruentData rhs
  | .less | .lessEqual | .greater | .greaterEqual => lhs.congruentData rhs
  | .in | .notIn =>
    if lhs.isBasic .string then rhs.isString || rhs.isContainer
    else if lhs.isBasic .ip || lhs.isBasic .subnet then rhs.isSubnet || rhs.isContainer
    else rhs.isContainer
  | .ni | .notNi =>
    if rhs.isString then lhs.isBasic .string || lhs.isContainer
    else if rhs.isIp || rhs.isSubnet then lhs.isBasic .subnet || lhs.isContainer
    else lhs.isContainer

end Vast
