import Mathlib.Data.List.Infix
import Vast.Core.Compatible

/-! # Comparing values

How a cell is compared with a literal. Numbers of different types compare by
value, doubles after a conversion; other values compare within their type, and
operators that a pair of types does not have are false. Regular expressions are
matched by the standard library.
-/

namespace Vast

/-- Which texts are regular expressions, and matching and searching text with a
regular expression, which comes first. -/
class Regex where
  valid : String → Bool
  fullMatch : String → String → Bool
  search : String → String → Bool

/-- Regular expressions that only match themselves. -/
@[reducible]
def literalRegex : Regex where
  valid := fun _ => true
  fullMatch := fun pattern text => pattern == text
  search := fun pattern text => pattern == text

namespace Double

/-! Doubles are their bit patterns. -/

def magnitude (bits : UInt64) : Nat :=
  bits.toNat % 2 ^ 63

def isNaN (bits : UInt64) : Bool :=
  0x7FF0000000000000 < magnitude bits

/-- The order of doubles is the order of their signed magnitudes. -/
def rank (bits : UInt64) : Int :=
  if 2 ^ 63 ≤ bits.toNat then -(magnitude bits : Int) else magnitude bits

/-- The comparison, undefined for a value that is not a number. -/
def compare (a b : UInt64) : Option Ordering :=
  if isNaN a || isNaN b then none else some (Ord.compare (rank a) (rank b))

/-- The magnitude of the double nearest to a positive number, ties to even. A carry
out of the mantissa increments the exponent. -/
def nearest (n : Nat) : Nat :=
  let exponent := n.log2
  let mantissa :=
    if exponent ≤ 52 then n * 2 ^ (52 - exponent)
    else
      let unit := 2 ^ (exponent - 52)
      let quotient := n / unit
      let twice := 2 * (n % unit)
      if unit < twice || (unit == twice && quotient % 2 == 1) then quotient + 1 else quotient
  (exponent + 1023) * 2 ^ 52 + (mantissa - 2 ^ 52)

def ofInt (value : Int) : UInt64 :=
  if value = 0 then 0
  else UInt64.ofNat (nearest value.natAbs + if value < 0 then 2 ^ 63 else 0)

end Double

namespace BasicData

def index : BasicData → Nat
  | .bool _ => 1
  | .int64 _ => 2
  | .uint64 _ => 3
  | .double _ => 4
  | .duration _ => 5
  | .time _ => 6
  | .string _ => 7
  | .pattern _ => 8
  | .ip _ => 9
  | .subnet _ _ => 10
  | .enumeration _ => 11

/-- The value of an integral number; the keys of enumerations are integral. -/
def toInt : BasicData → Option Int
  | .bool value => some (if value then 1 else 0)
  | .int64 value => some value.toInt
  | .uint64 value => some value.toNat
  | .enumeration key => some key.toNat
  | _ => none

def toDouble : BasicData → Option UInt64
  | .double bits => some bits
  | value => value.toInt.map Double.ofInt

def compare (a b : BasicData) : Option Ordering :=
  match a, b with
  | .duration x, .duration y => some (Ord.compare x.toInt y.toInt)
  | .time x, .time y => some (Ord.compare x.toInt y.toInt)
  | .string x, .string y => some (Ord.compare x y)
  | .pattern x, .pattern y => some (Ord.compare x y)
  | .ip x, .ip y => some (Ord.compare x.toNat y.toNat)
  | .subnet network length, .subnet network' length' =>
    some ((Ord.compare network.toNat network'.toNat).then
      (Ord.compare length.toNat length'.toNat))
  | a, b =>
    match a.toInt, b.toInt with
    | some x, some y => some (Ord.compare x y)
    | _, _ =>
      match a.toDouble, b.toDouble with
      | some x, some y => Double.compare x y
      | _, _ => none

def same (a b : BasicData) : Bool :=
  a.index == b.index && a.compare b == some .eq

/-- Whether the first value is less than the second, and the other way around,
within the sum type. -/
def order (a b : BasicData) : Bool × Bool :=
  (a.index < b.index || (a.index == b.index && a.compare b == some .lt),
    b.index < a.index || (a.index == b.index && a.compare b == some .gt))

end BasicData

namespace Data

def index : Data → Nat
  | .none => 0
  | .basic value => value.index
  | .list _ => 12
  | .map _ => 13
  | .record _ => 14

mutual

def same : Data → Data → Bool
  | .none, .none => true
  | .basic a, .basic b => a.same b
  | .list as, .list bs => sameList as bs
  | .map as, .map bs => sameEntries as bs
  | .record as, .record bs => sameFields as bs
  | _, _ => false
termination_by structural a => a

def sameList : List Data → List Data → Bool
  | [], [] => true
  | a :: as, b :: bs => same a b && sameList as bs
  | _, _ => false
termination_by structural as => as

def sameEntry : Data × Data → Data × Data → Bool
  | (key, a), (key', b) => same key key' && same a b
termination_by structural entry => entry

def sameEntries : List (Data × Data) → List (Data × Data) → Bool
  | [], [] => true
  | a :: as, b :: bs => sameEntry a b && sameEntries as bs
  | _, _ => false
termination_by structural as => as

def sameField : String × Data → String × Data → Bool
  | (name, a), (name', b) => name == name' && same a b
termination_by structural field => field

def sameFields : List (String × Data) → List (String × Data) → Bool
  | [], [] => true
  | a :: as, b :: bs => sameField a b && sameFields as bs
  | _, _ => false
termination_by structural as => as

end

def orderPair (first second : Bool × Bool) : Bool × Bool :=
  (first.1 || (!first.2 && second.1), first.2 || (!first.1 && second.2))

/-- A shorter container is less, and one of the same size is less when it is less
at some position. -/
def orderContainer (size size' : Nat) (positions : Bool × Bool) : Bool × Bool :=
  if size = size' then positions else (decide (size < size'), decide (size' < size))

mutual

/-- Whether the first value is less than the second, and the other way around,
within the sum type. -/
def order : Data → Data → Bool × Bool
  | .basic a, .basic b => a.order b
  | .list as, .list bs => orderContainer as.length bs.length (orderList as bs)
  | .map as, .map bs => orderContainer as.length bs.length (orderEntries as bs)
  | .record as, .record bs => orderContainer as.length bs.length (orderFields as bs)
  | a, b => (decide (a.index < b.index), decide (b.index < a.index))
termination_by structural a => a

def orderList : List Data → List Data → Bool × Bool
  | a :: as, b :: bs =>
    let head := order a b
    let tail := orderList as bs
    (head.1 || tail.1, head.2 || tail.2)
  | _, _ => (false, false)
termination_by structural as => as

def orderEntry : Data × Data → Data × Data → Bool × Bool
  | (key, a), (key', b) => orderPair (order key key') (order a b)
termination_by structural entry => entry

def orderEntries : List (Data × Data) → List (Data × Data) → Bool × Bool
  | a :: as, b :: bs =>
    let head := orderEntry a b
    let tail := orderEntries as bs
    (head.1 || tail.1, head.2 || tail.2)
  | _, _ => (false, false)
termination_by structural as => as

def orderField : String × Data → String × Data → Bool × Bool
  | (name, a), (name', b) =>
    orderPair (decide (name < name'), decide (name' < name)) (order a b)
termination_by structural field => field

def orderFields : List (String × Data) → List (String × Data) → Bool × Bool
  | a :: as, b :: bs =>
    let head := orderField a b
    let tail := orderFields as bs
    (head.1 || tail.1, head.2 || tail.2)
  | _, _ => (false, false)
termination_by structural as => as

end

end Data

/-! ## The cell evaluators -/

namespace Cell

variable [Regex]

variable (lhs rhs : Data)

def equal : Bool :=
  match lhs, rhs with
  | .basic (.string text), .basic (.pattern pattern) => Regex.fullMatch pattern text
  | .basic (.pattern pattern), .basic (.string text) => Regex.fullMatch pattern text
  | .basic a, .basic b => a.compare b == some .eq
  | a, b => a.same b

def less : Bool :=
  match lhs, rhs with
  | .basic a, .basic b => a.compare b == some .lt
  | .list _, .list _ | .map _, .map _ | .record _, .record _ => (lhs.order rhs).1
  | _, _ => false

def lessEqual : Bool :=
  match lhs, rhs with
  | .none, .none => true
  | .basic a, .basic b => a.compare b == some .lt || a.compare b == some .eq
  | .list _, .list _ | .map _, .map _ | .record _, .record _ => !(lhs.order rhs).2
  | _, _ => false

def contains (network : BitVec 128) (length : UInt8) (address : BitVec 128) : Bool :=
  address >>> (128 - length.toNat) == network >>> (128 - length.toNat)

def member : Bool :=
  match lhs, rhs with
  | .basic (.string part), .basic (.string whole) => decide (part.toList <:+: whole.toList)
  | .basic (.string text), .basic (.pattern pattern) => Regex.search pattern text
  | .basic (.ip address), .basic (.subnet network length) => contains network length address
  | .basic (.subnet inner innerLength), .basic (.subnet network length) =>
    length ≤ innerLength && contains network length inner
  | lhs, .list values => values.any (equal lhs)
  | _, _ => false

/-- The comparison of a value that is not null with a literal. -/
def evaluate (op : RelationalOperator) (lhs rhs : Data) : Bool :=
  match op with
  | .equal => equal lhs rhs
  | .notEqual => !equal lhs rhs
  | .less => less lhs rhs
  | .lessEqual => lessEqual lhs rhs
  | .greater => less rhs lhs
  | .greaterEqual => lessEqual rhs lhs
  | .in => member lhs rhs
  | .notIn => !member lhs rhs
  | .ni => member rhs lhs
  | .notNi => !member rhs lhs

/-- The comparison of a cell of a column with a literal. Null cells only compare
with nil, and a string stands for the key of an enumeration. -/
def column (op : RelationalOperator) (type : VastType) (cell rhs : Data) : Bool :=
  match rhs with
  | .none =>
    match op with
    | .equal => cell == .none
    | .notEqual => cell != .none
    | _ => false
  | rhs =>
    match type.resolveTransparent, rhs with
    | .enumeration fields, .basic (.string name) =>
      match VastType.resolveEnumeration fields name with
      | some key =>
        cell != .none && evaluate op cell (.basic (.enumeration (UInt8.ofNat key)))
      | none => false
    | _, rhs => cell != .none && evaluate op cell rhs

end Cell

/-! ## The evaluation of two values -/

namespace Data

variable [Regex]

def evalIn (lhs rhs : Data) : Bool :=
  match lhs, rhs with
  | .basic (.string part), .basic (.string whole) => decide (part.toList <:+: whole.toList)
  | .basic (.string text), .basic (.pattern pattern) => Regex.search pattern text
  | .basic (.ip address), .basic (.subnet network length) => Cell.contains network length address
  | .basic (.subnet inner innerLength), .basic (.subnet network length) =>
    length ≤ innerLength && Cell.contains network length inner
  | lhs, .list values => values.any fun value => value.same lhs
  | _, _ => false

def evalEqual (lhs rhs : Data) : Bool :=
  match lhs, rhs with
  | .basic (.string text), .basic (.pattern pattern) => Regex.fullMatch pattern text
  | .basic (.pattern pattern), .basic (.string text) => Regex.fullMatch pattern text
  | lhs, rhs => lhs.same rhs

/-- The evaluation outside of table slices, where the order is the one of the sum
type. -/
def evaluate (lhs : Data) (op : RelationalOperator) (rhs : Data) : Bool :=
  match op with
  | .in => evalIn lhs rhs
  | .notIn => !evalIn lhs rhs
  | .ni => evalIn rhs lhs
  | .notNi => !evalIn rhs lhs
  | .equal => evalEqual lhs rhs
  | .notEqual => !evalEqual lhs rhs
  | .less => (lhs.order rhs).1
  | .lessEqual => !(lhs.order rhs).2
  | .greater => (lhs.order rhs).2
  | .greaterEqual => !(lhs.order rhs).1

/-- A text that is compared with a string or a pattern in a table slice compares
in the same way outside. -/
theorem evaluate_of_cell {text : String} {op : RelationalOperator} {rhs : Data}
    (hrhs : rhs.isString = true ∨ rhs.isPattern = true)
    (hcell : Cell.evaluate op (.basic (.string text)) rhs = true) :
    evaluate (.basic (.string text)) op rhs = true := by
  match rhs, hrhs with
  | .basic (.string other), _ =>
    have hswap : Ord.compare other text = (Ord.compare text other).swap :=
      Std.OrientedCmp.eq_swap
    cases op <;>
      simp only [Cell.evaluate, evaluate, Cell.equal, evalEqual, Cell.less, Cell.lessEqual,
        Cell.member, evalIn, same, order, BasicData.same, BasicData.order,
        BasicData.index, BasicData.compare] at hcell ⊢ <;>
      cases hcompare : Ord.compare text other <;>
      simp_all
  | .basic (.pattern pattern), _ =>
    cases op <;>
      simp_all [Cell.evaluate, evaluate, Cell.equal, evalEqual, Cell.less, Cell.lessEqual,
        Cell.member, evalIn, BasicData.compare, BasicData.toInt, BasicData.toDouble]

end Data

end Vast
