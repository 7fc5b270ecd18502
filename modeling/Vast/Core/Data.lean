import Mathlib.Algebra.Order.Ring.Nat

/-! # Values

The values of query literals and table cells. Integers are machine integers,
time points and durations count nanoseconds, and a double is its bit pattern.
-/

namespace Vast

/-- Values without further structure. -/
inductive BasicData where
  | bool (value : Bool)
  | int64 (value : Int64)
  | uint64 (value : UInt64)
  | double (bits : UInt64)
  | duration (count : Int64)
  | time (count : Int64)
  | string (value : String)
  | pattern (value : String)
  | ip (bytes : BitVec 128)
  | subnet (network : BitVec 128) (length : UInt8)
  | enumeration (key : UInt8)
  deriving DecidableEq

/-- A value. The empty alternative is the nil value that every type admits. -/
inductive Data where
  | none
  | basic (value : BasicData)
  | list (values : List Data)
  | map (entries : List (Data × Data))
  | record (fields : List (String × Data))

namespace Data

mutual

def beq : Data → Data → Bool
  | .none, .none => true
  | .basic a, .basic b => a == b
  | .list as, .list bs => beqList as bs
  | .map as, .map bs => beqEntries as bs
  | .record as, .record bs => beqFields as bs
  | _, _ => false
termination_by structural a => a

def beqList : List Data → List Data → Bool
  | [], [] => true
  | a :: as, b :: bs => beq a b && beqList as bs
  | _, _ => false
termination_by structural as => as

def beqEntry : Data × Data → Data × Data → Bool
  | (k, a), (l, b) => beq k l && beq a b
termination_by structural entry => entry

def beqEntries : List (Data × Data) → List (Data × Data) → Bool
  | [], [] => true
  | a :: as, b :: bs => beqEntry a b && beqEntries as bs
  | _, _ => false
termination_by structural as => as

def beqField : String × Data → String × Data → Bool
  | (n, a), (m, b) => n == m && beq a b
termination_by structural field => field

def beqFields : List (String × Data) → List (String × Data) → Bool
  | [], [] => true
  | a :: as, b :: bs => beqField a b && beqFields as bs
  | _, _ => false
termination_by structural as => as

end

mutual

theorem beq_iff : ∀ a b : Data, beq a b = true ↔ a = b
  | .none, b | .basic _, b => by cases b <;> simp [beq]
  | .list as, b => by cases b <;> simp [beq, beqList_iff as]
  | .map as, b => by cases b <;> simp [beq, beqEntries_iff as]
  | .record as, b => by cases b <;> simp [beq, beqFields_iff as]

theorem beqList_iff : ∀ as bs : List Data, beqList as bs = true ↔ as = bs
  | [], bs => by cases bs <;> simp [beqList]
  | a :: as, bs => by cases bs <;> simp [beqList, beq_iff a, beqList_iff as]

theorem beqEntries_iff : ∀ as bs : List (Data × Data), beqEntries as bs = true ↔ as = bs
  | [], bs => by cases bs <;> simp [beqEntries]
  | (_, _) :: _, [] => by simp [beqEntries]
  | (k, a) :: as, (l, b) :: bs => by
    simp [beqEntries, beqEntry, beq_iff k l, beq_iff a b, beqEntries_iff as bs]

theorem beqFields_iff : ∀ as bs : List (String × Data), beqFields as bs = true ↔ as = bs
  | [], bs => by cases bs <;> simp [beqFields]
  | (_, _) :: _, [] => by simp [beqFields]
  | (_, a) :: as, (_, b) :: bs => by
    simp [beqFields, beqField, beq_iff a b, beqFields_iff as bs]

end

instance : DecidableEq Data := fun a b => decidable_of_iff (beq a b = true) (beq_iff a b)

def isContainer : Data → Bool
  | .list _ | .map _ | .record _ => true
  | _ => false

end Data

end Vast
