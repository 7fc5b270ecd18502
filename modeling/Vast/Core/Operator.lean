import Mathlib.Tactic.Common

/-! # Relational operators

The operators of query predicates, with the complement used to push negations
down and the mirror image used to move extractors to the left-hand side.
-/

namespace Vast

inductive RelationalOperator where
  | «in»
  | notIn
  | ni
  | notNi
  | equal
  | notEqual
  | less
  | lessEqual
  | greater
  | greaterEqual
  deriving DecidableEq, Repr

namespace RelationalOperator

/-- The operators whose complement is the plain form. Ordering operators are
not negated, although they have a complement as well. -/
def isNegated : RelationalOperator → Bool
  | .equal | .less | .lessEqual | .greater | .greaterEqual | .in | .ni => false
  | .notNi | .notIn | .notEqual => true

def negate : RelationalOperator → RelationalOperator
  | .equal => .notEqual
  | .notEqual => .equal
  | .less => .greaterEqual
  | .lessEqual => .greater
  | .greater => .lessEqual
  | .greaterEqual => .less
  | .in => .notIn
  | .notIn => .in
  | .ni => .notNi
  | .notNi => .ni

/-- The mirror image for exchanged operands: `<` becomes `>` and `in` becomes `ni`. -/
def flip : RelationalOperator → RelationalOperator
  | .equal => .equal
  | .notEqual => .notEqual
  | .less => .greater
  | .lessEqual => .greaterEqual
  | .greater => .less
  | .greaterEqual => .lessEqual
  | .in => .ni
  | .notIn => .notNi
  | .ni => .in
  | .notNi => .notIn

end RelationalOperator

end Vast
