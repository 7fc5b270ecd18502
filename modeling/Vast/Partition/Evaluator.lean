import Vast.Core.Expression
import Vast.Foundation.Bitmap

/-! # The evaluator

An evaluator sends the predicates of an expression to the indexers of a
partition and combines the answers into the ids of the events that match. It
evaluates the expression again whenever the answers for a predicate are
complete, and delivers the accumulated hits after the last answer.
-/

namespace Vast

open Foundation

abbrev Ids := Bitmap

/-- A predicate with its position in the expression and the indexer to ask, if
the column has one. The root of an expression is at position 0, and the operands
of a node are numbered below it. -/
structure EvaluationTriple where
  position : Offset
  predicate : Predicate
  indexer : Option Nat
  deriving DecidableEq

/-- For every position the number of missing answers and the hits so far. -/
abbrev PredicateHits := Offset → Option (Nat × Ids)

namespace IdsEvaluator

/-! The visitor keeps the position of the current node. -/

def push (position : Offset) : Offset :=
  position ++ [0]

def pop (position : Offset) : Offset :=
  position.dropLast

def next (position : Offset) : Offset :=
  position.modify (position.length - 1) (· + 1)

mutual

/-- Visit a node, starting at the given position. The visitor asserts that
connectives have operands. -/
def visit (hits : PredicateHits) : Expression → Offset → Ids × Offset
  | .none, position => ([], position)
  | .conjunction [], position => ([], position)
  | .conjunction (x :: xs), position =>
    let (result, position) := visit hits x (push position)
    let (result, position) := visitRest hits Bitmap.and xs result position
    (result, pop position)
  | .disjunction [], position => ([], position)
  | .disjunction (x :: xs), position =>
    let (result, position) := visit hits x (push position)
    let (result, position) := visitRest hits Bitmap.or xs result position
    (result, pop position)
  | .negation x, position =>
    let (result, position) := visit hits x (push position)
    (result.flip, pop position)
  | .predicate _, position =>
    match hits position with
    | some (_, ids) => (ids, position)
    | none => ([], position)

def visitRest (hits : PredicateHits) (combine : Ids → Ids → Ids) :
    List Expression → Ids → Offset → Ids × Offset
  | [], result, position => (result, position)
  | x :: xs, result, position =>
    let (ids, position) := visit hits x (next position)
    visitRest hits combine xs (combine result ids) position

end

def run (hits : PredicateHits) (expr : Expression) : Ids :=
  (visit hits expr (push [])).1

end IdsEvaluator

/-- The state of an evaluator. A promise sends one response and ignores any
further ones. -/
structure EvaluatorState where
  expr : Expression
  eval : List EvaluationTriple
  idsToUseForNoIndexer : Ids
  pendingResponses : Nat := 0
  predicateHits : PredicateHits := fun _ => none
  hits : Ids := []
  promisePending : Bool := true
  sent : List Ids := []

namespace EvaluatorState

variable (state : EvaluatorState)

def deliver (ids : Ids) : EvaluatorState :=
  if state.promisePending then
    { state with promisePending := false, sent := state.sent ++ [ids] }
  else
    state

def evaluate : EvaluatorState :=
  { state with hits := state.hits.or (IdsEvaluator.run state.predicateHits state.expr) }

def decrementPending : EvaluatorState :=
  let state := { state with pendingResponses := state.pendingResponses - 1 }
  if state.pendingResponses = 0 then state.deliver state.hits else state

variable (position : Offset)

/-- Count an answer for a position and add its ids. The position is known,
because the request counted it. -/
def handleAnswer (ids : Ids) : EvaluatorState :=
  match state.predicateHits position with
  | none => state
  | some (missing, accumulated) =>
    let state := { state with
      predicateHits := Function.update state.predicateHits position
        (some (missing - 1, Bitmap.or accumulated ids)) }
    let state := if missing - 1 = 0 then state.evaluate else state
    state.decrementPending

def handleResult (result : Ids) : EvaluatorState :=
  state.handleAnswer position result

/-- An error leaves the accumulated hits as they are. -/
def handleMissingResult : EvaluatorState :=
  state.handleAnswer position []

def handleNoIndexer : EvaluatorState :=
  state.handleResult position state.idsToUseForNoIndexer

/-- Count a triple as missing, and answer it at once if there is no indexer. -/
def start (triple : EvaluationTriple) : EvaluatorState :=
  let (missing, accumulated) := (state.predicateHits triple.position).getD (0, [])
  let state := { state with
    predicateHits := Function.update state.predicateHits triple.position
      (some (missing + 1, accumulated)) }
  match triple.indexer with
  | none => state.handleNoIndexer triple.position
  | some _ => state

def run (expr : Expression) (eval : List EvaluationTriple) (idsToUseForNoIndexer : Ids) :
    EvaluatorState :=
  let state := eval.foldl start {
    expr := expr
    eval := eval
    idsToUseForNoIndexer := idsToUseForNoIndexer
    pendingResponses := eval.length }
  if state.pendingResponses = 0 then state.deliver [] else state

/-- The handler of the answer to a request: ids, or an error. -/
def reply (answer : EvaluationTriple × Option Ids) : EvaluatorState :=
  match answer.2 with
  | some ids => state.handleResult answer.1.position ids
  | none => state.handleMissingResult answer.1.position

end EvaluatorState

end Vast
