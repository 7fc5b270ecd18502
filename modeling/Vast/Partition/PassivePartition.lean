import Mathlib.Data.List.Dedup
import Vast.Partition.EvaluatorRun
import Vast.Query.Tailor
import Vast.Query.Visitors
import Vast.Evaluate.Expression

/-! # Queries to a passive partition

A partition resolves an expression for its combined schema, asks the indexers of the
columns that the predicates stand for, and hands the ids of their answers to its store. A
column may have no indexer, and an indexer may fail.
-/

namespace Vast

open Foundation RecordType

/-! ## Predicates at positions -/

namespace Expression

variable (schema : VastType)

mutual

/-- The predicates for the columns of a schema, with their positions. Nothing is resolved
if a predicate fails. -/
def resolveAt : Expression → Offset → Option (List (Offset × Predicate))
  | .none, _ => Option.none
  | .conjunction operands, position => resolveOperandsAt operands position 0
  | .disjunction operands, position => resolveOperandsAt operands position 0
  | .negation operand, position => resolveAt operand (position ++ [0])
  | .predicate pred, position =>
    match TypeResolver.resolvePredicate schema pred with
    | .error _ => Option.none
    | .ok resolved => some (resolved.predicates.dedup.map fun pred => (position, pred))

def resolveOperandsAt : List Expression → Offset → Nat → Option (List (Offset × Predicate))
  | [], _, _ => some []
  | operand :: rest, position, index =>
    match resolveAt operand (position ++ [index]),
        resolveOperandsAt rest position (index + 1) with
    | some first, some others => some (first ++ others)
    | _, _ => Option.none

end

def resolvePositions (expr : Expression) : List (Offset × Predicate) :=
  (resolveAt schema expr [0]).getD []

end Expression

/-! ## Partitions -/

def QualifiedRecordField.name (field : QualifiedRecordField) : String :=
  if field.schemaName = "" then field.fieldName
  else if field.fieldName = "" then field.schemaName
  else field.schemaName ++ "." ++ field.fieldName

/-- A partition has slices of one schema, and indexers for some columns. -/
structure PassivePartition where
  schema : VastType
  slices : List TableSlice
  schema_eq : ∀ slice ∈ slices, slice.schema = schema
  hasIndexer : Nat → Bool

namespace PassivePartition

abbrev Event := TableSlice × List Data

/-- The lookups of the value indexes, by column; none is an error. -/
abbrev Lookup := Nat → RelationalOperator → Data → Option Ids

variable (partition : PassivePartition)

def events : List Event :=
  partition.slices.flatMap fun slice => slice.rows.map fun row => (slice, row)

/-- The fields are keys of a map: a field that is known already is not inserted again. -/
def insertField (fields : List (Nat × QualifiedRecordField)) (entry : Leaf (List String) × Nat) :
    List (Nat × QualifiedRecordField) :=
  let field := QualifiedRecordField.ofLeaf partition.schema entry.1
  if fields.any fun other => other.2 == field then fields else fields ++ [(entry.2, field)]

/-- The fields that have an entry for an indexer, with their leaf columns. -/
def fields : List (Nat × QualifiedRecordField) :=
  (leaves partition.schema.fields).zipIdx.foldl partition.insertField []

def combinedSchema : VastType :=
  .record (partition.fields.map fun entry => (entry.2.name, entry.2.type))

def typeIds : List (String × Ids) :=
  if partition.slices.isEmpty then []
  else [(partition.schema.name, List.replicate partition.events.length true)]

def allIds : Ids :=
  partition.typeIds.foldl (fun ids entry => Bitmap.or ids entry.2) []

section Evaluation

variable [Regex]

/-- The answer of a one-shot indexer for a meta extractor. -/
def rowIds (kind : MetaExtractor) (op : RelationalOperator) (x : Data) : Ids :=
  match kind with
  | .type => partition.typeIds.foldl (fun ids entry =>
    if Data.evaluate (.basic (.string entry.1)) op x then Bitmap.or ids entry.2 else ids) []
  | .importTime => partition.allIds

/-- The indexer of a predicate. A one-shot indexer is none of those of the columns. -/
def fetchIndexer (pred : Predicate) : Option Nat :=
  match pred.lhs, pred.rhs with
  | .metaExtractor _, .data _ => some partition.fields.length
  | .dataExtractor _ column, .data _ => if partition.hasIndexer column then some column else none
  | _, _ => none

variable (expr : Expression)

def evaluate : List EvaluationTriple :=
  (expr.resolvePositions partition.combinedSchema).map fun entry =>
    ⟨entry.1, entry.2, partition.fetchIndexer entry.2⟩

def idsForEvaluation (triples : List EvaluationTriple) : Ids :=
  if triples.any fun triple => triple.indexer.isNone then partition.allIds else []

def answer (lookup : Lookup) (pred : Predicate) : Option Ids :=
  match pred.lhs, pred.rhs with
  | .metaExtractor kind, .data x => some (partition.rowIds kind pred.op x)
  | .dataExtractor _ column, .data x => lookup column pred.op x
  | _, _ => none

def answers (lookup : Lookup) (expr : Expression) : List (EvaluationTriple × Option Ids) :=
  ((partition.evaluate expr).filter fun triple => triple.indexer.isSome).map fun triple =>
    (triple, partition.answer lookup triple.predicate)

variable (replies : List (EvaluationTriple × Option Ids))

/-- The ids that are handed to the store when all replies have come in. The store is not
asked if there are no indexers at all or if there is nothing to evaluate. -/
def handed : Option Ids :=
  if partition.fields = [] ∨ partition.evaluate expr = [] then none
  else
    (replies.foldl EvaluatorState.reply (EvaluatorState.run expr (partition.evaluate expr)
      (partition.idsForEvaluation (partition.evaluate expr)))).sent.head?

/-! ## Matching events -/

/-- Whether the cell of an event in a column of the combined schema matches. -/
def cellMatches (event : Event) (column : Nat) (op : RelationalOperator) (x : Data) : Bool :=
  match partition.fields[column]? with
  | some entry => Evaluate.evaluateCell event.1 entry.1 op x event.2
  | none => false

def Matches (event : Event) : Prop :=
  ∃ tailored, tailor expr event.1.schema = .ok tailored ∧
    Evaluate.holds event.1 event.2 tailored = true

/-- The indexes return all matching events unless they fail. -/
def Sound (lookup : Lookup) : Prop :=
  ∀ column op x ids, lookup column op x = some ids → ∀ id event,
    partition.events[id]? = some event → partition.cellMatches event column op x = true →
      ids.test id = true

variable (fails : Nat → RelationalOperator → Data → Bool)

/-- The lookups that fail, whatever the others return. -/
def FailsExactly (lookup : Lookup) : Prop :=
  ∀ column op x, lookup column op x = none ↔ fails column op x = true

/-- No matching event is lost: its id is handed to the store, or no restriction at all. -/
def KeepsEvents : Prop :=
  ∀ id event, partition.events[id]? = some event → Matches expr event →
    ∃ ids, partition.handed expr replies = some ids ∧ (ids = [] ∨ ids.test id = true)

/-- No event is lost for any sound indexes that fail as given and any order of replies. -/
def LosesNothing : Prop :=
  ∀ lookup, partition.Sound lookup → FailsExactly fails lookup →
    ∀ replies, replies.Perm (partition.answers lookup expr) → partition.KeepsEvents expr replies

end Evaluation

end PassivePartition

end Vast
