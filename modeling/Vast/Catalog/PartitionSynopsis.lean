import Vast.Catalog.LookupResult
import Vast.Catalog.Synopsis
import Vast.Foundation.AssocList

/-! # Partition synopses

The catalog keeps a synopsis per partition. It has an entry for every leaf
column, with a synopsis of its own when the configuration has a rule for the
column, and an entry for every type of a column, whose synopsis the columns of
the type share. A predicate on a column is answered by the synopsis of the
column, or else by the one of its type; without either the partition is always
a candidate.
-/

namespace Vast

open Foundation RecordType

structure IndexRule where
  targets : List String
  fpRate : UInt64

structure IndexConfig where
  rules : List IndexRule
  defaultFpRate : UInt64

namespace IndexConfig

/-- Whether a target of a rule names the field. The character between the schema
name and the field name is not looked at. -/
def names (target : String) (field : QualifiedRecordField) : Bool :=
  target.toList.length = field.fieldName.toList.length + field.schemaName.toList.length + 1 &&
    (decide (field.schemaName.toList <+: target.toList) &&
      decide (field.fieldName.toList <:+ target.toList))

variable (config : IndexConfig)

/-- The rate of the first rule that has a target for the field. -/
def fieldFpRate (field : QualifiedRecordField) : Option UInt64 :=
  (config.rules.find? fun rule => rule.targets.any fun target => names target field).map
    IndexRule.fpRate

/-- The rate of the first rule that has the given target. Only strings and
addresses have one. -/
def targetFpRate (target : String) : UInt64 :=
  ((config.rules.find? fun rule => rule.targets.contains target).map IndexRule.fpRate).getD
    config.defaultFpRate

def typeFpRate : VastType → UInt64
  | .basic .string => config.targetFpRate ":string"
  | .basic .ip => config.targetFpRate ":ip"
  | _ => config.defaultFpRate

end IndexConfig

/-- The synopses of a partition, with the number of events and the interval of
their import times. -/
structure PartitionSynopsis where
  events : UInt64
  minImportTime : Int64
  maxImportTime : Int64
  version : UInt64
  schema : VastType
  typeSynopses : List (VastType × Option Synopsis)
  fieldSynopses : List (QualifiedRecordField × Option Synopsis)

namespace PartitionSynopsis

def initial (version : UInt64) : PartitionSynopsis where
  events := 0
  minImportTime := Int64.maxValue
  maxImportTime := Int64.minValue
  version := version
  schema := .none
  typeSynopses := []
  fieldSynopses := []

section Building

variable [BloomFilters]

/-- Columns with the attribute `skip` do not make a synopsis. -/
def makeSynopsis (type : VastType) (options : Synopsis.Options) : Option Synopsis :=
  if (type.findAttribute "skip").isSome then none else Synopsis.make type options

/-- Insert an entry unless the key has one, and add the column to the synopsis
of the entry, if there is one. -/
def feed {κ : Type} [DecidableEq κ] (key : κ) (fresh : Option Synopsis) (values : List Data)
    (entries : List (κ × Option Synopsis)) : List (κ × Option Synopsis) :=
  AssocList.adjust key (Option.map fun synopsis => synopsis.addColumn values)
    (AssocList.emplace key fresh entries)

def typeOptions (config : IndexConfig) : Synopsis.Options :=
  ⟨config.typeFpRate (.basic .string), config.typeFpRate (.basic .ip)⟩

def addColumn (config : IndexConfig) (synopsis : PartitionSynopsis) (leaf : Leaf (List String))
    (values : List Data) : PartitionSynopsis :=
  let key := QualifiedRecordField.ofLeaf synopsis.schema leaf
  { synopsis with
    fieldSynopses :=
      match config.fieldFpRate key with
      | some fpRate =>
        feed key (makeSynopsis leaf.type ⟨fpRate, fpRate⟩) values synopsis.fieldSynopses
      -- The lookup relies on an entry for the fields without a synopsis.
      | none => AssocList.emplace key none synopsis.fieldSynopses
    -- The first column of a type decides about the synopsis of the type.
    typeSynopses :=
      feed leaf.type.resolveTransparent (makeSynopsis leaf.type (typeOptions config)) values
        synopsis.typeSynopses }

def columns (slice : TableSlice) : List (Leaf (List String) × List Data) :=
  (leaves slice.schema.fields).zipIdx.map fun entry => (entry.1, slice.column entry.2)

/-- Add a slice. The first slice determines the schema. -/
def add (config : IndexConfig) (synopsis : PartitionSynopsis) (slice : TableSlice) :
    PartitionSynopsis :=
  let schema := if synopsis.schema.hasValue then synopsis.schema else slice.schema
  (columns slice).foldl (fun synopsis column => addColumn config synopsis column.1 column.2)
    { synopsis with schema := schema }

def shrinkEntry (entry : Option Synopsis) : Option Synopsis :=
  entry.map fun synopsis => synopsis.shrink.getD synopsis

def shrink (synopsis : PartitionSynopsis) : PartitionSynopsis :=
  { synopsis with
    fieldSynopses := AssocList.mapValues shrinkEntry synopsis.fieldSynopses
    typeSynopses := AssocList.mapValues shrinkEntry synopsis.typeSynopses }

end Building

/-! ## Lookup -/

/-- The synopsis that answers for a field with the given entry. -/
def consultedFor (synopsis : PartitionSynopsis) (field : QualifiedRecordField)
    (entry : Option Synopsis) : Option Synopsis :=
  match entry with
  | some own => some own
  | none => (synopsis.typeSynopses.lookup field.type.resolveTransparent).join

def consulted (synopsis : PartitionSynopsis) (field : QualifiedRecordField) : Option Synopsis :=
  synopsis.consultedFor field (synopsis.fieldSynopses.lookup field).join

/-- Whether the partition is a candidate for a predicate on the fields that match:
unless every matching field has a synopsis that answers no. -/
def selects [BloomFilters] (synopsis : PartitionSynopsis) (matching : QualifiedRecordField → Bool)
    (op : RelationalOperator) (rhs : Data) : Bool :=
  synopsis.fieldSynopses.any fun entry =>
    matching entry.1 &&
      match synopsis.consultedFor entry.1 entry.2 with
      | some consulted => consulted.lookup op rhs != some false
      | none => true

end PartitionSynopsis

end Vast
