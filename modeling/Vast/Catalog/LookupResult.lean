import Vast.Core.Expression

/-! # Results of a catalog lookup

The catalog answers a query with the candidate partitions of every schema it
knows, together with the expression to evaluate for that schema.
-/

namespace Vast

/-- A universally unique identifier of 16 bytes. -/
abbrev Uuid := BitVec 128

instance lawfulUuid : LawfulBEq Uuid := inferInstance

instance lawfulPair : LawfulBEq (Uuid × Uuid) := inferInstance

structure PartitionInfo where
  uuid : Uuid
  events : UInt64
  maxImportTime : Int64
  schema : VastType
  version : UInt64
  deriving DecidableEq

structure CandidateInfo where
  exp : Expression
  partitionInfos : List PartitionInfo
  deriving DecidableEq

/-- The candidates of all schemas, in the order in which the map is traversed. -/
structure CatalogLookupResult where
  candidateInfos : List (VastType × CandidateInfo)

namespace CatalogLookupResult

variable (result : CatalogLookupResult)

/-- Emptiness looks at the map of schemas, not at the partitions. -/
def empty : Bool :=
  result.candidateInfos.isEmpty

def size : Nat :=
  (result.candidateInfos.map fun entry => entry.2.partitionInfos.length).sum

/-- All candidates with the schema they are listed under, in traversal order. -/
def candidates : List (VastType × PartitionInfo) :=
  result.candidateInfos.flatMap fun entry => entry.2.partitionInfos.map fun info =>
    (entry.1, info)

theorem length_candidates : result.candidates.length = result.size := by
  simp [candidates, size]

end CatalogLookupResult

end Vast
