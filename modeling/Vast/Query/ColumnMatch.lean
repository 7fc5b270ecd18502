import Vast.Evaluate.Expression
import Vast.Query.Tailor
import Vast.Query.Visitors

/-! # The columns of a predicate

A tailored predicate compares the columns that its extractor stands for. If the
tailored expression matches a row, then the expression may match the row in the
loose reading, in which an extractor may match when one of its columns does.
-/

namespace Vast

open List Connective
open Expression hiding none
open Evaluate RecordType

variable [Regex] {slice : TableSlice} {row : List Data} {op : RelationalOperator} {rhs : Data}

/-- Whether a type extractor stands for the columns of a type. -/
def extractsType (extractor : VastType) (op : RelationalOperator) (rhs : Data) (type : VastType) :
    Bool :=
  if !extractor.hasValue then
    TypeResolver.namedLike extractor op rhs type ||
      (extractor.name = "timestamp" && TypeResolver.hasTimestampAttribute type)
  else type.congruent extractor

/-- Whether a field extractor stands for a column. -/
def extractsField (schema : VastType) (field : String) (op : RelationalOperator) (rhs : Data)
    (leaf : Leaf (List String)) : Bool :=
  decide (leaf.offset ∈ resolveKeySuffix field schema.name schema.fields) &&
    compatible leaf.type op rhs

def columnMatches (slice : TableSlice) (row : List Data) (property : Leaf (List String) → Bool)
    (op : RelationalOperator) (rhs : Data) : Bool :=
  (leaves slice.schema.fields).zipIdx.any fun entry =>
    property entry.1 && Cell.column op entry.1.type (TableSlice.cell row entry.2) rhs

def mayMatch (slice : TableSlice) (row : List Data) (pred : Predicate) : Bool :=
  match pred.lhs, pred.rhs with
  | .metaExtractor kind, .data rhs => evaluateMetaExtractor slice kind pred.op rhs
  | .fieldExtractor field, .data rhs =>
    columnMatches slice row (extractsField slice.schema field pred.op rhs) pred.op rhs
  | .typeExtractor extractor, .data rhs =>
    columnMatches slice row (fun leaf => extractsType extractor pred.op rhs leaf.type) pred.op rhs
  | _, _ => true

theorem columnMatches_iff {property : Leaf (List String) → Bool} :
    columnMatches slice row property op rhs = true ↔
      ∃ column leaf, (leaves slice.schema.fields)[column]? = some leaf ∧ property leaf = true ∧
        Cell.column op leaf.type (TableSlice.cell row column) rhs = true := by
  simp only [columnMatches, any_eq_true, Prod.exists, mem_zipIdx_iff_getElem?, Bool.and_eq_true]
  exact exists_comm

theorem columnMatches_mono {property property' : Leaf (List String) → Bool}
    (hmono : ∀ leaf ∈ leaves slice.schema.fields, property leaf = true → property' leaf = true)
    (hmatches : columnMatches slice row property op rhs = true) :
    columnMatches slice row property' op rhs = true := by
  rw [columnMatches_iff] at hmatches ⊢
  obtain ⟨column, leaf, hleaf, hprop, hcell⟩ := hmatches
  exact ⟨column, leaf, hleaf, hmono leaf (mem_of_getElem? hleaf) hprop, hcell⟩

/-! ## Tailored predicates -/

namespace TypeResolver

variable {slice : TableSlice} {row : List Data} {operands : List Expression}

/-- If a connective of what is left matches a row, then one of the operands does. -/
theorem exists_of_holds_collected {kind : Connective}
    (hholds : holds slice row (collected kind operands) = true) :
    ∃ operand ∈ operands, holds slice row operand = true := by
  match operands, hholds with
  | [], hholds => cases hholds
  | [single], hholds => exact ⟨single, mem_cons_self, hholds⟩
  | first :: second :: rest, hholds =>
    rw [collected, holds_apply] at hholds
    cases kind with
    | all => exact ⟨first, mem_cons_self, (Bool.and_eq_true_iff.mp hholds).1⟩
    | any => simpa [combine] using hholds
    · simp
    · simp

variable {op : RelationalOperator}

theorem exists_of_holds_connect {connective : List Expression}
    (hholds : holds slice row (connect op connective) = true) :
    ∃ predicate ∈ connective, holds slice row predicate = true := by
  rw [connect_eq] at hholds
  exact exists_of_holds_collected hholds

theorem forall_of_holds_collected (hholds : holds slice row (collected .all operands) = true) :
    ∀ operand ∈ operands, holds slice row operand = true := by
  match operands, hholds with
  | [], _ => simp
  | [single], hholds => simpa [collected] using hholds
  | first :: second :: rest, hholds =>
    rw [collected, holds_apply] at hholds
    · simpa [combine] using hholds
    · simp
    · simp

theorem holds_bound {column : Nat} {leaf : Leaf (List String)}
    (hleaf : (leaves slice.schema.fields)[column]? = some leaf) (type : VastType)
    (op : RelationalOperator) (rhs : Data) : holds slice row (bound type column op rhs) =
      Cell.column op leaf.type (TableSlice.cell row column) rhs := by
  simp [bound, holds, predicateHolds, evaluateCell, hleaf]

variable {rhs : Data}

theorem columnMatches_of_resolveExtractor {property : VastType → Bool}
    (hholds : holds slice row (resolveExtractor slice.schema property op rhs) = true) :
    columnMatches slice row (fun leaf => property leaf.type) op rhs = true := by
  obtain ⟨predicate, hmem, hmatch⟩ := exists_of_holds_connect hholds
  obtain ⟨⟨leaf, column⟩, hentry, hsome⟩ := mem_filterMap.mp hmem
  rw [mem_zipIdx_iff_getElem?] at hentry
  split at hsome
  next hprop =>
    cases hsome
    rw [holds_bound hentry] at hmatch
    exact columnMatches_iff.mpr ⟨column, leaf, hentry, hprop, hmatch⟩
  · cases hsome

theorem columnMatches_of_resolveFieldExtractor {field : String}
    (hholds : holds slice row (resolveFieldExtractor slice.schema field op rhs) = true) :
    columnMatches slice row (extractsField slice.schema field op rhs) op rhs = true := by
  obtain ⟨predicate, hmem, hmatch⟩ := exists_of_holds_connect hholds
  obtain ⟨offset, hoffset, hsome⟩ := mem_filterMap.mp hmem
  obtain ⟨leaf, hleaf, rfl⟩ := exists_leaf_of_mem_resolveKeySuffix hoffset
  simp only [fieldType_of_mem_leaves hleaf] at hsome
  split at hsome
  next hcompatible =>
    cases hsome
    have hcol := getElem?_flatIndex hleaf
    rw [holds_bound hcol] at hmatch
    refine columnMatches_iff.mpr ⟨_, leaf, hcol, ?_, hmatch⟩
    rw [extractsField, hcompatible, Bool.and_true, decide_eq_true_eq]
    exact hoffset
  · cases hsome

variable {resolved : Expression}

theorem columnMatches_of_resolveTypeExtractor {extractor : VastType}
    (hresolve : resolveTypeExtractor slice.schema extractor op rhs = .ok resolved)
    (hholds : holds slice row resolved = true) :
    columnMatches slice row (fun leaf => extractsType extractor op rhs leaf.type) op rhs =
      true := by
  unfold resolveTypeExtractor at hresolve
  split at hresolve
  next hname =>
    have hextracts : ∀ type, extractsType extractor op rhs type =
        (namedLike extractor op rhs type ||
          (extractor.name = "timestamp" && hasTimestampAttribute type)) :=
      fun type => if_pos hname
    simp only [hextracts]
    split at hresolve
    next htimestamp =>
      split at hresolve
      · cases hresolve
      · cases hresolve
        rw [holds, holdsAny, holdsAny, holdsAny, Bool.or_false, Bool.or_eq_true] at hholds
        rcases hholds with hnamed | hattribute
        · apply columnMatches_mono _ (columnMatches_of_resolveExtractor hnamed)
          intro leaf _ hprop
          rw [hprop, Bool.true_or]
        · apply columnMatches_mono _ (columnMatches_of_resolveExtractor hattribute)
          intro leaf _ hprop
          simp [htimestamp, hprop]
    · cases hresolve
      apply columnMatches_mono _ (columnMatches_of_resolveExtractor hholds)
      intro leaf _ hprop
      rw [hprop, Bool.true_or]
  next hvalue =>
    cases hresolve
    simp only [extractsType, if_neg hvalue]
    exact columnMatches_of_resolveExtractor hholds

theorem mayMatch_of_resolvePredicate {pred : Predicate}
    (hresolve : resolvePredicate slice.schema pred = .ok resolved)
    (hholds : holds slice row resolved = true) : mayMatch slice row pred = true := by
  unfold resolvePredicate at hresolve
  unfold mayMatch
  split at hresolve
  next hlhs hrhs =>
    simp only [hlhs, hrhs]
    exact columnMatches_of_resolveTypeExtractor hresolve hholds
  next hlhs hrhs => simp [hlhs]
  next hlhs hrhs =>
    cases hresolve
    simp only [hlhs, hrhs]
    exact columnMatches_of_resolveFieldExtractor hholds
  next hlhs hrhs => simp [hlhs]
  · cases hresolve
    rw [holds, predicateHolds] at hholds
    split
    next hlhs hrhs => simpa [hlhs, hrhs] using hholds
    next hlhs hrhs => simp [hlhs] at hholds
    next hlhs hrhs => simp [hlhs] at hholds
    · rfl

theorem loosely_of_resolve {expr resolved : Expression}
    (hresolve : resolve slice.schema expr = .ok resolved)
    (hholds : holds slice row resolved = true) : loosely (mayMatch slice row) expr = true := by
  induction expr generalizing resolved with
  | none => rfl
  | negation => rfl
  | predicate pred => exact mayMatch_of_resolvePredicate hresolve hholds
  | connective kind operands ih =>
    rcases resolve_apply_cases hresolve with ⟨_, _, _, _, _, _, _, _, rfl⟩ |
      ⟨results, hresults, hne, rfl⟩
    · cases hholds
    rw [loosely_apply]
    cases kind with
    | all =>
      rw [filter_eq_self.mpr (by simpa using hne rfl)] at hholds
      have hall := forall_of_holds_collected hholds
      simp only [combine, all_map, all_eq_true]
      intro operand hoperand
      have hmem : resolve slice.schema operand ∈ results.map .ok := by
        rw [← hresults]
        exact mem_map_of_mem hoperand
      obtain ⟨result, hres, hoperand'⟩ := mem_map.mp hmem
      exact ih operand hoperand hoperand'.symm (hall result hres)
    | any =>
      obtain ⟨result, hres, hmatch⟩ := exists_of_holds_collected hholds
      have hmem : .ok result ∈ operands.map (resolve slice.schema) := by
        rw [hresults]
        exact mem_map_of_mem (mem_of_mem_filter hres)
      obtain ⟨operand, hoperand, hoperand'⟩ := mem_map.mp hmem
      simp only [combine, any_map, any_eq_true]
      exact ⟨operand, hoperand, ih operand hoperand hoperand' hmatch⟩

end TypeResolver

theorem loosely_of_tailor {expr tailored : Expression}
    (htailor : tailor expr slice.schema = .ok tailored) (hholds : holds slice row tailored = true) :
    loosely (mayMatch slice row) expr = true := by
  unfold tailor at htailor
  split at htailor
  · cases htailor
  · exact TypeResolver.loosely_of_resolve htailor hholds

end Vast
