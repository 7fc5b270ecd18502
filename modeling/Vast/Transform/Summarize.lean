import Vast.Core.KeySuffix
import Vast.Foundation.AssocList
import Vast.Queue.QueryQueue
import Vast.Table.Offsets

/-! # Summarizing rows

The rows of a schema are grouped by the values of some columns, and values of other
columns are aggregated per group. Consecutive rows of a group are added at once, as a part
of the arrays. A run of rows ends where another group begins or where the slice ends, so
that the runs depend on the order and on the slices. The results do not.
-/

namespace Vast

open Foundation List AssocList KeyedList

structure GroupByColumn where
  input : Offset
  timeResolution : Option Int64
  name : String
  type : VastType

namespace GroupByColumn

/-- The fields that the extractors name. Only times are rounded. -/
def bind (schema : VastType) (extractors : List String) (timeResolution : Option Int64) :
    List GroupByColumn :=
  extractors.flatMap fun extractor =>
    (RecordType.resolveKeySuffix extractor schema.name schema.fields).map fun offset =>
      let type := RecordType.fieldType schema.fields offset
      { input := offset
        timeResolution := if type.resolveTransparent = .basic .time then timeResolution else none
        name := RecordType.key schema.fields offset
        type }

/-- Of equal consecutive columns only the first one is kept. -/
def unique : List GroupByColumn → List GroupByColumn
  | [] => []
  | [column] => [column]
  | first :: second :: columns =>
    if first.input = second.input then unique (first :: columns)
    else first :: unique (second :: columns)

/-- The columns in the order of the schema, or nothing if there are none. -/
def make (schema : VastType) (extractors : List String) (timeResolution : Option Int64) :
    Option (List GroupByColumn) :=
  match bind schema extractors timeResolution with
  | [] => none
  | columns => some (unique (columns.mergeSort fun a b => decide (a.input ≤ b.input)))

variable {columns : List GroupByColumn}

/-- Columns in order have different inputs when equal ones are dropped. -/
theorem pairwise_unique (hsorted : columns.Pairwise fun a b => a.input ≤ b.input) :
    (unique columns).Pairwise (fun a b => a.input < b.input) ∧
      (∀ column ∈ unique columns, column ∈ columns) := by
  fun_induction unique columns with
  | case1 => simp
  | case2 => simp
  | case3 first second columns heq ih =>
    obtain ⟨hpairwise, hsubset⟩ := ih (hsorted.sublist (by simp))
    exact ⟨hpairwise, fun column hcol => by
      rcases mem_cons.mp (hsubset column hcol) with rfl | hmem <;> simp [*]⟩
  | case4 first second columns hne ih =>
    rw [pairwise_cons] at hsorted
    obtain ⟨hpairwise, hsubset⟩ := ih hsorted.2
    refine ⟨pairwise_cons.mpr ⟨fun column hcol => ?_, hpairwise⟩, ?_⟩
    · have hle := hsorted.1 second mem_cons_self
      have hlt := lt_of_le_of_ne hle hne
      rcases mem_cons.mp (hsubset column hcol) with rfl | hmem
      · exact hlt
      · exact hlt.trans_le ((pairwise_cons.mp hsorted.2).1 column hmem)
    · intro column hcol
      rcases mem_cons.mp hcol with rfl | hmem
      · simp
      · exact mem_cons_of_mem _ (hsubset column hmem)

theorem pairwise_make {schema : VastType} {extractors : List String} {timeResolution : Option Int64}
    (hmake : make schema extractors timeResolution = some columns) :
    columns.Pairwise fun a b => a.input < b.input := by
  unfold make at hmake
  split at hmake
  · cases hmake
  · cases hmake
    refine (pairwise_unique ?_).1
    have hsorted := @pairwise_mergeSort _ (fun a b : GroupByColumn => decide (a.input ≤ b.input))
      (fun a b c hab hbc => by simp at *; exact hab.trans hbc)
      (fun a b => by simpa using le_total a.input b.input) (bind schema extractors timeResolution)
    exact hsorted.imp of_decide_eq_true

end GroupByColumn

/-- An aggregation function. Adding an array is adding its values, and the order of the
values has no influence on the result. -/
structure AggregationFunction (σ : Type) where
  initial : σ
  add : σ → Data → σ
  addArray : σ → List Data → σ
  finish : σ → Except Error Data
  addArray_eq : ∀ state values, addArray state values = values.foldl add state
  finish_perm : ∀ {values others : List Data}, values.Perm others →
    finish (values.foldl add initial) = finish (others.foldl add initial)

/-- A column with aggregated values, bound to a schema. -/
structure AggregationColumn (σ : Type) where
  function : AggregationFunction σ
  inputs : List Offset

/-- An aggregation for one schema. The columns to group by are those of different fields,
in the order of the schema. Times are rounded down to a multiple of milliseconds. -/
structure Aggregation (σ : Type) where
  schema : VastType
  groupByColumns : List GroupByColumn
  aggregationColumns : List (AggregationColumn σ)
  floorTemporal : Int32 → Data → Data
  ordered : groupByColumns.Pairwise fun a b => a.input < b.input

/-- Bind the columns to group by. The others are bound already. -/
def Aggregation.make {σ : Type} (schema : VastType) (extractors : List String)
    (timeResolution : Option Int64) (aggregationColumns : List (AggregationColumn σ))
    (floorTemporal : Int32 → Data → Data) : Option (Aggregation σ) :=
  match hmake : GroupByColumn.make schema extractors timeResolution with
  | none => none
  | some groupByColumns =>
    some { schema, groupByColumns, aggregationColumns, floorTemporal
           ordered := GroupByColumn.pairwise_make hmake }

abbrev FilledSlice := { slice : TableSlice // slice.rows ≠ [] }

namespace Aggregation

variable {σ : Type} (aggregation : Aggregation σ) {key : List Data}

def valueAt (row : List Data) (offset : Offset) : Data :=
  TableSlice.cell row (RecordType.flatIndex aggregation.schema.fields offset)

/-- The milliseconds of a duration, as a machine integer. -/
def milliseconds (duration : Int64) : Int32 :=
  .ofInt (duration.toInt.tdiv 1000000)

def groupByKey (row : List Data) : List Data :=
  aggregation.groupByColumns.map fun column =>
    let value := aggregation.valueAt row column.input
    match column.timeResolution with
    | some resolution => aggregation.floorTemporal (milliseconds resolution) value
    | none => value

abbrev Buckets (σ : Type) := List (List Data × List σ)

def newBucket : List σ :=
  aggregation.aggregationColumns.map fun column => column.function.initial

variable (buckets : Buckets σ)

def findOrCreateBucket (row : List Data) : Buckets σ :=
  AssocList.emplace (aggregation.groupByKey row) aggregation.newBucket buckets

variable (rows : List (List Data))

variable (column : AggregationColumn σ)

/-- Add a run of rows to the state of a column. A single row is added by its values. -/
def updateColumn (state : σ) : σ :=
  column.inputs.foldl (fun state input =>
    match rows with
    | [row] => column.function.add state (aggregation.valueAt row input)
    | rows => column.function.addArray state (rows.map fun row => aggregation.valueAt row input))
    state

def updateBucket (bucket : List σ) : List σ :=
  List.zipWith (aggregation.updateColumn rows) aggregation.aggregationColumns bucket

/-- The loop over the rows behind the run of rows that is not added yet. -/
def addLoop (buckets : Buckets σ) (key : List Data) (run : List (List Data)) :
    List (List Data) → Buckets σ
  | [] => AssocList.adjust key (aggregation.updateBucket run) buckets
  | row :: rows =>
    let buckets := aggregation.findOrCreateBucket buckets row
    if aggregation.groupByKey row = key then addLoop buckets key (run ++ [row]) rows
    else
      addLoop (AssocList.adjust key (aggregation.updateBucket run) buckets)
        (aggregation.groupByKey row) [row] rows

def add (slice : FilledSlice) : Buckets σ :=
  let first := slice.1.rows.head slice.2
  aggregation.addLoop (aggregation.findOrCreateBucket buckets first)
    (aggregation.groupByKey first) [first] slice.1.rows.tail

def run (slices : List FilledSlice) : Buckets σ :=
  slices.foldl aggregation.add []

def finishBucket (entry : List Data × List σ) : Except Error (List Data) :=
  ((aggregation.aggregationColumns.zip entry.2).mapM fun part : AggregationColumn σ × σ =>
    part.1.function.finish part.2).map fun cells => entry.1 ++ cells

/-- The rows of the buckets, in the order in which the map is iterated over. -/
def finish : Except Error (List (List Data)) :=
  buckets.mapM aggregation.finishBucket

/-! ## Groups -/

def allRows (slices : List FilledSlice) : List (List Data) :=
  slices.flatMap fun slice => slice.1.rows

def inputValues : List Data :=
  column.inputs.flatMap fun input => rows.map fun row => aggregation.valueAt row input

/-- The state of a column holds the values of rows, in some order. -/
def Holds (state : σ) : Prop :=
  ∃ values : List Data, values.Perm (aggregation.inputValues rows column) ∧
    state = values.foldl column.function.add column.function.initial

/-- There is one bucket per key. It holds the rows with the key, apart from those of a run
that is not added yet. -/
structure Collected (rows run : List (List Data)) (buckets : Buckets σ) : Prop where
  nodup : (buckets.map Prod.fst).Nodup
  mem_iff : ∀ key, key ∈ buckets.map Prod.fst ↔
    key ∈ (rows ++ run).map aggregation.groupByKey
  holds : ∀ entry ∈ buckets, List.Forall₂ (aggregation.Holds
    (KeyedList.group aggregation.groupByKey rows entry.1)) aggregation.aggregationColumns entry.2

variable {aggregation} {rows pending : List (List Data)} {buckets : Buckets σ}

theorem updateColumn_eq (column : AggregationColumn σ) (state : σ) :
    aggregation.updateColumn pending column state =
      (aggregation.inputValues pending column).foldl column.function.add state := by
  rw [updateColumn, inputValues, foldl_flatMap]
  congr 1
  funext state input
  split
  next row => rfl
  · rw [column.function.addArray_eq]

theorem Holds.update {column : AggregationColumn σ} {state : σ}
    (hholds : aggregation.Holds rows column state) :
    aggregation.Holds (rows ++ pending) column (aggregation.updateColumn pending column state) := by
  obtain ⟨values, hperm, rfl⟩ := hholds
  refine ⟨values ++ aggregation.inputValues pending column, ?_, ?_⟩
  · simp only [inputValues, map_append]
    exact (hperm.append_right _).trans (flatMap_append_perm column.inputs _ _)
  · rw [updateColumn_eq, foldl_append]

theorem Collected.findOrCreate (hcoll : aggregation.Collected rows pending buckets)
    (row : List Data) :
    aggregation.Collected rows (pending ++ [row]) (aggregation.findOrCreateBucket buckets row) := by
  refine ⟨nodup_keys_emplace _ _ hcoll.nodup, fun key => ?_, ?_⟩
  · rw [findOrCreateBucket, mem_keys_emplace, hcoll.mem_iff]
    simp [or_assoc]
  · apply forall_mem_emplace hcoll.holds
    intro hnew
    rw [hcoll.mem_iff, map_append, mem_append, not_or] at hnew
    rw [group_of_not_mem hnew.1, newBucket, forall₂_map_right_iff, forall₂_same]
    exact fun column _ => ⟨[], by simp [inputValues], rfl⟩

theorem forall₂_updateBucket {bucket : List σ}
    (hholds : Forall₂ (aggregation.Holds rows) aggregation.aggregationColumns bucket) :
    Forall₂ (aggregation.Holds (rows ++ pending)) aggregation.aggregationColumns
      (aggregation.updateBucket pending bucket) := by
  rw [updateBucket]
  generalize aggregation.aggregationColumns = columns at hholds ⊢
  induction hholds with
  | nil => exact .nil
  | cons hholds _ ih => exact .cons hholds.update ih

theorem Collected.update {rest : List (List Data)}
    (hcoll : aggregation.Collected rows (pending ++ rest) buckets)
    (hrun : ∀ row ∈ pending, aggregation.groupByKey row = key) :
    aggregation.Collected (rows ++ pending) rest
      (adjust key (aggregation.updateBucket pending) buckets) := by
  refine ⟨?_, fun other => ?_, ?_⟩
  · rw [keys_adjust]
    exact hcoll.nodup
  · rw [keys_adjust, append_assoc]
    exact hcoll.mem_iff other
  · apply forall_mem_adjust
    · intro bucket hbucket
      have hgroup : group aggregation.groupByKey pending key = pending := by
        rw [group, filter_eq_self]
        exact fun row hrow => decide_eq_true (hrun row hrow)
      rw [group_append, hgroup]
      exact forall₂_updateBucket (hcoll.holds _ hbucket)
    · intro entry hentry hne
      have hgroup : group aggregation.groupByKey pending entry.1 = [] := by
        apply group_of_not_mem
        intro hmem
        obtain ⟨row, hrow, heq⟩ := mem_map.mp hmem
        exact hne (heq ▸ hrun row hrow)
      rw [group_append, hgroup, append_nil]
      exact hcoll.holds entry hentry

theorem Collected.addLoop (rest : List (List Data))
    (hcoll : aggregation.Collected rows pending buckets)
    (hrun : ∀ row ∈ pending, aggregation.groupByKey row = key) :
    aggregation.Collected (rows ++ pending ++ rest) []
      (aggregation.addLoop buckets key pending rest) := by
  induction rest generalizing rows pending buckets key with
  | nil =>
    rw [append_nil]
    exact Collected.update (by rwa [append_nil]) hrun
  | cons row rest ih =>
    have hcreated := hcoll.findOrCreate row
    rw [addLoop]
    split
    next hkey =>
      have hcontinued := ih hcreated (forall_mem_append.mpr ⟨hrun, forall_mem_singleton.mpr hkey⟩)
      simpa using hcontinued
    · have hstarted := ih (hcreated.update hrun) (forall_mem_singleton.mpr rfl)
      simpa using hstarted

theorem collected_run (slices : List FilledSlice) :
    aggregation.Collected (allRows slices) [] (aggregation.run slices) := by
  induction slices using reverseRecOn with
  | nil => exact ⟨by simp [run], by simp [run, allRows], by simp [run]⟩
  | append_singleton slices slice ih =>
    have hadded := (ih.findOrCreate (slice.1.rows.head slice.2)).addLoop slice.1.rows.tail
      (forall_mem_singleton.mpr rfl)
    rw [nil_append, append_assoc, singleton_append, cons_head_tail] at hadded
    rw [run, foldl_append, allRows, flatMap_append, flatMap_singleton]
    exact hadded

theorem Collected.perm {others : Buckets σ}
    (hcoll : aggregation.Collected rows pending buckets) (hperm : others.Perm buckets) :
    aggregation.Collected rows pending others where
  nodup := (hperm.map Prod.fst).nodup_iff.mpr hcoll.nodup
  mem_iff := fun key => (hperm.map Prod.fst).mem_iff.trans (hcoll.mem_iff key)
  holds := fun entry hentry => hcoll.holds entry (hperm.mem_iff.mp hentry)

/-! ## Results -/

def aggregate (values : List Data) : Except Error Data :=
  column.function.finish (values.foldl column.function.add column.function.initial)

variable (aggregation) in
/-- The row of a key: the key, and what the functions make of the rows with the key. -/
def summaryRow (rows : List (List Data)) (key : List Data) : Except Error (List Data) :=
  (aggregation.aggregationColumns.mapM fun column => aggregate column
    (aggregation.inputValues (KeyedList.group aggregation.groupByKey rows key) column)).map
      fun cells => key ++ cells

theorem finishBucket_eq {entry : List Data × List σ} (hholds : Forall₂
      (aggregation.Holds (group aggregation.groupByKey rows entry.1))
      aggregation.aggregationColumns entry.2) :
    aggregation.finishBucket entry = aggregation.summaryRow rows entry.1 := by
  rw [finishBucket]
  congr 1
  generalize aggregation.aggregationColumns = columns at hholds ⊢
  generalize entry.2 = states at hholds ⊢
  induction hholds with
  | nil => rfl
  | @cons column state columns states hholds _ ih =>
    obtain ⟨values, hperm, rfl⟩ := hholds
    rw [zip_cons_cons, mapM_cons, mapM_cons, ih]
    rw [column.function.finish_perm hperm]
    rfl

theorem finish_eq (hcoll : aggregation.Collected rows [] buckets) :
    aggregation.finish buckets = (buckets.map Prod.fst).mapM (aggregation.summaryRow rows) := by
  have hholds := hcoll.holds
  rw [finish]
  clear hcoll
  induction buckets with
  | nil => rfl
  | cons entry buckets ih =>
    rw [forall_mem_cons] at hholds
    rw [map_cons, mapM_cons, mapM_cons, finishBucket_eq hholds.1, ih hholds.2]

/-- The same rows in some order, or no rows in both cases. -/
def SameRows : Except Error (List (List Data)) → Except Error (List (List Data)) → Prop
  | .ok rows, .ok others => rows.Perm others
  | .error _, .error _ => True
  | _, _ => False

theorem SameRows.trans {first second third : Except Error (List (List Data))}
    (hfirst : SameRows first second) (hsecond : SameRows second third) : SameRows first third := by
  cases first <;> cases second <;> cases third <;> simp_all [SameRows]
  exact hfirst.trans hsecond

theorem sameRows_mapM {keys others : List (List Data)} (hperm : keys.Perm others)
    (row : List Data → Except Error (List Data)) : SameRows (keys.mapM row) (others.mapM row) := by
  induction hperm with
  | nil => exact Perm.refl []
  | @cons key keys others _ ih =>
    rw [mapM_cons, mapM_cons]
    cases row key with
    | error error => trivial
    | ok first =>
      cases hkeys : keys.mapM row <;> cases hothers : others.mapM row <;>
        rw [hkeys, hothers] at ih
      · trivial
      · cases ih
      · cases ih
      · exact Perm.cons first ih
  | swap first second keys =>
    simp only [mapM_cons]
    cases row first <;> cases row second <;> cases keys.mapM row <;>
      first | trivial | exact Perm.swap _ _ _
  | trans _ _ hfirst hsecond => exact hfirst.trans hsecond

theorem summaryRow_perm {others : List (List Data)} (hperm : rows.Perm others) :
    aggregation.summaryRow rows = aggregation.summaryRow others := by
  funext key
  rw [summaryRow]
  congr 2
  funext column
  apply column.function.finish_perm
  exact Perm.flatMap_left _ fun input _ => (hperm.filter _).map _

def count : AggregationFunction Nat where
  initial := 0
  add := fun state _ => state + 1
  addArray := fun state values => state + values.length
  finish := fun state => .ok (.basic (.uint64 (.ofNat state)))
  addArray_eq := by
    intro state values
    induction values generalizing state with
    | nil => rfl
    | cons value values ih =>
      rw [List.foldl_cons, ← ih, List.length_cons]
      omega
  finish_perm := by
    intro values others hperm
    rw [hperm.foldl_eq' (fun _ _ _ _ _ => rfl)]

def transfers : VastType :=
  .enriched (.record [("port", .basic .uint64), ("bytes", .basic .uint64)]) (some "flow") []

def transfer (port bytes : UInt64) : List Data :=
  [.basic (.uint64 port), .basic (.uint64 bytes)]

def transferSlice (entries : List (UInt64 × UInt64)) (hne : entries ≠ []) : FilledSlice where
  val :=
    { schema := transfers
      offset := none
      importTime := 0
      rows := entries.map fun entry => transfer entry.1 entry.2
      typed := by
        rw [forall_mem_map]
        intro entry _
        exact ⟨rfl, forall_mem_cons.mpr ⟨rfl, forall_mem_singleton.mpr rfl⟩⟩ }
  property := by simpa using hne

/-- The number of transfers per port. -/
def counting : Aggregation Nat where
  schema := transfers
  groupByColumns := [⟨[0], none, "port", .basic .uint64⟩]
  aggregationColumns := [⟨count, [[1]]⟩]
  floorTemporal := fun _ value => value
  ordered := pairwise_singleton ..

theorem make_counting : make transfers ["port"] none [⟨count, [[1]]⟩] (fun _ value => value) =
      some counting := by
  have hresolve : RecordType.resolveKeySuffix "port" transfers.name transfers.fields = [[0]] := by
    decide +kernel
  have hmake : GroupByColumn.make transfers ["port"] none =
      some [⟨[0], none, "port", .basic .uint64⟩] := by
    have hkey : RecordType.key transfers.fields [0] = "port" := by decide +kernel
    simp [GroupByColumn.make, GroupByColumn.bind, hresolve, hkey, GroupByColumn.unique]
    rfl
  unfold make
  split
  next hnone => simp [hmake] at hnone
  next hsome =>
    obtain rfl := Option.some.inj (hmake.symm.trans hsome)
    rfl

end Aggregation

end Vast
