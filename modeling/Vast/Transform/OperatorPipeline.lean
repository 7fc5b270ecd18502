import Vast.Table.Offsets
import Vast.Transform.Transformer

/-! # Pipelines of operators

A pipeline passes the slices it was given through its operators. Slices that it does not
apply to skip all operators and come first in the result. The import times of transformed
slices are taken from the import times of all slices in the order of their arrival.
-/

namespace Vast

/-- An operator. Finishing resets its state, so that every queue starts with the initial
one. -/
structure PipelineOperator (σ : Type) where
  isAggregate : Bool := false
  initial : σ
  add : σ → TableSlice → Except Error σ
  finish : σ → Except Error (List TableSlice)

structure OperatorPipeline (σ : Type) where
  schemaNames : List String := []
  operators : List (PipelineOperator σ) := []

/-- The slices that were added since the last call of `finish`, and their import times. -/
structure PipelineQueue where
  toTransform : List TableSlice := []
  importTimestamps : List Int64 := []

variable {σ : Type}

def TableSlice.withImportTime (slice : TableSlice) (importTime : Int64) : TableSlice :=
  { slice with importTime }

namespace PipelineOperator

def aborted (error : Error) : Error :=
  { error with message := "transform aborts because of an error: " ++ error.message }

def addQueue (op : PipelineOperator σ) (skips : TableSlice → Bool) (state : σ)
    (result : List TableSlice) : List TableSlice → Except Error (σ × List TableSlice)
  | [] => .ok (state, result)
  | slice :: queue =>
    if skips slice then op.addQueue skips state (result ++ [slice]) queue
    else
      match op.add state slice with
      | .error error => .error (aborted error)
      | .ok state => op.addQueue skips state result queue

def hasRows (slice : TableSlice) : Bool :=
  !slice.rows.isEmpty

variable (op : PipelineOperator σ)

variable (skips : TableSlice → Bool)

/-- The result with the skipped slices, and the queue for the next operator. -/
def processQueue
    (result queue : List TableSlice) : Except Error (List TableSlice × List TableSlice) :=
  match op.addQueue skips op.initial result queue with
  | .error error => .error error
  | .ok (state, result) =>
    (op.finish state).map fun finished => (result, finished.filter hasRows)

def run (slices : List TableSlice) : Except Error (List TableSlice) :=
  match op.addQueue (fun _ => false) op.initial [] slices with
  | .error error => .error error
  | .ok (state, _) => op.finish state

theorem addQueue_eq (state : σ)
    (result other queue : List TableSlice) : op.addQueue skips state result queue =
      (op.addQueue (fun _ => false) state other (queue.filter fun slice => !skips slice)).map
        fun added => (added.1, result ++ queue.filter skips) := by
  induction queue generalizing state result with
  | nil => simp [addQueue, Except.map]
  | cons slice queue ih =>
    cases hskips : skips slice with
    | true => simp [addQueue, hskips, ih]
    | false =>
      simp only [addQueue, hskips, Bool.false_eq_true, Bool.not_false, List.filter_cons_of_pos,
        List.filter_cons_of_neg, not_false_eq_true]
      cases op.add state slice with
      | error error => rfl
      | ok state => exact ih state result

/-- Skipped slices are put behind the result, and the operator runs on the others. -/
theorem processQueue_eq (result queue : List TableSlice) : op.processQueue skips result queue =
      (op.run (queue.filter fun slice => !skips slice)).map fun finished =>
        (result ++ queue.filter skips, finished.filter hasRows) := by
  rw [processQueue, addQueue_eq op skips op.initial result [], run]
  cases op.addQueue (fun _ => false) op.initial [] (queue.filter fun slice => !skips slice) with
  | error error => rfl
  | ok added => rfl

end PipelineOperator

namespace OperatorPipeline

open PipelineOperator List TableSlice

def isAggregate (pipeline : OperatorPipeline σ) : Bool :=
  pipeline.operators.any PipelineOperator.isAggregate

variable (pipeline : OperatorPipeline σ)

def appliesTo (eventName : String) : Bool :=
  pipeline.schemaNames.isEmpty || pipeline.schemaNames.contains eventName

/-- The loop over the operators. Only the first one checks the schemas. -/
def finishLoop (pipeline : OperatorPipeline σ) (firstRun : Bool) (result queue : List TableSlice) :
    List (PipelineOperator σ) → Except Error (List TableSlice)
  | [] => .ok (result ++ queue)
  | op :: operators =>
    match op.processQueue (fun slice => firstRun && !pipeline.appliesTo slice.schema.name)
      result queue with
    | .error error => .error error
    | .ok (result, queue) => pipeline.finishLoop false result queue operators

def finishBatch (queue : List TableSlice) : Except Error (List TableSlice) :=
  pipeline.finishLoop true [] queue pipeline.operators

/-- What operators make of slices one after the other. -/
def transform (operators : List (PipelineOperator σ)) (queue : List TableSlice) :
    Except Error (List TableSlice) :=
  operators.foldlM (fun queue op => (op.run queue).map fun finished => finished.filter hasRows)
    queue

theorem finishLoop_false (result queue : List TableSlice)
    (operators : List (PipelineOperator σ)) : pipeline.finishLoop false result queue operators =
      (transform operators queue).map fun queue => result ++ queue := by
  induction operators generalizing queue with
  | nil => rfl
  | cons op operators ih =>
    simp only [finishLoop, processQueue_eq, transform, foldlM_cons, Bool.false_and,
      Bool.not_false, filter_true, filter_false, append_nil]
    cases op.run queue with
    | error error => rfl
    | ok finished => exact ih (finished.filter hasRows)

/-- Slices that the pipeline does not apply to skip all operators, if there are any. -/
theorem finishBatch_eq (queue : List TableSlice)
    (hoperators : pipeline.operators ≠ []) : pipeline.finishBatch queue =
      (transform pipeline.operators
        (queue.filter fun slice => pipeline.appliesTo slice.schema.name)).map fun finished =>
          queue.filter (fun slice => !pipeline.appliesTo slice.schema.name) ++ finished := by
  obtain ⟨op, operators, heq⟩ := exists_cons_of_ne_nil hoperators
  simp only [finishBatch, heq, finishLoop, processQueue_eq, transform, foldlM_cons, Bool.true_and,
    Bool.not_not]
  cases op.run (queue.filter fun slice => pipeline.appliesTo slice.schema.name) with
  | error error => rfl
  | ok finished => exact finishLoop_false ..

/-! ## Import times -/

variable (queue : PipelineQueue) {importTimestamps : List Int64} {slices : List TableSlice}

def add (slice : TableSlice) : PipelineQueue where
  toTransform := queue.toTransform ++ [slice]
  importTimestamps := queue.importTimestamps ++ [slice.importTime]

/-- Slices without an import time get the next one, and empty slices are dropped. -/
def assignTimes (importTimestamps : List Int64) (i : Nat) : List TableSlice → List TableSlice
  | [] => []
  | slice :: slices =>
    if slice.rows.isEmpty then assignTimes importTimestamps i slices
    else if slice.importTime = 0 then
      slice.withImportTime (importTimestamps.getD i 0) ::
        assignTimes importTimestamps (i + 1) slices
    else slice :: assignTimes importTimestamps i slices

/-- Slices without an import time get the given one, and empty slices are dropped. -/
def assignTime (importTime : Int64) (slices : List TableSlice) : List TableSlice :=
  (slices.filter hasRows).map fun slice =>
    if slice.importTime = 0 then slice.withImportTime importTime else slice

/-- If there are as many results as slices, they are taken to be aligned. -/
def finishQueue : Except Error (List TableSlice) :=
  (pipeline.finishBatch queue.toTransform).map fun finished =>
    if pipeline.isAggregate || finished.length != queue.importTimestamps.length then
      assignTime (queue.importTimestamps.foldl max (queue.importTimestamps.headD 0)) finished
    else assignTimes queue.importTimestamps 0 finished

/-- The queue is cleared in any case. -/
def finish : Except Error (List TableSlice) × PipelineQueue :=
  (pipeline.finishQueue queue, {})

theorem hasRows_of_mem_assignTimes {i : Nat} {slice : TableSlice}
    (hslice : slice ∈ assignTimes importTimestamps i slices) : slice.rows ≠ [] := by
  fun_induction assignTimes importTimestamps i slices <;> grind [withImportTime]

/-- A pipeline of operators is one that the transformer can use. -/
def toPipeline : Pipeline PipelineQueue where
  add := fun queue slice => (none, add queue slice)
  finish := pipeline.finishQueue
  rows_ne_nil := by
    intro queue slices hfinish slice hslice
    rw [finishQueue] at hfinish
    cases hbatch : pipeline.finishBatch queue.toTransform with
    | error error => rw [hbatch] at hfinish; cases hfinish
    | ok finished =>
      rw [hbatch] at hfinish
      cases hfinish
      dsimp only at hslice
      split at hslice
      · simp only [assignTime, List.mem_map, List.mem_filter, hasRows] at hslice
        grind [TableSlice.withImportTime]
      · exact hasRows_of_mem_assignTimes hslice

/-- An operator maps each slice to one slice with rows, whose import time is not set. -/
structure OneToOne (op : PipelineOperator σ) (f : TableSlice → TableSlice) : Prop where
  run_eq : ∀ slices, op.run slices = .ok (slices.map f)
  rows_ne_nil : ∀ slice, (f slice).rows ≠ []
  importTime_eq : ∀ slice, (f slice).importTime = 0

/-- What becomes of a slice, with its import time. -/
def outcome (fs : List (TableSlice → TableSlice)) (slice : TableSlice) : TableSlice :=
  if pipeline.appliesTo slice.schema.name then
    (fs.foldl (fun slice f => f slice) slice).withImportTime slice.importTime
  else slice

/-- The slices that the results are made from, in the order of the results. -/
def origins (slices : List TableSlice) : List TableSlice :=
  if pipeline.operators = [] then slices.filter hasRows
  else (slices.filter fun slice => !pipeline.appliesTo slice.schema.name).filter hasRows ++
    slices.filter fun slice => pipeline.appliesTo slice.schema.name

/-- Each slice of the result has the import time of the slice it is made from. -/
def TimesFollow (fs : List (TableSlice → TableSlice)) (slices : List TableSlice) : Prop :=
  (pipeline.finish (slices.foldl add {})).1 =
    .ok ((pipeline.origins slices).map (pipeline.outcome fs))

theorem finishQueue_of_aligned {pipeline : OperatorPipeline σ} {queue : PipelineQueue}
    {finished : List TableSlice} (haggregate : pipeline.isAggregate = false)
    (hbatch : pipeline.finishBatch queue.toTransform = .ok finished)
    (hlen : finished.length = queue.importTimestamps.length) :
    pipeline.finishQueue queue = .ok (assignTimes queue.importTimestamps 0 finished) := by
  simp [finishQueue, hbatch, Except.map, haggregate, hlen]

theorem foldl_add (queue : PipelineQueue) (slices : List TableSlice) :
    slices.foldl add queue = ⟨queue.toTransform ++ slices,
      queue.importTimestamps ++ slices.map importTime⟩ := by
  induction slices generalizing queue with
  | nil => simp
  | cons slice slices ih => simp [ih, add]

section Times

variable {op : PipelineOperator σ} {operators : List (PipelineOperator σ)}
  {fs : List (TableSlice → TableSlice)}

theorem transform_of_oneToOne (hops : Forall₂ OneToOne operators fs)
    (queue : List TableSlice) :
    transform operators queue = .ok (queue.map fun slice => fs.foldl (fun s f => f s) slice) := by
  induction hops generalizing queue with
  | nil => simp; rfl
  | @cons op f operators fs hop hops ih =>
    have hrows : (queue.map f).filter hasRows = queue.map f := by
      simp [hasRows, hop.rows_ne_nil]
    rw [transform, foldlM_cons, hop.run_eq]
    change transform operators ((queue.map f).filter hasRows) = _
    rw [hrows, ih, map_map]
    rfl

theorem foldl_of_oneToOne (hops : Forall₂ OneToOne operators fs) (hne : operators ≠ [])
    (slice : TableSlice) : (fs.foldl (fun s f => f s) slice).rows ≠ [] ∧
      (fs.foldl (fun s f => f s) slice).importTime = 0 := by
  induction hops generalizing slice with
  | nil => exact absurd rfl hne
  | @cons op f operators fs hop hops ih =>
    cases hops with
    | nil => exact ⟨hop.rows_ne_nil slice, hop.importTime_eq slice⟩
    | cons hop' hops => exact ih (cons_ne_nil _ _) (f slice)

theorem assignTimes_append (htimes : ∀ slice ∈ slices, slice.importTime ≠ 0)
    (others : List TableSlice) :
    assignTimes importTimestamps 0 (slices ++ others) =
      slices.filter hasRows ++ assignTimes importTimestamps 0 others := by
  induction slices with
  | nil => rfl
  | cons slice slices ih =>
    rw [forall_mem_cons] at htimes
    rw [cons_append, assignTimes, ih htimes.2, if_neg htimes.1]
    cases hrows : slice.rows.isEmpty <;> simp [hasRows, hrows]

/-- Slices without an import time have those at the front if and only if they are theirs. -/
theorem assignTimes_map_eq_iff {g : TableSlice → TableSlice}
    (hg : ∀ slice, (g slice).rows ≠ [] ∧ (g slice).importTime = 0) (importTimestamps : List Int64)
    (i : Nat) (slices : List TableSlice) (hlen : i + slices.length ≤ importTimestamps.length) :
    assignTimes importTimestamps i (slices.map g) =
        slices.map (fun slice => (g slice).withImportTime slice.importTime) ↔
      slices.map importTime <+: importTimestamps.drop i := by
  induction slices generalizing i with
  | nil => simp [assignTimes]
  | cons slice slices ih =>
    rw [length_cons] at hlen
    have hlt : i < importTimestamps.length := by omega
    have hrows : (g slice).rows.isEmpty = false := by simpa using (hg slice).1
    rw [map_cons, assignTimes, hrows, if_neg Bool.false_ne_true, if_pos (hg slice).2, map_cons,
      cons.injEq, ih (i + 1) (by omega), map_cons, drop_eq_getElem_cons hlt, cons_prefix_cons,
      getD_eq_getElem?_getD, getElem?_eq_getElem hlt]
    rw [withImportTime, withImportTime]
    simp [eq_comm]

end Times

/-- Import times follow the slices if and only if those of the slices that the pipeline
applies to come first. -/
theorem timesFollow_iff (pipeline : OperatorPipeline σ) (haggregate : pipeline.isAggregate = false)
    (fs : List (TableSlice → TableSlice)) (hops : Forall₂ OneToOne pipeline.operators fs)
    (slices : List TableSlice) (htimes : ∀ slice ∈ slices, slice.importTime ≠ 0) :
    pipeline.TimesFollow fs slices ↔ pipeline.operators = [] ∨
      (slices.filter fun slice => pipeline.appliesTo slice.schema.name).map
          importTime <+: slices.map importTime := by
  rw [TimesFollow, foldl_add, finish, origins]
  by_cases hne : pipeline.operators = []
  · -- Without operators all slices keep their import times.
    have houtcome : pipeline.outcome fs = id := by
      rw [hne] at hops
      cases hops
      funext slice
      exact ite_self slice
    have hbatch : pipeline.finishBatch slices = .ok slices := by
      rw [finishBatch, hne]
      rfl
    have hassign := @assignTimes_append (slices.map importTime) slices htimes []
    rw [finishQueue_of_aligned haggregate hbatch (length_map _).symm, if_pos hne, houtcome]
    exact iff_of_true (by simpa [assignTimes] using hassign) (Or.inl hne)
  · have hpartition : (slices.filter fun slice => !pipeline.appliesTo slice.schema.name).length +
        (slices.filter fun slice => pipeline.appliesTo slice.schema.name).length =
          slices.length := by
      rw [Nat.add_comm]
      exact (length_eq_length_filter_add _).symm
    have hskipped : ((slices.filter fun slice => !pipeline.appliesTo slice.schema.name).filter
        hasRows).map (pipeline.outcome fs) =
          (slices.filter fun slice => !pipeline.appliesTo slice.schema.name).filter hasRows := by
      conv_rhs => rw [← map_id (filter hasRows _)]
      apply map_congr_left
      intro slice hslice
      have hskips := (mem_filter.mp (mem_of_mem_filter hslice)).2
      rw [outcome, if_neg (by simpa using hskips), id]
    have happlied : (slices.filter fun slice => pipeline.appliesTo slice.schema.name).map
        (pipeline.outcome fs) = (slices.filter fun slice =>
          pipeline.appliesTo slice.schema.name).map fun slice =>
            (fs.foldl (fun s f => f s) slice).withImportTime slice.importTime := by
      apply map_congr_left
      intro slice hslice
      rw [outcome, if_pos (mem_filter.mp hslice).2]
    have hbatch := finishBatch_eq pipeline slices hne
    rw [transform_of_oneToOne hops] at hbatch
    have hassign := assignTimes_map_eq_iff (foldl_of_oneToOne hops hne)
      (slices.map importTime) 0
      (slices.filter fun slice => pipeline.appliesTo slice.schema.name)
      (by rw [length_map]; omega)
    rw [finishQueue_of_aligned haggregate hbatch (by simpa using hpartition), if_neg hne,
      assignTimes_append fun slice hslice => htimes slice (mem_of_mem_filter hslice), map_append,
      hskipped, happlied, Except.ok.injEq, append_cancel_left_eq, or_iff_right hne]
    exact hassign

def mapOperator (f : TableSlice → TableSlice) : PipelineOperator (List TableSlice) where
  initial := []
  add := fun slices slice => .ok (slices ++ [slice])
  finish := fun slices => .ok (slices.map f)

theorem run_mapOperator (f : TableSlice → TableSlice) (slices : List TableSlice) :
    (mapOperator f).run slices = .ok (slices.map f) := by
  have hadd : ∀ state result, (mapOperator f).addQueue (fun _ => false) state result slices =
      .ok (state ++ slices, result) := by
    induction slices with
    | nil => simp [addQueue]
    | cons slice slices ih =>
      intro state result
      exact (ih (state ++ [slice]) result).trans (by simp)
  rw [run, hadd]
  rfl

/-- A slice of one row with the name of another one. -/
def renewed (slice : TableSlice) : TableSlice :=
  .blank slice.schema.name 1

theorem oneToOne_renewed : OneToOne (mapOperator renewed) renewed :=
  ⟨run_mapOperator renewed, fun _ => cons_ne_nil _ _, fun _ => rfl⟩

def secondOnly : OperatorPipeline (List TableSlice) where
  schemaNames := ["second"]
  operators := [mapOperator renewed]

/-- The slice that is skipped arrives last, so the times stay aligned. -/
theorem secondOnly_timesFollow : secondOnly.TimesFollow [renewed]
      [(blank "second" 1).withImportTime 1,
        (blank "first" 1).withImportTime 2] := by
  rw [timesFollow_iff secondOnly rfl [renewed] (.cons oneToOne_renewed .nil) _ (by decide)]
  exact Or.inr (by decide)

/-- The second slice gets the import time of the first one, which is skipped. -/
theorem secondOnly_takes_first_time : ¬secondOnly.TimesFollow [renewed]
      [(blank "first" 1).withImportTime 1,
        (blank "second" 1).withImportTime 2] := by
  intro hfollow
  have htimes : (.ok [1, 1] : Except Error (List Int64)) = .ok [1, 2] :=
    congrArg (Except.map (map importTime)) hfollow
  exact absurd htimes (by decide)

end OperatorPipeline

end Vast
