import Mathlib.Algebra.Order.BigOperators.Group.List
import Mathlib.Algebra.Order.Ring.Nat
import Vast.Transform.OperatorPipeline

/-! # The pipeline executor

The executor applies many pipelines. For every name of a schema it knows the pipelines
that list the name, and it knows the pipelines for all schemas. The two lists of indices
are merged, so that the pipelines run in the order of the configuration. A pipeline that
lists a name twice has its index twice in the list for the name.
-/

namespace Vast

open Foundation List AssocList KeyedList OperatorPipeline TableSlice
open PipelineOperator (hasRows)

/-- The pipelines of the configuration, the indices of those that list a name, and the
indices of those for all schemas. -/
structure PipelineExecutor (σ : Type) where
  pipelines : List (OperatorPipeline σ)
  schemaMapping : List (String × List Nat) := []
  generalPipelines : List Nat := []

/-- In which order the unordered maps from schemas to queues are iterated over. -/
structure IterationOrder where
  queues : List (VastType × List TableSlice) → List (VastType × List TableSlice)
  batches : List (VastType × List TableSlice) → List (VastType × List TableSlice)
  queues_perm : ∀ entries, (queues entries).Perm entries
  batches_perm : ∀ entries, (batches entries).Perm entries

abbrev SchemaQueues := List (VastType × List TableSlice)

namespace PipelineExecutor

variable {σ : Type} {name : String} {queue : List TableSlice} {executor : PipelineExecutor σ}
  {queues : SchemaQueues} {result : List TableSlice} {batches : SchemaQueues}

/-- Append to the values of a key, which is added if needed. -/
def push {κ β : Type} [DecidableEq κ] (key : κ) (value : β) (entries : List (κ × List β)) :
    List (κ × List β) :=
  AssocList.adjust key (fun values => values ++ [value]) (AssocList.emplace key [] entries)

section

variable (executor : PipelineExecutor σ)

def register (entry : OperatorPipeline σ × Nat) : PipelineExecutor σ :=
  if entry.1.schemaNames.isEmpty then
    { executor with generalPipelines := executor.generalPipelines ++ [entry.2] }
  else
    { executor with
      schemaMapping := entry.1.schemaNames.foldl (fun mapping name => push name entry.2 mapping)
        executor.schemaMapping }

def make (pipelines : List (OperatorPipeline σ)) : PipelineExecutor σ :=
  pipelines.zipIdx.foldl register { pipelines }

def add (queues : SchemaQueues) (slice : TableSlice) : SchemaQueues :=
  push slice.schema slice queues

/-- The indices of the pipelines for a name, or nothing if there are none. -/
def indices (executor : PipelineExecutor σ) (name : String) : Option (List Nat) :=
  let matching := executor.schemaMapping.lookup name
  if matching.isNone && executor.generalPipelines.isEmpty then none
  else
    let indices := matching.getD []
    if executor.generalPipelines.isEmpty then some indices
    else some (indices.merge executor.generalPipelines)

/-- The slices of a queue run through one pipeline. The index is one of a pipeline. -/
def processQueue (queue : List TableSlice) (idx : Nat) : Except Error (List TableSlice) :=
  (executor.pipelines.getD idx {}).finishBatch queue

/-- The loop over the queues, with the result and the batches so far. -/
def finishLoop (executor : PipelineExecutor σ) (result : List TableSlice) (batches : SchemaQueues) :
    SchemaQueues → Except Error (List TableSlice × SchemaQueues)
  | [] => .ok (result, batches)
  | (schema, queue) :: queues =>
    match executor.indices schema.name with
    | none => executor.finishLoop (result ++ queue) batches queues
    | some indices =>
      match indices.foldlM executor.processQueue queue with
      | .error error => .error error
      | .ok batch => executor.finishLoop result (batches ++ [(schema, batch)]) queues

def finish (order : IterationOrder) (queues : SchemaQueues) : Except Error (List TableSlice) :=
  (executor.finishLoop [] [] (order.queues queues)).map fun (result, batches) =>
    result ++ (order.batches batches).flatMap Prod.snd

end

/-! ## The indices of a name -/

/-- How often the index of a pipeline stands in the list for a name. -/
def uses (name : String) (pipeline : OperatorPipeline σ) : Nat :=
  if pipeline.schemaNames.isEmpty then 1 else pipeline.schemaNames.count name

/-- The indices of the pipelines that apply to a name. -/
def matching (pipelines : List (OperatorPipeline σ)) (name : String) : List Nat :=
  (pipelines.zipIdx.filter fun entry => entry.1.appliesTo name).map Prod.snd

theorem lookup_push {κ β : Type} [DecidableEq κ] (key other : κ) (value : β)
    (entries : List (κ × List β)) : (push key value entries).lookup other =
      if other = key then some ((entries.lookup key).getD [] ++ [value])
      else entries.lookup other := by
  rw [push, lookup_adjust]
  simp only [lookup_emplace]
  grind

theorem lookup_foldl_push (names : List String) (idx : Nat) (mapping : List (String × List Nat))
    (name : String) :
    ((names.foldl (fun mapping name => push name idx mapping) mapping).lookup name).getD [] =
      (mapping.lookup name).getD [] ++ replicate (names.count name) idx := by
  induction names generalizing mapping with
  | nil => simp
  | cons head names ih =>
    rw [foldl_cons, ih, lookup_push]
    by_cases hname : name = head
    · simp [hname, replicate_succ]
    · simp [hname, count_cons_of_ne (Ne.symm hname)]

def indicesWith (entries : List (OperatorPipeline σ × Nat)) (count : OperatorPipeline σ → Nat) :
    List Nat :=
  entries.flatMap fun entry => List.replicate (count entry.1) entry.2

section IndicesWith

variable {entries : List (OperatorPipeline σ × Nat)} {first second : OperatorPipeline σ → Nat}

theorem pairwise_indicesWith (hents : entries.Pairwise fun a b => a.2 < b.2)
    (count : OperatorPipeline σ → Nat) : (indicesWith entries count).Pairwise (· ≤ ·) := by
  rw [indicesWith, pairwise_flatMap]
  refine ⟨fun entry _ => pairwise_replicate.mpr (Or.inr le_rfl), hents.imp ?_⟩
  intro a b hlt x hx y hy
  rw [eq_of_mem_replicate hx, eq_of_mem_replicate hy]
  exact hlt.le

/-- Merging adds up the multiplicities. -/
theorem merge_indicesWith (hents : entries.Pairwise fun a b => a.2 < b.2) :
    (indicesWith entries first).merge (indicesWith entries second) =
      indicesWith entries fun pipeline => first pipeline + second pipeline := by
  apply Perm.eq_of_pairwise' (r := fun a b : Nat => a ≤ b)
  · exact (pairwise_indicesWith hents first).merge (pairwise_indicesWith hents second)
  · exact pairwise_indicesWith hents _
  · refine (merge_perm_append _).trans ?_
    refine (flatMap_append_perm entries _ _).trans ?_
    simp only [replicate_append_replicate]
    exact Perm.refl _

/-- Of two multiplicities one of which is not larger, only equal ones give the same list. -/
theorem indicesWith_eq_iff (hle : ∀ entry ∈ entries, second entry.1 ≤ first entry.1) :
    indicesWith entries first = indicesWith entries second ↔
      ∀ entry ∈ entries, first entry.1 = second entry.1 := by
  constructor
  · intro heq
    have hlen := congrArg length heq
    simp only [indicesWith, length_flatMap, length_replicate] at hlen
    clear heq
    induction entries with
    | nil => simp
    | cons entry entries ih =>
      rw [forall_mem_cons] at hle ⊢
      have hsum := sum_le_sum hle.2
      simp only [map_cons, sum_cons] at hlen
      exact ⟨by omega, ih hle.2 (by omega)⟩
  · intro heq
    apply flatMap_congr
    intro entry hentry
    rw [heq entry hentry]

theorem map_filter_eq_indicesWith (property : OperatorPipeline σ → Bool) :
    (entries.filter fun entry => property entry.1).map Prod.snd =
      indicesWith entries fun pipeline => if property pipeline then 1 else 0 := by
  rw [indicesWith]
  induction entries with
  | nil => rfl
  | cons entry entries ih =>
    rw [flatMap_cons, ← ih, filter_cons]
    cases property entry.1 <;> simp

end IndicesWith

theorem foldl_register (entries : List (OperatorPipeline σ × Nat)) (executor : PipelineExecutor σ) :
    (entries.foldl register executor).pipelines = executor.pipelines ∧
      (entries.foldl register executor).generalPipelines = executor.generalPipelines ++
        indicesWith entries (fun pipeline => if pipeline.schemaNames.isEmpty then 1 else 0) ∧
      ∀ name, ((entries.foldl register executor).schemaMapping.lookup name).getD [] =
        (executor.schemaMapping.lookup name).getD [] ++
          indicesWith entries (fun pipeline => pipeline.schemaNames.count name) := by
  induction entries generalizing executor with
  | nil => simp [indicesWith]
  | cons entry entries ih =>
    obtain ⟨hpipelines, hgeneral, hmapping⟩ := ih (register executor entry)
    rw [foldl_cons, hpipelines, hgeneral]
    simp only [hmapping]
    unfold register
    split
    next hempty =>
      have hnil : entry.1.schemaNames = [] := isEmpty_iff.mp hempty
      simp [indicesWith, hnil]
    next hempty =>
      refine ⟨rfl, ?_, ?_⟩
      · simpa [indicesWith] using hempty
      · simp [lookup_foldl_push, indicesWith]

variable (pipelines : List (OperatorPipeline σ))

theorem pairwise_zipIdx : pipelines.zipIdx.Pairwise fun a b => a.2 < b.2 := by
  rw [← pairwise_map (f := Prod.snd), zipIdx_map_snd]
  exact pairwise_lt_range'

theorem indices_make (name : String) :
    ((make pipelines).indices name).getD [] = indicesWith pipelines.zipIdx (uses name) := by
  obtain ⟨-, hgeneral, hmapping⟩ := foldl_register pipelines.zipIdx { pipelines }
  have hmerge : ((make pipelines).indices name).getD [] =
      (((make pipelines).schemaMapping.lookup name).getD []).merge
        (make pipelines).generalPipelines := by
    rw [indices]
    cases (make pipelines).schemaMapping.lookup name <;>
      cases hempty : (make pipelines).generalPipelines.isEmpty <;>
        simp_all
  rw [hmerge, make, hgeneral, hmapping]
  simp only [lookup_nil, Option.getD_none, nil_append]
  rw [merge_indicesWith (pairwise_zipIdx pipelines)]
  congr 1
  funext pipeline
  rw [uses]
  split
  next hempty => simp [isEmpty_iff.mp hempty]
  · rfl

/-- The indices are those of the pipelines that apply if and only if no pipeline lists the
name twice. -/
theorem indices_eq_matching_iff (name : String) :
    ((make pipelines).indices name).getD [] = matching pipelines name ↔
      ∀ pipeline ∈ pipelines, pipeline.schemaNames.count name ≤ 1 := by
  have huses (pipeline : OperatorPipeline σ) :
      (if pipeline.appliesTo name then 1 else 0) ≤ uses name pipeline ∧
        (uses name pipeline = (if pipeline.appliesTo name then 1 else 0) ↔
          pipeline.schemaNames.count name ≤ 1) := by
    simp only [uses, appliesTo]
    by_cases hempty : pipeline.schemaNames = []
    · simp [hempty]
    · grind
  rw [indices_make, matching, map_filter_eq_indicesWith fun pipeline => pipeline.appliesTo name,
    indicesWith_eq_iff fun entry _ => (huses entry.1).1]
  simp only [fun pipeline => (huses pipeline).2]
  rw [← forall_mem_map (f := Prod.fst) (P := fun pipeline : OperatorPipeline σ =>
    pipeline.schemaNames.count name ≤ 1), zipIdx_map_fst]

/-! ## Results -/

def KeepsNames (op : PipelineOperator σ) : Prop :=
  ∀ name slices results, (∀ slice ∈ slices, slice.schema.name = name) →
    op.run slices = .ok results → ∀ slice ∈ results, slice.schema.name = name

theorem keepsNames_transform {operators : List (PipelineOperator σ)}
    (hkeeps : ∀ op ∈ operators, KeepsNames op) {queue results : List TableSlice}
    (hqueue : ∀ slice ∈ queue, slice.schema.name = name)
    (htrans : transform operators queue = .ok results) :
    ∀ slice ∈ results, slice.schema.name = name := by
  induction operators generalizing queue with
  | nil =>
    cases htrans
    exact hqueue
  | cons op operators ih =>
    rw [forall_mem_cons] at hkeeps
    rw [transform, foldlM_cons] at htrans
    cases hrun : op.run queue with
    | error error => rw [hrun] at htrans; cases htrans
    | ok finished =>
      rw [hrun] at htrans
      refine ih hkeeps.2 ?_ htrans
      intro slice hslice
      exact hkeeps.1 name queue finished hqueue hrun slice (mem_of_mem_filter hslice)

theorem finishBatch_of_applies {pipeline : OperatorPipeline σ}
    (happ : ∀ slice ∈ queue, pipeline.appliesTo slice.schema.name = true) :
    pipeline.finishBatch queue = transform pipeline.operators queue := by
  by_cases hne : pipeline.operators = []
  · rw [finishBatch, hne]
    rfl
  · rw [finishBatch_eq _ _ hne, filter_eq_self.mpr happ,
      filter_eq_nil_iff.mpr fun slice hslice => by simp [happ slice hslice]]
    cases transform pipeline.operators queue <;> rfl

/-- What the pipelines that apply to a name make of slices, one after the other. -/
def output (name : String) (slices : List TableSlice) : Except Error (List TableSlice) :=
  (pipelines.filter fun pipeline => pipeline.appliesTo name).foldlM
    (fun queue pipeline => OperatorPipeline.transform pipeline.operators queue) slices

/-- Running the pipelines with these indices gives the output. -/
theorem foldlM_processQueue {entries : List (OperatorPipeline σ × Nat)}
    (hents : ∀ entry ∈ entries, executor.pipelines.getD entry.2 {} = entry.1 ∧
      ∀ op ∈ entry.1.operators, KeepsNames op)
    (hqueue : ∀ slice ∈ queue, slice.schema.name = name) :
    ((entries.filter fun entry => entry.1.appliesTo name).map Prod.snd).foldlM
        executor.processQueue queue = output (entries.map Prod.fst) name queue := by
  induction entries generalizing queue with
  | nil => rfl
  | cons entry entries ih =>
    rw [forall_mem_cons] at hents
    rw [output, map_cons]
    by_cases happ : entry.1.appliesTo name = true
    · rw [filter_cons, filter_cons, if_pos happ, if_pos happ, map_cons,
        foldlM_cons, foldlM_cons, processQueue, hents.1.1,
        finishBatch_of_applies fun slice hslice => by rwa [hqueue slice hslice]]
      cases htrans : transform entry.1.operators queue with
      | error error => rfl
      | ok results => exact ih hents.2 (keepsNames_transform hents.1.2 hqueue htrans)
    · rw [filter_cons, filter_cons, if_neg happ, if_neg happ]
      exact ih hents.2 hqueue

/-- Every schema of the slices has a queue with its slices in the order of arrival. -/
structure Queued (slices : List TableSlice) (queues : SchemaQueues) : Prop where
  nodup : (queues.map Prod.fst).Nodup
  mem_iff : ∀ schema, schema ∈ queues.map Prod.fst ↔ schema ∈ slices.map TableSlice.schema
  queue_eq : ∀ entry ∈ queues, entry.2 = KeyedList.group TableSlice.schema slices entry.1

theorem Queued.add {slices : List TableSlice} (hqueued : Queued slices queues)
    (slice : TableSlice) : Queued (slices ++ [slice]) (add queues slice) := by
  have hkeys : (PipelineExecutor.add queues slice).map Prod.fst =
      (emplace slice.schema [] queues).map Prod.fst := by
    rw [PipelineExecutor.add, push, keys_adjust]
  have hemplaced : ∀ entry ∈ emplace slice.schema [] queues,
      entry.2 = group schema slices entry.1 := by
    apply forall_mem_emplace hqueued.queue_eq
    intro hnew
    rw [hqueued.mem_iff] at hnew
    exact (group_of_not_mem hnew).symm
  refine ⟨?_, ?_, ?_⟩
  · rw [hkeys]
    exact nodup_keys_emplace _ _ hqueued.nodup
  · intro schema
    rw [hkeys, mem_keys_emplace, hqueued.mem_iff]
    simp
  · rw [PipelineExecutor.add]
    apply forall_mem_adjust
    · intro queue hqueue
      have heq : queue = _ := hemplaced _ hqueue
      rw [heq, group_append, group_cons, if_pos rfl]
      rfl
    · intro entry hentry hne
      rw [hemplaced _ hentry, group_append, group_cons, if_neg (Ne.symm hne)]
      exact (append_nil _).symm

theorem queued_foldl_add (slices : List TableSlice) : Queued slices (slices.foldl add []) := by
  induction slices using reverseRecOn with
  | nil => constructor <;> simp
  | append_singleton slices slice ih =>
    rw [foldl_append]
    exact ih.add slice

/-- The results of the queues, for some order of the schemas. -/
def Arranged (slices : List TableSlice) (result : Except Error (List TableSlice)) : Prop :=
  ∃ schemas : List VastType, schemas.Nodup ∧
    (∀ schema, schema ∈ schemas ↔ schema ∈ slices.map TableSlice.schema) ∧
    match result with
    | .error error => ∃ schema ∈ schemas,
        output pipelines schema.name (KeyedList.group TableSlice.schema slices schema) =
          .error error
    | .ok result => ∃ outputs : VastType → List TableSlice, result = schemas.flatMap outputs ∧
        ∀ schema ∈ schemas, output pipelines schema.name
          (KeyedList.group TableSlice.schema slices schema) = .ok (outputs schema)

/-- What the pipelines make of a queue. -/
def processed (executor : PipelineExecutor σ) (entry : VastType × List TableSlice) :
    Except Error (List TableSlice) :=
  ((executor.indices entry.1.name).getD []).foldlM executor.processQueue entry.2

/-- The loop stops at an error. Otherwise it puts the outputs of the queues without pipelines
into the result and the other ones into batches. -/
theorem finishLoop_cases (outputs : VastType → List TableSlice)
    (houts : ∀ entry ∈ queues, ∀ output, executor.processed entry = .ok output →
      outputs entry.1 = output) (result : List TableSlice) (batches : SchemaQueues) :
    (∃ entry ∈ queues, ∃ error, executor.processed entry = .error error ∧
        executor.finishLoop result batches queues = .error error) ∨
      (∀ entry ∈ queues, executor.processed entry = .ok (outputs entry.1)) ∧
        executor.finishLoop result batches queues = .ok
          (result ++ ((queues.map Prod.fst).filter fun schema =>
              (executor.indices schema.name).isNone).flatMap outputs,
            batches ++ ((queues.map Prod.fst).filter fun schema =>
              (executor.indices schema.name).isSome).map
                fun schema => (schema, outputs schema)) := by
  induction queues generalizing result batches with
  | nil => simp [finishLoop]
  | cons entry queues ih =>
    obtain ⟨schema, queue⟩ := entry
    rw [forall_mem_cons] at houts
    rw [exists_mem_cons_iff]
    cases hindices : executor.indices schema.name with
    | none =>
      have hproc : executor.processed (schema, queue) = .ok queue := by
        rw [processed, hindices]
        rfl
      simpa [finishLoop, hindices, hproc, houts.1 queue hproc] using
        ih houts.2 (result ++ queue) batches
    | some indices =>
      have hproc : executor.processed (schema, queue) =
          indices.foldlM executor.processQueue queue := by rw [processed, hindices]; rfl
      cases hrun : indices.foldlM executor.processQueue queue with
      | error error =>
        rw [hrun] at hproc
        exact Or.inl (Or.inl ⟨error, hproc, by simp [finishLoop, hindices, hrun]⟩)
      | ok batch =>
        rw [hrun] at hproc
        simpa [finishLoop, hindices, hrun, hproc, houts.1 batch hproc] using
          ih houts.2 result (batches ++ [(schema, batch)])

section Finish

variable {pipelines : List (OperatorPipeline σ)} {slices : List TableSlice}

variable (hkeeps : ∀ pipeline ∈ pipelines, ∀ op ∈ pipeline.operators, KeepsNames op)

include hkeeps

/-- The slices of a schema run through the pipelines that apply to it. -/
theorem foldlM_matching
    (schema : VastType) : (matching pipelines schema.name).foldlM (make pipelines).processQueue
        (group TableSlice.schema slices schema) =
      output pipelines schema.name (group TableSlice.schema slices schema) := by
  have hpipelines : (make pipelines).pipelines = pipelines :=
    (foldl_register pipelines.zipIdx { pipelines }).1
  have hents : ∀ entry ∈ pipelines.zipIdx, (make pipelines).pipelines.getD entry.2 {} =
      entry.1 ∧ ∀ op ∈ entry.1.operators, KeepsNames op := by
    intro entry hentry
    have hget := mem_zipIdx_iff_getElem?.mp hentry
    refine ⟨?_, hkeeps _ (mem_of_getElem? hget)⟩
    rw [hpipelines, getD_eq_getElem?_getD, hget, Option.getD_some]
  rw [matching, foldlM_processQueue hents, zipIdx_map_fst]
  intro slice hslice
  rw [(mem_group.mp hslice).2]

/-- The result is arranged if the indices are those of the pipelines that apply. -/
theorem arranged_finish
    (hindices : ∀ slice ∈ slices, ((make pipelines).indices slice.schema.name).getD [] =
      matching pipelines slice.schema.name) (order : IterationOrder) :
    Arranged pipelines slices ((make pipelines).finish order (slices.foldl add [])) := by
  have hqueued := queued_foldl_add slices
  generalize slices.foldl add [] = queues at hqueued
  have hperm := order.queues_perm queues
  have hkeys := hperm.map Prod.fst
  have hmem (schema : VastType) : schema ∈ (order.queues queues).map Prod.fst ↔
      schema ∈ slices.map TableSlice.schema := by
    rw [hkeys.mem_iff, hqueued.mem_iff]
  have houtput : ∀ entry ∈ order.queues queues, (make pipelines).processed entry =
      output pipelines entry.1.name (group TableSlice.schema slices entry.1) := by
    intro entry hentry
    obtain ⟨slice, hslice, hschema⟩ := mem_map.mp ((hmem entry.1).mp (mem_map_of_mem hentry))
    rw [processed, hqueued.queue_eq entry (hperm.mem_iff.mp hentry), ← hschema,
      hindices slice hslice]
    exact foldlM_matching hkeeps slice.schema
  let outputs (schema : VastType) : List TableSlice :=
    (output pipelines schema.name
      (group TableSlice.schema slices schema)).toOption.getD []
  have hdefined : ∀ entry ∈ order.queues queues, ∀ output,
      (make pipelines).processed entry = .ok output → outputs entry.1 = output := by
    intro entry hentry output hok
    simp only [outputs, ← houtput entry hentry, hok]
    rfl
  rw [finish]
  rcases finishLoop_cases outputs hdefined [] [] with
    ⟨entry, hentry, error, herror, hloop⟩ | ⟨houts, hloop⟩
  · rw [hloop]
    rw [houtput entry hentry] at herror
    exact ⟨_, hkeys.nodup_iff.mpr hqueued.nodup, hmem, entry.1, mem_map_of_mem hentry, herror⟩
  · -- The loop has put the output of every queue into the result or into a batch.
    have houts : ∀ schema ∈ (order.queues queues).map Prod.fst, output pipelines schema.name
        (group TableSlice.schema slices schema) = .ok (outputs schema) := by
      rw [forall_mem_map]
      exact fun entry hentry => (houtput entry hentry).symm.trans (houts entry hentry)
    simp only [hloop, Except.map, nil_append]
    generalize (order.queues queues).map Prod.fst = keys at hmem hkeys houts
    have hbatches := order.batches_perm ((keys.filter fun schema =>
      ((make pipelines).indices schema.name).isSome).map fun schema => (schema, outputs schema))
    generalize order.batches _ = batches at hbatches ⊢
    have hpermuted : ((keys.filter fun schema =>
        ((make pipelines).indices schema.name).isNone) ++ batches.map Prod.fst).Perm keys := by
      refine ((hbatches.map Prod.fst).append_left _).trans ?_
      simpa [Function.comp_def] using
        filter_append_perm (fun schema : VastType =>
          ((make pipelines).indices schema.name).isNone) keys
    have hflat : batches.flatMap Prod.snd = (batches.map Prod.fst).flatMap outputs := by
      rw [flatMap_map]
      apply flatMap_congr
      intro entry hentry
      obtain ⟨schema, -, rfl⟩ := mem_map.mp (hbatches.mem_iff.mp hentry)
      rfl
    refine ⟨_, hpermuted.nodup_iff.mpr (hkeys.nodup_iff.mpr hqueued.nodup),
      fun schema => hpermuted.mem_iff.trans (hmem schema), outputs, ?_, ?_⟩
    · rw [hflat, flatMap_append]
    · intro schema hschema
      exact houts schema (hpermuted.mem_iff.mp hschema)

end Finish

/-- Every pipeline that applies to the schema of a slice is used once, in the order of the
configuration, and its result is returned. -/
structure AppliesOnce (pipelines : List (OperatorPipeline σ)) (slices : List TableSlice)
    (order : IterationOrder) : Prop where
  once : ∀ slice ∈ slices, ((make pipelines).indices slice.schema.name).getD [] =
    matching pipelines slice.schema.name
  arranged : Arranged pipelines slices ((make pipelines).finish order (slices.foldl add []))

/-- Every pipeline that applies is used once if and only if none lists a name twice. -/
theorem appliesOnce_iff (pipelines : List (OperatorPipeline σ))
    (hkeeps : ∀ pipeline ∈ pipelines, ∀ op ∈ pipeline.operators, KeepsNames op)
    (slices : List TableSlice) (order : IterationOrder) :
    AppliesOnce pipelines slices order ↔ ∀ slice ∈ slices, ∀ pipeline ∈ pipelines,
      pipeline.schemaNames.count slice.schema.name ≤ 1 := by
  constructor
  · intro happlies slice hslice
    exact (indices_eq_matching_iff pipelines _).mp (happlies.once slice hslice)
  · intro hcount
    have honce : ∀ slice ∈ slices, ((make pipelines).indices slice.schema.name).getD [] =
        matching pipelines slice.schema.name :=
      fun slice hslice => (indices_eq_matching_iff pipelines _).mpr (hcount slice hslice)
    exact ⟨honce, arranged_finish hkeeps honce order⟩

def insertionOrder : IterationOrder where
  queues := id
  batches := id
  queues_perm := List.Perm.refl
  batches_perm := List.Perm.refl

def doubled (slice : TableSlice) : TableSlice :=
  { slice with
    rows := slice.rows ++ slice.rows
    typed := fun row hrow => slice.typed row ((List.mem_append.mp hrow).elim id id) }

/-- A pipeline for schemas with some names that doubles the rows. -/
def doubling (schemaNames : List String) : OperatorPipeline (List TableSlice) where
  schemaNames := schemaNames
  operators := [OperatorPipeline.mapOperator doubled]

theorem keepsNames_doubled : KeepsNames (mapOperator doubled) := by
  intro name slices results hname hrun slice hslice
  rw [run_mapOperator, Except.ok.injEq] at hrun
  obtain ⟨original, horiginal, rfl⟩ := mem_map.mp (hrun ▸ hslice)
  exact hname original horiginal

/-- A name that stands once in the configuration is applied once. -/
theorem doubling_appliesOnce :
    AppliesOnce [doubling ["event"]] [blank "event" 1] insertionOrder := by
  rw [appliesOnce_iff _ (by simpa [doubling] using keepsNames_doubled)]
  decide

/-- A name that stands twice in the configuration makes four rows out of one. -/
theorem doubling_applies_twice : ((make [doubling ["event", "event"]]).finish insertionOrder
        ([blank "event" 1].foldl add [])).map (List.flatMap rows) =
          .ok [[], [], [], []] ∧
      ¬AppliesOnce [doubling ["event", "event"]] [blank "event" 1] insertionOrder := by
  refine ⟨rfl, fun happlies => ?_⟩
  exact absurd (happlies.once _ (mem_singleton.mpr rfl)) (by decide)

end PipelineExecutor

end Vast
