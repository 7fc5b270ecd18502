import Mathlib.Data.Finset.Union
import Vast.Catalog.LookupResult

/-! # Recovery of partition transforms

Before the index moves the output of a transform into its directory, it writes a
marker that names the new partitions, and the old ones if they are to be
replaced. After a crash, `load_from_disk` finishes what the markers say and then
looks for partitions. It only asks for the erasure of old partitions and does
not wait for it, and it takes for granted that every marker names old partitions.
-/

namespace Vast

/-! ## Markers -/

/-- The marker of a transform. The field for the inputs is optional. -/
structure PartitionTransform where
  inputPartitions : Option (List Uuid)
  outputPartitions : List Uuid
  deriving DecidableEq

def createMarker (ins outs : List Uuid) (keep : Bool) : PartitionTransform where
  inputPartitions := if keep then none else some ins
  outputPartitions := outs

/-! ## The directory -/

/-- The files of the index. Partitions of old versions that exceed the size of a
flatbuffer are kept apart. The new partitions of transforms are staged next to the
markers, and a marker that cannot be opened has no content. -/
structure IndexDirectory where
  partitions : Finset Uuid := ∅
  oversizedPartitions : Finset Uuid := ∅
  synopses : Finset Uuid := ∅
  stagedPartitions : Finset Uuid := ∅
  stagedSynopses : Finset Uuid := ∅
  markers : List (Uuid × Option PartitionTransform) := []

namespace IndexDirectory

/-- The operations of the filesystem on behalf of a transform. -/
inductive Operation where
  | movePartition (id : Uuid)
  | moveSynopsis (id : Uuid)
  | erasePartition (id : Uuid)
  | eraseSynopsis (id : Uuid)
  | eraseMarker (transformId : Uuid)
  deriving DecidableEq

variable (directory : IndexDirectory)

/-- A file that does not exist is not moved. -/
def perform : Operation → IndexDirectory
  | .movePartition id =>
    if id ∈ directory.stagedPartitions then
      { directory with
        partitions := insert id directory.partitions
        stagedPartitions := directory.stagedPartitions.erase id }
    else directory
  | .moveSynopsis id =>
    if id ∈ directory.stagedSynopses then
      { directory with
        synopses := insert id directory.synopses
        stagedSynopses := directory.stagedSynopses.erase id }
    else directory
  | .erasePartition id => { directory with partitions := directory.partitions.erase id }
  | .eraseSynopsis id => { directory with synopses := directory.synopses.erase id }
  | .eraseMarker transformId =>
    { directory with markers := directory.markers.filter fun marker => marker.1 ≠ transformId }

def renames (outputs : List Uuid) : List Operation :=
  outputs.flatMap fun id => [.movePartition id, .moveSynopsis id]

def erasures (inputs : List Uuid) : List Operation :=
  inputs.flatMap fun id => [.erasePartition id, .eraseSynopsis id]

/-! ## Startup -/

/-- What the environment decides at startup: which of the requested erasures have
happened when the directory is scanned and when the partitions are loaded, what the
files contain, and which partitions a transformer makes of an oversized one. -/
structure Startup where
  erasedBeforeScan : Uuid → Bool
  erasedBeforeLoad : Uuid → Bool
  erasedBeforeLoad_of_scan : ∀ id, erasedBeforeScan id = true → erasedBeforeLoad id = true
  /-- The synopsis can be extracted from the partition. -/
  extracts : Uuid → Bool
  /-- The synopsis can be unpacked. -/
  unpacks : Uuid → Bool
  /-- The store of an oversized partition exists. -/
  storeExists : Uuid → Bool
  reimport : Uuid → Finset Uuid

def pathExists (id : Uuid) : Bool :=
  id ∈ directory.partitions ∨ id ∈ directory.oversizedPartitions

/-- Finish a transform: request the erasure of its inputs and move its outputs. The
inputs are read without a test whether there are any, so that a marker without them
brings the process down. -/
def finishTransform (recovered : IndexDirectory × Finset Uuid)
    (marker : Uuid × Option PartitionTransform) : Option (IndexDirectory × Finset Uuid) :=
  match marker.2 with
  | none => some recovered
  | some transform =>
    match transform.inputPartitions with
    | none => none
    | some inputs =>
      some ((renames transform.outputPartitions).foldl perform recovered.1,
        recovered.2 ∪ (inputs.filter recovered.1.pathExists).toFinset)

def finishTransforms : Option (IndexDirectory × Finset Uuid) := do
  let recovered ← directory.markers.foldlM finishTransform (directory, ∅)
  return ({ recovered.1 with
    stagedPartitions := ∅
    stagedSynopses := ∅
    markers := [] }, recovered.2)

/-- A partition that is found in the directory is loaded if its synopsis is there or can
be extracted. -/
def loads (startup : Startup) (directory : IndexDirectory) (erasing : Finset Uuid)
    (id : Uuid) : Bool :=
  (id ∈ directory.synopses ∨
    startup.extracts id ∧ ¬(id ∈ erasing ∧ startup.erasedBeforeLoad id)) ∧ startup.unpacks id

/-- The persisted partitions after startup, if it gets that far. -/
def loadFromDisk (startup : Startup) (directory : IndexDirectory) : Option (Finset Uuid) := do
  let (directory, erasing) ← directory.finishTransforms
  let present := fun id => ¬(id ∈ erasing ∧ startup.erasedBeforeScan id)
  let partitions := directory.partitions.filter present
  let oversizedPartitions := directory.oversizedPartitions.filter fun id =>
    present id ∧ startup.storeExists id
  return partitions.filter (fun id => loads startup directory erasing id) ∪
    oversizedPartitions.biUnion startup.reimport

end IndexDirectory

/-! ## Crashes -/

open IndexDirectory List

/-- A transform whose marker is written, and the startup after a crash. The inputs are
partitions of the directory, the outputs are staged and new, and both can be loaded. -/
structure MarkedTransform where
  transformId : Uuid
  inputs : List Uuid
  outputs : List Uuid
  keep : Bool
  directory : IndexDirectory
  startup : Startup
  markers_eq : directory.markers = [(transformId, some (createMarker inputs outputs keep))]
  inputs_mem : ∀ id ∈ inputs, id ∈ directory.partitions
  outputs_staged : ∀ id ∈ outputs, id ∈ directory.stagedPartitions
  outputs_new : ∀ id ∈ outputs, id ∉ directory.partitions
  loadable : ∀ id, id ∈ inputs ∨ id ∈ outputs →
    startup.extracts id = true ∧ startup.unpacks id = true
  reimport_new : ∀ id, ∀ other ∈ startup.reimport id, other ∉ inputs ∧ other ∉ outputs

namespace MarkedTransform

variable {transform : MarkedTransform} {done : List Operation} {directory : IndexDirectory}
  {id : Uuid} {operation : Operation} {erasing : Finset Uuid}

section

variable (transform : MarkedTransform)

section

variable (done : List Operation)

/-- The operations that the index has performed at some point: the files of the outputs
are moved, then erasures of inputs may follow in any order unless the inputs are kept,
and the marker is erased at last. Any of the erasures may fail. -/
def Performed : Prop :=
  ∃ erased : List Operation,
    erased.Subperm (if transform.keep then [] else erasures transform.inputs) ∧
    done <+: renames transform.outputs ++ erased ++ [.eraseMarker transform.transformId]

def crashed : IndexDirectory :=
  done.foldl perform transform.directory

/-- Startup accepts the directory, and the partitions are the new ones or the old ones. -/
def Atomic : Prop :=
  ∃ persisted ∈ loadFromDisk transform.startup (transform.crashed done),
    ((∀ id ∈ transform.outputs, id ∈ persisted) ∧
      (transform.keep = false → ∀ id ∈ transform.inputs, id ∉ persisted)) ∨
    ((∀ id ∈ transform.outputs, id ∉ persisted) ∧ ∀ id ∈ transform.inputs, id ∈ persisted)

def Unmarked : Prop :=
  .eraseMarker transform.transformId ∈ done

/-- The erasure that startup requests comes in time: before the directory is scanned or,
without a synopsis, before the partition is loaded. -/
def InTime (id : Uuid) : Prop :=
  transform.startup.erasedBeforeScan id = true ∨
    (.eraseSynopsis id ∈ done ∨ id ∉ transform.directory.synopses) ∧
      transform.startup.erasedBeforeLoad id = true

/-- An input is erased before the crash or in time. -/
def Gone (id : Uuid) : Prop :=
  .erasePartition id ∈ done ∨ ¬transform.Unmarked done ∧ transform.InTime done id

end

end

/-! ### Files after some operations -/

theorem mem_partitions_perform (directory : IndexDirectory) (operation : Operation) :
    id ∈ (directory.perform operation).partitions ↔
      (id ∈ directory.partitions ∧ operation ≠ .erasePartition id) ∨
        id ∈ directory.stagedPartitions ∧ operation = .movePartition id := by
  cases operation <;> grind [perform]

theorem mem_partitions_of_not_moved (hmove : .movePartition id ∉ done) :
    id ∈ (done.foldl perform directory).partitions ↔
      id ∈ directory.partitions ∧ .erasePartition id ∉ done := by
  induction done generalizing directory with
  | nil => simp
  | cons operation rest ih =>
    rw [mem_cons, not_or] at hmove
    rw [foldl_cons, ih hmove.2, mem_partitions_perform]
    grind

theorem mem_partitions_of_not_erased (herase : .erasePartition id ∉ done) :
    id ∈ (done.foldl perform directory).partitions ↔
      id ∈ directory.partitions ∨ id ∈ directory.stagedPartitions ∧ .movePartition id ∈ done := by
  induction done generalizing directory with
  | nil => simp
  | cons operation rest ih =>
    rw [mem_cons, not_or] at herase
    rw [foldl_cons, ih herase.2, mem_partitions_perform]
    cases operation <;> grind [perform]

theorem mem_synopses_of_not_moved (hmove : .moveSynopsis id ∉ done) :
    id ∈ (done.foldl perform directory).synopses ↔
      id ∈ directory.synopses ∧ .eraseSynopsis id ∉ done := by
  induction done generalizing directory with
  | nil => simp
  | cons operation rest ih =>
    rw [mem_cons, not_or] at hmove
    rw [foldl_cons, ih hmove.2]
    cases operation <;> grind [perform]

theorem foldl_perform_markers (directory : IndexDirectory) :
    (done.foldl perform directory).markers =
      directory.markers.filter fun marker => .eraseMarker marker.1 ∉ done := by
  induction done generalizing directory with
  | nil => simp
  | cons operation rest ih =>
    rw [foldl_cons, ih]
    cases operation with
    | movePartition other | moveSynopsis other =>
      simp only [perform]
      split <;> simp
    | eraseMarker other =>
      simp only [perform, filter_filter]
      refine filter_congr fun marker _ => ?_
      simp [Bool.and_comm]
    | _ => simp [perform]

/-! ### Operations of a transform -/

theorem mem_renames {outputs : List Uuid} : operation ∈ renames outputs ↔
      ∃ id ∈ outputs, operation = .movePartition id ∨ operation = .moveSynopsis id := by
  simp [renames]

/-- Only the files of outputs are moved, only the files of inputs are erased, and with
the marker gone all outputs are moved. -/
theorem Performed.cases (hperf : transform.Performed done) :
    (∀ operation ∈ done, (∃ id ∈ transform.outputs,
        operation = .movePartition id ∨ operation = .moveSynopsis id) ∨
      (∃ id ∈ transform.inputs, operation = .erasePartition id ∨ operation = .eraseSynopsis id) ∨
      operation = .eraseMarker transform.transformId) ∧
    (transform.Unmarked done → ∀ id ∈ transform.outputs, .movePartition id ∈ done) := by
  obtain ⟨erased, hsubperm, hinitial⟩ := hperf
  have herased : ∀ operation ∈ erased, ∃ id ∈ transform.inputs,
      operation = .erasePartition id ∨ operation = .eraseSynopsis id := by
    intro operation hoperation
    have hmem := hsubperm.subset hoperation
    split at hmem
    · cases hmem
    · simpa [erasures] using hmem
  constructor
  · intro operation hoperation
    rcases mem_append.mp (hinitial.subset hoperation) with hmem | hmarker
    · rcases mem_append.mp hmem with hrename | herase
      · exact Or.inl (mem_renames.mp hrename)
      · exact Or.inr (Or.inl (herased operation herase))
    · exact Or.inr (Or.inr (mem_singleton.mp hmarker))
  · intro hunmarked id hid
    rcases prefix_concat_iff.mp hinitial with rfl | hshort
    · simp only [mem_append]
      exact Or.inl (Or.inl (mem_renames.mpr ⟨id, hid, Or.inl rfl⟩))
    · -- Before the last operation the marker is there.
      rcases mem_append.mp (hshort.subset hunmarked) with hrename | herase
      · obtain ⟨_, -, hmove | hmove⟩ := mem_renames.mp hrename <;> cases hmove
      · obtain ⟨_, -, herase | herase⟩ := herased _ herase <;> cases herase

theorem disjoint (hinput : id ∈ transform.inputs) : id ∉ transform.outputs :=
  fun houtput => transform.outputs_new id houtput (transform.inputs_mem id hinput)

theorem Performed.not_moved (hperf : transform.Performed done) (hinput : id ∈ transform.inputs) :
    .movePartition id ∉ done ∧ .moveSynopsis id ∉ done := by
  constructor <;> intro hmem <;>
    rcases hperf.cases.1 _ hmem with ⟨other, hother, heq | heq⟩ | ⟨_, -, heq | heq⟩ | heq <;>
    cases heq <;> exact disjoint hinput hother

theorem Performed.not_erased (hperf : transform.Performed done)
    (houtput : id ∈ transform.outputs) : .erasePartition id ∉ done := by
  intro hmem
  rcases hperf.cases.1 _ hmem with ⟨_, -, heq | heq⟩ | ⟨other, hother, heq | heq⟩ | heq <;>
    cases heq
  exact disjoint hother houtput

/-! ### Startup after a crash -/

theorem mem_loadFromDisk (startup : Startup) {directory recovered : IndexDirectory}
    (hfinish : directory.finishTransforms = some (recovered, erasing)) :
    ∃ persisted ∈ loadFromDisk startup directory, ∀ id, (∀ other, id ∉ startup.reimport other) →
      (id ∈ persisted ↔ id ∈ recovered.partitions ∧
        ¬(id ∈ erasing ∧ startup.erasedBeforeScan id = true) ∧
        loads startup recovered erasing id = true) := by
  simp only [loadFromDisk, hfinish]
  refine ⟨_, rfl, fun id hid => ?_⟩
  simp [hid, and_assoc]

/-- The directory without the markers and what is staged. -/
def cleaned (directory : IndexDirectory) : IndexDirectory :=
  { directory with stagedPartitions := ∅, stagedSynopses := ∅, markers := [] }

theorem markers_unmarked (hunmarked : transform.Unmarked done) :
    (transform.crashed done).markers = [] := by
  rw [Unmarked] at hunmarked
  rw [crashed, foldl_perform_markers, transform.markers_eq]
  simp [hunmarked]

theorem markers_marked (hmarked : ¬transform.Unmarked done) :
    (transform.crashed done).markers = [(transform.transformId,
      some (createMarker transform.inputs transform.outputs transform.keep))] := by
  rw [Unmarked] at hmarked
  rw [crashed, foldl_perform_markers, transform.markers_eq]
  simp [hmarked]

/-- Without inputs the marker cannot be read. -/
theorem finishTransforms_keep (hmarked : ¬transform.Unmarked done)
    (hkeep : transform.keep = true) : (transform.crashed done).finishTransforms = none := by
  rw [finishTransforms, markers_marked hmarked, hkeep]
  rfl

/-- All outputs are moved, and the inputs that are there are to be erased. -/
theorem finishTransforms_replace (hmarked : ¬transform.Unmarked done)
    (hkeep : transform.keep = false) : (transform.crashed done).finishTransforms =
      some (cleaned (transform.crashed (done ++ renames transform.outputs)),
        (transform.inputs.filter (transform.crashed done).pathExists).toFinset) := by
  rw [finishTransforms, markers_marked hmarked, hkeep, crashed, crashed]
  simp [finishTransform, createMarker, cleaned]

theorem output_loaded {moved : List Operation} (houtput : id ∈ transform.outputs)
    (hmoved : .movePartition id ∈ moved) (herased : .erasePartition id ∉ moved)
    (hnot : id ∉ erasing) : id ∈ (cleaned (transform.crashed moved)).partitions ∧
      ¬(id ∈ erasing ∧ transform.startup.erasedBeforeScan id = true) ∧
      loads transform.startup (cleaned (transform.crashed moved)) erasing id = true := by
  obtain ⟨hextracts, hunpacks⟩ := transform.loadable id (Or.inr houtput)
  refine ⟨?_, fun hmem => hnot hmem.1, ?_⟩
  · exact (mem_partitions_of_not_erased herased).mpr
      (Or.inr ⟨transform.outputs_staged id houtput, hmoved⟩)
  · simp [loads, hextracts, hunpacks, hnot]

/-- Startup moves the outputs and requests the erasure of inputs, unless the marker is gone. -/
theorem Performed.exists_finished (hperf : transform.Performed done)
    (haccepted : transform.keep = true → transform.Unmarked done) :
    ∃ moved erasing, (transform.crashed done).finishTransforms =
        some (cleaned (transform.crashed moved), erasing) ∧ (∀ operation, operation ∈ moved ↔
        operation ∈ done ∨ ¬transform.Unmarked done ∧ operation ∈ renames transform.outputs) ∧
      (∀ id ∈ transform.outputs, .movePartition id ∈ moved) ∧
      ∀ id, id ∈ erasing ↔ ¬transform.Unmarked done ∧ id ∈ transform.inputs ∧
        (transform.crashed done).pathExists id = true := by
  by_cases hunmarked : transform.Unmarked done
  · refine ⟨done, ∅, ?_, by simp [hunmarked], hperf.cases.2 hunmarked, by simp [hunmarked]⟩
    rw [finishTransforms, markers_unmarked hunmarked]
    rfl
  · have hkeep : transform.keep = false :=
      Bool.eq_false_iff.mpr fun hkeep => hunmarked (haccepted hkeep)
    refine ⟨_, _, finishTransforms_replace hunmarked hkeep, by simp [hunmarked],
      fun id hid => ?_, by simp [hunmarked]⟩
    exact mem_append_right _ (mem_renames.mpr ⟨id, hid, Or.inl rfl⟩)

theorem Performed.exists_persisted (hperf : transform.Performed done)
    (haccepted : transform.keep = true → transform.Unmarked done) :
    ∃ persisted ∈ loadFromDisk transform.startup (transform.crashed done),
      (∀ id ∈ transform.outputs, id ∈ persisted) ∧
      ∀ id ∈ transform.inputs, id ∈ persisted ↔ ¬transform.Gone done id := by
  obtain ⟨moved, erasing, hfinish, hmoved, houts, herasing⟩ :=
    hperf.exists_finished haccepted
  obtain ⟨persisted, hload, hmem⟩ := mem_loadFromDisk transform.startup hfinish
  refine ⟨persisted, hload, fun id hid => ?_, fun id hid => ?_⟩
  · rw [hmem id fun other hother => (transform.reimport_new other id hother).2 hid]
    refine output_loaded hid (houts id hid) ?_ ?_
    · simp [hmoved, hperf.not_erased hid, mem_renames]
    · rw [herasing]
      exact fun hinput => disjoint hinput.2.1 hid
  · rw [hmem id fun other hother => (transform.reimport_new other id hother).1 hid]
    obtain ⟨hextracts, hunpacks⟩ := transform.loadable id (Or.inl hid)
    obtain ⟨hmove, hmoveSynopsis⟩ := hperf.not_moved hid
    have hpart : id ∈ (cleaned (transform.crashed moved)).partitions ↔
        .erasePartition id ∉ done := by
      refine (mem_partitions_of_not_moved ?_).trans ?_
      · simp [hmoved, hmove, mem_renames, disjoint hid]
      · simp [hmoved, transform.inputs_mem id hid, mem_renames]
    have hsyn : id ∈ (cleaned (transform.crashed moved)).synopses ↔
        id ∈ transform.directory.synopses ∧ .eraseSynopsis id ∉ done := by
      refine (mem_synopses_of_not_moved ?_).trans ?_
      · simp [hmoved, hmoveSynopsis, mem_renames, disjoint hid]
      · simp [hmoved, mem_renames]
    have hpath : .erasePartition id ∉ done → (transform.crashed done).pathExists id = true := by
      intro herase
      have hthere := (mem_partitions_of_not_moved hmove).mpr ⟨transform.inputs_mem id hid, herase⟩
      simp [pathExists, show id ∈ (transform.crashed done).partitions from hthere]
    simp only [hpart, loads, Gone, InTime, hextracts, hunpacks, hsyn, herasing, hid,
      true_and, and_true, decide_eq_true_eq]
    grind

/-- A crash after the marker was written is atomic if and only if the marker does not
outlive a transform that keeps its inputs, and the inputs are all gone after startup, or
all there and without a new partition. -/
theorem atomic_iff (transform : MarkedTransform) (done : List Operation)
    (hperformed : transform.Performed done) : transform.Atomic done ↔
      (transform.keep = true ∧ transform.Unmarked done) ∨
      (transform.keep = false ∧ ((∀ id ∈ transform.inputs, transform.Gone done id) ∨
          (transform.outputs = [] ∧ ∀ id ∈ transform.inputs, ¬transform.Gone done id))) := by
  by_cases haccepted : transform.keep = true → transform.Unmarked done
  · obtain ⟨persisted, hload, houtputs, hinputs⟩ := hperformed.exists_persisted haccepted
    rw [Option.mem_def] at hload
    simp only [Atomic, hload, Option.mem_def, Option.some.injEq, exists_eq_left']
    cases hkeep : transform.keep with
    | true =>
      refine iff_of_true (Or.inl ⟨houtputs, fun hfalse => ?_⟩)
        (Or.inl ⟨rfl, haccepted hkeep⟩)
      cases hfalse
    | false =>
      have hnone : (∀ id ∈ transform.outputs, id ∉ persisted) ↔ transform.outputs = [] := by
        rw [eq_nil_iff_forall_not_mem]
        exact forall_congr' fun id =>
          ⟨fun hnot hid => hnot hid (houtputs id hid), fun hnot hid => absurd hid hnot⟩
      have hgone : (∀ id ∈ transform.inputs, id ∉ persisted) ↔
          ∀ id ∈ transform.inputs, transform.Gone done id :=
        forall₂_congr fun id hid => by rw [hinputs id hid, not_not]
      have hthere : (∀ id ∈ transform.inputs, id ∈ persisted) ↔
          ∀ id ∈ transform.inputs, ¬transform.Gone done id :=
        forall₂_congr hinputs
      have hall : (∀ id ∈ transform.outputs, id ∈ persisted) ↔ True := iff_true_intro houtputs
      simp [hnone, hgone, hthere, hall]
  · rw [Classical.not_imp] at haccepted
    obtain ⟨hkeep, hmarked⟩ := haccepted
    refine iff_of_false ?_ ?_
    · rintro ⟨persisted, hload, -⟩
      simp [loadFromDisk, finishTransforms_keep hmarked hkeep] at hload
    · simp [hkeep, hmarked]

/-! ## A transform of one partition -/

/-- The erasures that startup requests come too late or in time. -/
def sampleStartup (inTime : Bool) : Startup where
  erasedBeforeScan := fun _ => inTime
  erasedBeforeLoad := fun _ => inTime
  erasedBeforeLoad_of_scan := fun _ hscan => hscan
  extracts := fun _ => true
  unpacks := fun _ => true
  storeExists := fun _ => false
  reimport := fun _ => ∅

def sample (keep inTime : Bool) : MarkedTransform where
  transformId := 9
  inputs := [1]
  outputs := [2]
  keep := keep
  directory := {
    partitions := {1}
    synopses := {1}
    stagedPartitions := {2}
    stagedSynopses := {2}
    markers := [(9, some (createMarker [1] [2] keep))] }
  startup := sampleStartup inTime
  markers_eq := rfl
  inputs_mem := by simp
  outputs_staged := by simp
  outputs_new := by simp
  loadable := fun _ _ => ⟨rfl, rfl⟩
  reimport_new := fun _ other hother => absurd hother (Finset.notMem_empty other)

/-- Right after the marker was written, a crash of a transform that keeps its input makes
startup fail, and the crash of another one may leave the old and the new partition. -/
theorem crash_not_atomic : (sample true false).Performed [] ∧
      loadFromDisk (sampleStartup false) ((sample true false).crashed []) = none ∧
      (sample false false).Performed [] ∧
      loadFromDisk (sampleStartup false) ((sample false false).crashed []) = some {1, 2} :=
  ⟨⟨[], nil_subperm, nil_prefix⟩, by decide, ⟨[], nil_subperm, nil_prefix⟩,
    by decide⟩

/-- An erasure in time makes the same crash atomic. -/
theorem crash_atomic_in_time : (sample false true).Atomic [] :=
  (atomic_iff (sample false true) [] ⟨[], nil_subperm, nil_prefix⟩).mpr
    (Or.inr ⟨rfl, Or.inl fun _ _ => Or.inr ⟨not_mem_nil, Or.inl rfl⟩⟩)

end MarkedTransform

end Vast
