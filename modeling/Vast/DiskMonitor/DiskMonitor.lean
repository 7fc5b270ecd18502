import Vast.Catalog.Lookup
import Vast.Foundation.FlatSet
import Vast.Foundation.Run
import Vast.Foundation.Sorting

/-! # The disk monitor

The disk monitor looks at the size of the database from time to time. Above the high
water mark it sends itself a message to erase partitions. A round of erasing asks the
index to erase the oldest partitions, and when all answers are there, the next round is
triggered by another message if the size is still above the low water mark. Partitions
that cannot be erased are put on a blacklist.
-/

namespace Vast

open Foundation List

structure DiskMonitorConfig where
  highWaterMark : Nat := 0
  lowWaterMark : Nat := 0
  stepSize : Nat := 1

inductive DiskMonitorError where
  /-- step size must be greater than zero -/
  | stepSize
  /-- low-water mark greater than high-water mark -/
  | waterMarks
  deriving DecidableEq

def DiskMonitorConfig.validate (config : DiskMonitorConfig) : Option DiskMonitorError :=
  if config.stepSize < 1 then some .stepSize
  else if config.highWaterMark < config.lowWaterMark then some .waterMarks
  else none

/-- What the monitor sees of a directory entry. The partition is what the name is parsed
to. -/
structure DirectoryEntry where
  name : String
  extension : String
  partition : Option Uuid
  isRegularFile : Bool
  fileSize : Option Nat
  lastWriteTime : Option Int

structure PartitionDiskstate where
  id : Uuid
  filesize : Nat
  mtime : Int
  deriving DecidableEq

/-- How the standard library sorts partitions. -/
structure DiskstateSort where
  byId : Sorting fun first second : PartitionDiskstate => first.id < second.id
  byTime : Sorting fun first second : PartitionDiskstate => first.mtime < second.mtime

/-- The state of the monitor, together with what is outstanding: erase messages in its
mailbox, and requests to the index. -/
structure DiskMonitorState where
  pendingPartitions : Nat := 0
  blacklist : FlatSet Uuid := .empty
  erases : Nat := 0
  requests : List Uuid := []
  /-- The partitions whose erasure has failed. -/
  failed : List Uuid := []

namespace DiskMonitor

variable (config : DiskMonitorConfig) (std : DiskstateSort)
  {directory : Option (List DirectoryEntry)}

variable (state : DiskMonitorState)

def purging : Bool :=
  state.pendingPartitions ≠ 0

/-- The directory is measured unless a round is going on. -/
def onPing (size : Option Nat) : DiskMonitorState :=
  if purging state then state
  else
    match size with
    | none => state
    | some size =>
      if config.highWaterMark < size then { state with erases := state.erases + 1 } else state

def diskstate (entry : DirectoryEntry) : Option PartitionDiskstate :=
  if entry.name = "index.bin" then none
  else if entry.extension = ".mdx" then none
  else
    match entry.partition with
    | none => none
    | some id =>
      if entry.isRegularFile then
        match entry.fileSize, entry.lastWriteTime with
        | some filesize, some mtime => some { id, filesize, mtime }
        | _, _ => none
      else none

/-- The partitions that are not on the blacklist. Without a blacklist they are not sorted. -/
def goodPartitions (blacklist : FlatSet Uuid) (partitions : List PartitionDiskstate) :
    List PartitionDiskstate :=
  if blacklist.items.isEmpty then partitions
  else FlatSet.difference PartitionDiskstate.id (std.byId.sort partitions) blacklist.items

/-- The partitions to erase: the oldest ones, up to the step size. -/
def chosen (blacklist : FlatSet Uuid) (partitions : List PartitionDiskstate) :
    List PartitionDiskstate :=
  let partitions := std.byTime.sort (goodPartitions std blacklist partitions)
  partitions.take (min partitions.length config.stepSize)

/-- A round of erasing. It does not look at whether another one is going on. -/
def onErase (directory : Option (List DirectoryEntry)) : DiskMonitorState :=
  let state := { state with erases := state.erases - 1 }
  match directory with
  | none => state
  | some entries =>
    let partitions := entries.filterMap diskstate
    if partitions.isEmpty then state
    else
      let partitions := chosen config std state.blacklist partitions
      { state with
        pendingPartitions := state.pendingPartitions + partitions.length
        requests := state.requests ++ partitions.map PartitionDiskstate.id }

/-- After the last answer, the next round is triggered. -/
def continuation (size : Option Nat) : DiskMonitorState :=
  let state := { state with pendingPartitions := state.pendingPartitions - 1 }
  if state.pendingPartitions = 0 then
    match size with
    | none => state
    | some size =>
      if config.lowWaterMark < size then { state with erases := state.erases + 1 } else state
  else state

/-- An answer of the index. A partition that could not be erased in time is put on the
blacklist. -/
def onReply (index : Nat) (erased : Bool) (size : Option Nat) : DiskMonitorState :=
  match state.requests[index]? with
  | none => state
  | some id =>
    let state := { state with requests := state.requests.eraseIdx index }
    if erased then continuation config state size
    else
      continuation config
        { state with
          blacklist := state.blacklist.insert id
          failed := id :: state.failed }
        size

/-! ## Runs -/

/-- Messages come with what the file system says when they are handled. -/
inductive Action where
  | ping (size : Option Nat)
  /-- Some other actor sends an erase message. -/
  | send
  | erase (directory : Option (List DirectoryEntry))
  | reply (index : Nat) (erased : Bool) (size : Option Nat)

def step : Action → DiskMonitorState
  | .ping size => onPing config state size
  | .send => { state with erases := state.erases + 1 }
  | .erase directory => onErase config std state directory
  | .reply index erased size => onReply config state index erased size

def onDisk (directory : Option (List DirectoryEntry)) : List PartitionDiskstate :=
  (directory.getD []).filterMap diskstate

/-- A message can be handled when it is there. No partition has two files. -/
def Enabled : Action → Prop
  | .erase directory => 0 < state.erases ∧ ((onDisk directory).map PartitionDiskstate.id).Nodup
  | .reply index _ _ => index < state.requests.length
  | _ => True

instance (state : DiskMonitorState) : ∀ action, Decidable (Enabled state action)
  | .ping _ => inferInstanceAs (Decidable True)
  | .send => inferInstanceAs (Decidable True)
  | .erase _ => inferInstanceAs (Decidable (_ ∧ _))
  | .reply _ _ _ => inferInstanceAs (Decidable (_ < _))

variable {config std}

/-! ## A round -/

/-- The partitions on disk whose erasure has not failed. -/
def remaining (directory : Option (List DirectoryEntry)) : List PartitionDiskstate :=
  (onDisk directory).filter fun partition => decide (partition.id ∉ state.failed)

def requested (config : DiskMonitorConfig) (std : DiskstateSort) (state : DiskMonitorState)
    (directory : Option (List DirectoryEntry)) : List PartitionDiskstate :=
  chosen config std state.blacklist (onDisk directory)

/-- The oldest partitions whose erasure has not failed, up to the step size. -/
structure OldestFirst (config : DiskMonitorConfig) (remaining chosen : List PartitionDiskstate) :
    Prop where
  subperm : chosen.Subperm remaining
  length_eq : chosen.length = min config.stepSize remaining.length
  oldest : ∀ first ∈ chosen, ∀ second ∈ remaining, second ∉ chosen → first.mtime ≤ second.mtime

def Blacklisted : Prop :=
  ∀ id, id ∈ state.blacklist.items ↔ id ∈ state.failed

theorem ascending_sort_byId (std : DiskstateSort) {partitions : List PartitionDiskstate}
    (hnodup : (partitions.map PartitionDiskstate.id).Nodup) :
    Ascending PartitionDiskstate.id (std.byId.sort partitions) := by
  have hsorted := std.byId.sorted partitions
  have hdist : (std.byId.sort partitions).Pairwise fun first second =>
      first.id ≠ second.id := by
    rw [← pairwise_map]
    exact (((std.byId.perm partitions).map _).nodup_iff).mpr hnodup
  exact (hsorted.and hdist).imp fun hboth =>
    lt_of_le_of_ne (not_lt.mp hboth.1) hboth.2

/-- The good partitions are those whose erasure has not failed. -/
theorem perm_goodPartitions (std : DiskstateSort) {state : DiskMonitorState}
    (hblacklisted : Blacklisted state)
    (hnodup : ((onDisk directory).map PartitionDiskstate.id).Nodup) :
    (goodPartitions std state.blacklist (onDisk directory)).Perm (remaining state directory) := by
  have habsent : ∀ partition : PartitionDiskstate,
      decide (partition.id ∉ state.failed) = true ↔ partition.id ∉ state.blacklist.items := by
    intro partition
    rw [decide_eq_true_iff, hblacklisted]
  unfold goodPartitions
  split
  next hempty =>
    rw [remaining, filter_eq_self.mpr]
    intro partition _
    rw [habsent, isEmpty_iff.mp hempty]
    exact not_mem_nil
  · rw [FlatSet.difference_eq_filter (fun partition _ => habsent partition)
      (ascending_sort_byId std hnodup) state.blacklist.ascending]
    exact (std.byId.perm _).filter _

/-- A round requests the oldest partitions whose erasure has not failed. -/
theorem oldestFirst_requested {state : DiskMonitorState} (hblacklisted : Blacklisted state)
    (hnodup : ((onDisk directory).map PartitionDiskstate.id).Nodup) :
    OldestFirst config (remaining state directory) (requested config std state directory) := by
  have hsorted := std.byTime.sorted (goodPartitions std state.blacklist (onDisk directory))
  have hperm := (std.byTime.perm _).trans (perm_goodPartitions std hblacklisted hnodup)
  have hlen := hperm.length_eq
  rw [requested, chosen]
  generalize std.byTime.sort (goodPartitions std state.blacklist (onDisk directory)) = sorted
    at hsorted hperm hlen ⊢
  refine ⟨(take_sublist _ _).subperm.trans hperm.subperm, ?_, ?_⟩
  · rw [length_take]
    omega
  · intro first hfirst second hsecond hnot
    have hsplit : second ∈ sorted.drop (min sorted.length config.stepSize) := by
      have hmem := hperm.symm.subset hsecond
      rw [← take_append_drop (min sorted.length config.stepSize) sorted] at hmem
      exact (mem_append.mp hmem).resolve_left hnot
    rw [← take_append_drop (min sorted.length config.stepSize) sorted] at hsorted
    exact not_lt.mp ((pairwise_append.mp hsorted).2.2 first hfirst second hsplit)

/-! ## Steps -/

variable {state : DiskMonitorState}

section

variable (state : DiskMonitorState)

theorem requests_onErase (directory : Option (List DirectoryEntry)) :
    (onErase config std state directory).requests =
      state.requests ++ (requested config std state directory).map PartitionDiskstate.id := by
  have hnone : chosen config std state.blacklist [] = [] := by
    have hgood : goodPartitions std state.blacklist [] = [] := by
      unfold goodPartitions
      split
      · rfl
      · rw [Perm.eq_nil (std.byId.perm [])]
        rfl
    have hsorted : std.byTime.sort [] = [] := Perm.eq_nil (std.byTime.perm [])
    rw [chosen, hgood, hsorted]
    rfl
  unfold onErase requested onDisk
  cases directory with
  | none => simp [hnone]
  | some entries =>
    dsimp only [Option.getD_some]
    split
    next hempty => simp [isEmpty_iff.mp hempty, hnone]
    · rfl

theorem blacklist_onErase (directory : Option (List DirectoryEntry)) :
    (onErase config std state directory).blacklist = state.blacklist ∧
      (onErase config std state directory).failed = state.failed := by
  unfold onErase
  cases directory with
  | none => exact ⟨rfl, rfl⟩
  | some entries =>
    dsimp only
    split
    · exact ⟨rfl, rfl⟩
    · exact ⟨rfl, rfl⟩

/-- A continuation only counts and sends messages. -/
theorem continuation_eq (size : Option Nat) : ∃ erases, continuation config state size =
      { state with pendingPartitions := state.pendingPartitions - 1, erases := erases } := by
  unfold continuation
  dsimp only
  split
  · split
    · exact ⟨_, rfl⟩
    · split
      · exact ⟨_, rfl⟩
      · exact ⟨_, rfl⟩
  · exact ⟨_, rfl⟩

theorem onPing_eq (size : Option Nat) :
    ∃ erases, onPing config state size = { state with erases := erases } := by
  unfold onPing
  split
  · exact ⟨_, rfl⟩
  · split
    · exact ⟨_, rfl⟩
    · split
      · exact ⟨_, rfl⟩
      · exact ⟨_, rfl⟩

end

/-- An answer takes its request away, and a failure is recorded. -/
theorem onReply_eq {index : Nat} (hindex : index < state.requests.length) (erased : Bool)
    (size : Option Nat) : ∃ erases, onReply config state index erased size =
      { state with
        pendingPartitions := state.pendingPartitions - 1
        erases := erases
        requests := state.requests.eraseIdx index
        blacklist :=
          if erased then state.blacklist else state.blacklist.insert state.requests[index]
        failed := if erased then state.failed else state.requests[index] :: state.failed } := by
  unfold onReply
  rw [getElem?_eq_getElem hindex]
  cases erased with
  | true | false => exact continuation_eq _ _

theorem blacklisted_step {action : Action} (hblacklisted : Blacklisted state)
    (henabled : Enabled state action) : Blacklisted (step config std state action) := by
  cases action with
  | ping size =>
    obtain ⟨erases, heq⟩ := onPing_eq state size
    rw [step, heq]
    exact hblacklisted
  | send => exact hblacklisted
  | erase directory =>
    obtain ⟨hblacklist, hfailed⟩ := blacklist_onErase state directory
    rw [step, Blacklisted, hblacklist, hfailed]
    exact hblacklisted
  | reply index erased size =>
    obtain ⟨erases, heq⟩ := onReply_eq henabled erased size
    rw [step, heq]
    cases erased with
    | true => exact hblacklisted
    | false =>
      intro id
      rw [if_neg (by decide), if_neg (by decide), FlatSet.mem_insert, mem_cons, hblacklisted id]

end DiskMonitor

end Vast
