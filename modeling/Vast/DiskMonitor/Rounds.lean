import Vast.DiskMonitor.DiskMonitor

/-! # Rounds of erasing

The ping handler starts no round while another one is going on, but it only sends a
message, and the handler of that message does not look again. Two pings in a row trigger
two rounds, and the second one requests the same partitions as the first, unless they
are gone from the disk in the meantime.
-/

namespace Vast

open Foundation List

namespace DiskMonitor

variable {config : DiskMonitorConfig} {std : DiskstateSort} {state : DiskMonitorState}
  {action : Action}

/-- What holds between messages: the blacklist has the partitions that failed, and the
answers that are missing are counted. -/
structure Consistent (state : DiskMonitorState) : Prop where
  blacklisted : Blacklisted state
  pending : state.pendingPartitions = state.requests.length

theorem consistent_initial : Consistent {} where
  blacklisted := fun _ => Iff.rfl
  pending := rfl

theorem consistent_step (hcons : Consistent state) (henabled : Enabled state action) :
    Consistent (step config std state action) where
  blacklisted := blacklisted_step hcons.blacklisted henabled
  pending := by
    have hpend := hcons.pending
    cases action with
    | ping size =>
      obtain ⟨erases, heq⟩ := onPing_eq state size
      rw [step, heq]
      exact hpend
    | send => exact hpend
    | erase directory =>
      unfold step onErase
      cases directory with
      | none => exact hpend
      | some entries =>
        dsimp only
        split
        · exact hpend
        · simp only [length_append, length_map]
          omega
    | reply index erased size =>
      obtain ⟨erases, heq⟩ := onReply_eq henabled erased size
      have hlen := length_eraseIdx_of_lt henabled
      rw [step, heq]
      dsimp only
      omega

/-! ## Requests -/

/-- No request is outstanding when an erase message is handled. -/
def inTurn (state : DiskMonitorState) : Action → Bool
  | .erase _ => !purging state
  | _ => true

theorem requests_eq_nil (hcons : Consistent state) (hpurging : purging state = false) :
    state.requests = [] := by
  have hpend := hcons.pending
  rw [purging, decide_eq_false_iff_not] at hpurging
  exact length_eq_zero_iff.mp (by omega)

/-- A round asks for no partition twice. -/
theorem nodup_requested (hcons : Consistent state) {directory : Option (List DirectoryEntry)}
    (hnodup : ((onDisk directory).map PartitionDiskstate.id).Nodup) :
    ((requested config std state directory).map PartitionDiskstate.id).Nodup := by
  have holdest : OldestFirst config (remaining state directory)
      (requested config std state directory) :=
    oldestFirst_requested hcons.blacklisted hnodup
  obtain ⟨part, hperm, hsublist⟩ := holdest.subperm
  have hrem : ((remaining state directory).map PartitionDiskstate.id).Nodup :=
    hnodup.sublist (filter_sublist.map _)
  exact ((hperm.map _).nodup_iff).mp (hrem.sublist (hsublist.map _))

/-- Requests stay distinct if a round begins after all answers to the one before. -/
theorem nodup_requests_step (hcons : Consistent state) (henabled : Enabled state action)
    (hturn : inTurn state action = true) (hnodup : state.requests.Nodup) :
    (step config std state action).requests.Nodup := by
  cases action with
  | ping size =>
    obtain ⟨erases, heq⟩ := onPing_eq state size
    rw [step, heq]
    exact hnodup
  | send => exact hnodup
  | erase directory =>
    have hnone : state.requests = [] := requests_eq_nil hcons (by simpa [inTurn] using hturn)
    rw [step, requests_onErase, hnone, nil_append]
    exact nodup_requested hcons henabled.2
  | reply index erased size =>
    obtain ⟨erases, heq⟩ := onReply_eq henabled erased size
    rw [step, heq]
    exact hnodup.sublist (eraseIdx_sublist _ _)

theorem one_le_stepSize (hvalid : config.validate = none) : 1 ≤ config.stepSize := by
  by_contra hstep
  rw [DiskMonitorConfig.validate, if_pos (by omega)] at hvalid
  cases hvalid

/-- At no time are there two outstanding requests for a partition. -/
def DistinctRequests (config : DiskMonitorConfig) (std : DiskstateSort) (actions : List Action) :
    Prop :=
  ∀ done rest, actions = done ++ rest → (done.foldl (step config std) {}).requests.Nodup

/-- Each round asks for the oldest partitions on disk that have not failed, up to the step
size, and for at least one if there is any. -/
def AsksForOldest (config : DiskMonitorConfig) (std : DiskstateSort) (actions : List Action) :
    Prop :=
  ∀ done directory rest, actions = done ++ .erase directory :: rest →
    ∃ partitions : List PartitionDiskstate,
      ((done ++ [.erase directory]).foldl (step config std) {}).requests =
        (done.foldl (step config std) {}).requests ++ partitions.map PartitionDiskstate.id ∧
      OldestFirst config (remaining (done.foldl (step config std) {}) directory) partitions ∧
      (∀ partition ∈ partitions, partition.id ∉ (done.foldl (step config std) {}).failed) ∧
      (remaining (done.foldl (step config std) {}) directory ≠ [] → partitions ≠ [])

/-- The rounds of every run ask for the oldest partitions. Requests are distinct in every run
that handles erase messages only while no request is outstanding. -/
theorem erases_oldest_distinct (config : DiskMonitorConfig) (std : DiskstateSort)
    (actions : List Action) (hvalid : config.validate = none)
    (hrun : Run.Admissible (step config std) Enabled {} actions) :
    AsksForOldest config std actions ∧
      (Run.Admissible (step config std) (fun state action => inTurn state action = true) {}
        actions → DistinctRequests config std actions) := by
  have hconsistent : ∀ {done rest}, actions = done ++ rest →
      Consistent (done.foldl (step config std) {}) := by
    rintro done rest rfl
    exact Run.invariant Consistent
      (fun _ _ hconsistent henabled => consistent_step hconsistent henabled)
      consistent_initial (Run.admissible_append.mp hrun).1
  constructor
  · rintro done directory rest rfl
    have henabled := (Run.admissible_append.mp hrun).2.1
    have holdest : OldestFirst config (remaining (done.foldl (step config std) {}) directory)
        (requested config std (done.foldl (step config std) {}) directory) :=
      oldestFirst_requested (hconsistent rfl).blacklisted henabled.2
    refine ⟨_, ?_, holdest, fun partition hpartition => ?_, fun hremaining => ?_⟩
    · rw [foldl_append]
      exact requests_onErase _ _
    · have hremaining := holdest.subperm.subset hpartition
      exact of_decide_eq_true (mem_filter.mp hremaining).2
    · have hlen := holdest.length_eq
      have hstep := one_le_stepSize hvalid
      have hpos := length_pos_iff.mpr hremaining
      exact length_pos_iff.mp (by omega)
  · intro hturns done
    induction done using List.reverseRecOn with
    | nil => exact fun _ _ => nodup_nil
    | append_singleton done action ih =>
      rintro rest rfl
      rw [append_assoc] at hrun hturns hconsistent ih
      rw [foldl_append]
      exact nodup_requests_step (hconsistent rfl) (Run.admissible_append.mp hrun).2.1
        (Run.admissible_append.mp hturns).2.1 (ih _ rfl)

def stableSort : DiskstateSort :=
  let byId := fun first second : PartitionDiskstate => first.id ≤ second.id
  let byTime := fun first second : PartitionDiskstate => first.mtime ≤ second.mtime
  have : Std.Total byId := ⟨fun _ _ => le_total _ _⟩
  have : IsTrans PartitionDiskstate byId := ⟨fun _ _ _ => le_trans⟩
  have : Std.Total byTime := ⟨fun _ _ => Int.le_total _ _⟩
  have : IsTrans PartitionDiskstate byTime := ⟨fun _ _ _ => Int.le_trans⟩
  { byId := .insertion byId fun _ _ => not_lt_of_ge
    byTime := .insertion byTime fun _ _ => Int.not_lt.mpr }

def onePartition : List DirectoryEntry :=
  [{ name := "7", extension := "", partition := some 7, isRegularFile := true
     fileSize := some 10, lastWriteTime := some 3 }]

/-- Two pings, and the partition is requested twice. -/
theorem partition_requested_twice : Run.Admissible (step {} stableSort) Enabled {}
        [.ping (some 10), .ping (some 10), .erase (some onePartition), .erase (some onePartition)] ∧
      ([.ping (some 10), .ping (some 10), .erase (some onePartition),
        .erase (some onePartition)].foldl (step {} stableSort) {}).requests = [7, 7] ∧
      ¬DistinctRequests {} stableSort [.ping (some 10), .ping (some 10),
        .erase (some onePartition), .erase (some onePartition)] := by
  have hrequests : ([.ping (some 10), .ping (some 10), .erase (some onePartition),
      .erase (some onePartition)].foldl (step {} stableSort) {}).requests = [7, 7] := by decide
  refine ⟨by decide, hrequests, fun hdistinct => ?_⟩
  have hnodup := hdistinct _ [] (append_nil _).symm
  exact absurd hnodup (by decide)

/-- The second round begins after the answer. -/
theorem rounds_in_turn :
    AsksForOldest {} stableSort [.ping (some 10), .erase (some onePartition),
        .reply 0 false (some 10), .erase (some onePartition)] ∧
      DistinctRequests {} stableSort [.ping (some 10), .erase (some onePartition),
        .reply 0 false (some 10), .erase (some onePartition)] := by
  obtain ⟨hrounds, hdistinct⟩ := erases_oldest_distinct {} stableSort
    [.ping (some 10), .erase (some onePartition), .reply 0 false (some 10),
      .erase (some onePartition)] rfl (by decide)
  exact ⟨hrounds, hdistinct (by decide)⟩

end DiskMonitor

end Vast
