import Vast.Foundation.Run
import Vast.Foundation.Sorting
import Vast.Queue.QueryQueue
import Vast.Rebuild.Selection
import Vast.Transform.FanoutCounter

/-! # The rebuilder

A run starts with a lookup of candidates. A number of workers then share the partitions
that remain to be rebuilt. A worker is a chain of messages that the rebuilder sends to
itself: with each one it takes partitions of one schema, asks the index to rebuild them,
and goes on when the answer is there. A result that came out too small is put back.
-/

namespace Vast

open Foundation List

structure ImportTimeSort where
  oldestFirst : Sorting fun first second : PartitionInfo =>
    first.maxImportTime < second.maxImportTime
  newestFirst : Sorting fun first second : PartitionInfo =>
    second.maxImportTime < first.maxImportTime

def ImportTimeSort.insertion : ImportTimeSort :=
  let oldest := fun first second : PartitionInfo => first.maxImportTime ≤ second.maxImportTime
  let newest := fun first second : PartitionInfo => second.maxImportTime ≤ first.maxImportTime
  have : Std.Total oldest := ⟨fun _ _ => Int64.le_total _ _⟩
  have : IsTrans PartitionInfo oldest := ⟨fun _ _ _ => Int64.le_trans⟩
  have : Std.Total newest := ⟨fun _ _ => Int64.le_total _ _⟩
  have : IsTrans PartitionInfo newest := ⟨fun _ _ _ hfirst hsecond => Int64.le_trans hsecond hfirst⟩
  { oldestFirst := .insertion oldest fun _ _ => Int64.not_lt.mpr
    newestFirst := .insertion newest fun _ _ => Int64.not_lt.mpr }

/-- Numbers of partitions. They are unsigned in the program: a negative number is one that
has wrapped around. -/
structure Statistics where
  numTotal : Int := 0
  numRebuilding : Int := 0
  numCompleted : Int := 0
  numResults : Int := 0

structure RebuildRun where
  options : RunOptions
  remainingPartitions : List PartitionInfo := []
  statistics : Statistics := {}
  stopRequests : Nat := 0

namespace Rebuilder

/-- A request to the index, with what its continuation has captured. -/
structure ApplyRequest where
  /-- The partitions in the order of their selection. -/
  selection : List PartitionInfo
  /-- The partitions as they are sent. -/
  partitions : List PartitionInfo
  numPartitions : Nat
  isOversized : Bool

inductive ApplyReply where
  | error
  | result (partitions : List PartitionInfo)

end Rebuilder

/-- The state of the rebuilder, together with what is outstanding: the answer of the
catalog, messages to itself, requests to the index, and answers to finished chains. -/
structure RebuilderState where
  run : Option RebuildRun := none
  stopping : Bool := false
  looking : Bool := false
  rebuilds : Nat := 0
  applies : List Rebuilder.ApplyRequest := []
  answers : Nat := 0
  counter : FanoutCounter Unit Error := .make 0 ()
  /-- What the run has finished with. -/
  finished : Option Statistics := none
  stopReplies : Nat := 0

namespace Rebuilder

variable (config : RebuilderConfig) (std : ImportTimeSort) {schema : VastType} {events : Nat}
  {infos : List PartitionInfo}

/-! ## Starting and stopping -/

inductive StartReply where
  /-- rebuild requires a non-zero parallel level -/
  | invalidConfiguration
  /-- … refuses to start rebuild while a rebuild is still ongoing (…/… done) -/
  | ongoing (numCompleted numTotal : Int)
  /-- An automatic run does not start next to another run. -/
  | ignored
  /-- An automatic run is stopped first. -/
  | stopsAutomatic
  | started

variable (state : RebuilderState)

def start (options : StartOptions) : StartReply × RebuilderState :=
  match options.accept with
  | none => (.invalidConfiguration, state)
  | some options =>
    match state.run with
    | none => (.started, { state with run := some { options }, looking := true })
    | some run =>
      if options.automatic then (.ignored, state)
      else if !run.options.automatic then
        (.ongoing run.statistics.numCompleted run.statistics.numTotal, state)
      else (.stopsAutomatic, state)

variable (run : RebuildRun)

def finish : RebuilderState :=
  { state with
    run := none
    finished := some run.statistics
    stopReplies := state.stopReplies + run.stopRequests }

/-- The remaining partitions are dropped. An answer has to wait for the others, unless the
request is detached. -/
def stop (detached : Bool) : RebuilderState :=
  { state with
    stopping := true
    run := some
      { run with
        statistics :=
          { run.statistics with
            numTotal := run.statistics.numTotal - run.remainingPartitions.length }
        remainingPartitions := []
        stopRequests := if detached then run.stopRequests else run.stopRequests + 1 } }

/-- Work on what the catalog has found. -/
def onLookup (result : CatalogLookupResult) : RebuilderState :=
  match select config run.options result with
  | .undefined => state
  | .nothing => finish { state with looking := false } run
  | .selected partitions numTotal =>
    { state with
      looking := false
      run := some
        { run with
          remainingPartitions := run.remainingPartitions ++ partitions
          statistics := { run.statistics with numTotal } }
      rebuilds := run.options.parallel
      counter := .make run.options.parallel () }

/-! ## Rebuilding -/

/-- The partitions of a schema that are taken, and those that are left. No more partitions
are taken once there are enough events. -/
def collect (schema : VastType) : Nat → List PartitionInfo → List PartitionInfo × List PartitionInfo
  | _, [] => ([], [])
  | currentRunEvents, info :: rest =>
    if schema = info.schema ∧ currentRunEvents < config.maxPartitionSize.toNat then
      let work := collect schema (currentRunEvents + info.events.toNat) rest
      (info :: work.1, work.2)
    else
      let work := collect schema currentRunEvents rest
      (work.1, info :: work.2)

/-- The number of events. There are less than 2^64 in a database. -/
def numEvents (infos : List PartitionInfo) : Nat :=
  (infos.map fun info => info.events.toNat).sum

variable (options : RunOptions)

/-- A single undersized partition that is up to date is left as it is. -/
def skipRebuild : List PartitionInfo → Bool
  | [info] => options.undersized && decide (info.version = config.currentPartitionVersion) &&
      decide (info.events ≤ config.maxPartitionSize)
  | _ => false

/-- What is left of a vector that has been moved. -/
def movedFrom (_ : List PartitionInfo) : List PartitionInfo :=
  []

/-- The request for the selected partitions. The continuation captures the size of the
vector after it has been moved into the request. -/
def makeApply (selection : List PartitionInfo) : ApplyRequest :=
  let partitions := std.oldestFirst.sort selection
  { selection, partitions
    numPartitions := (movedFrom partitions).length
    isOversized := decide (config.maxPartitionSize.toNat < numEvents selection) }

def onRebuild : RebuilderState :=
  match run.remainingPartitions with
  | [] => { state with rebuilds := state.rebuilds - 1, answers := state.answers + 1 }
  | first :: rest =>
    let work := collect config first.schema 0 (first :: rest)
    let numRebuilding := run.statistics.numRebuilding + work.1.length
    if skipRebuild config run.options work.1 then
      -- The message is delegated to the rebuilder itself.
      { state with
        run := some
          { run with
            remainingPartitions := work.2
            statistics :=
              { run.statistics with
                numRebuilding := numRebuilding - 1
                numTotal := run.statistics.numTotal - 1 } } }
    else
      { state with
        rebuilds := state.rebuilds - 1
        applies := state.applies ++ [makeApply config std work.1]
        run := some
          { run with
            remainingPartitions := work.2
            statistics := { run.statistics with numRebuilding } } }

variable (request : ApplyRequest)

/-- The last of the resulting partitions, if it has to be rebuilt again. -/
def secondStage (result : List PartitionInfo) : Option PartitionInfo :=
  if request.isOversized then
    result.getLast?.filter fun info => info.events ≤ config.undersizedEvents
  else none

def continueRun : ApplyReply → RebuildRun
  | .error =>
    { run with
      statistics :=
        { run.statistics with
          numRebuilding := run.statistics.numRebuilding - request.numPartitions } }
  | .result [] =>
    { run with
      statistics :=
        { run.statistics with
          numTotal := run.statistics.numTotal - request.numPartitions
          numRebuilding := run.statistics.numRebuilding - request.numPartitions } }
  | .result (first :: rest) =>
    let statistics :=
      { run.statistics with
        numRebuilding := run.statistics.numRebuilding - request.numPartitions
        numCompleted := run.statistics.numCompleted + request.numPartitions
        numResults := run.statistics.numResults + (first :: rest).length }
    match secondStage config request (first :: rest) with
    | none => { run with statistics }
    | some info =>
      { run with
        remainingPartitions := std.newestFirst.sort (run.remainingPartitions ++ [info])
        statistics :=
          { statistics with
            numCompleted := statistics.numCompleted - 1
            numResults := statistics.numResults - 1
            numTotal := statistics.numTotal + 1 } }

def onReply (index : Nat) (reply : ApplyReply) : RebuilderState :=
  match state.applies[index]? with
  | none => state
  | some request =>
    { state with
      applies := state.applies.eraseIdx index
      rebuilds := state.rebuilds + 1
      run := some (continueRun config std run request reply) }

/-- A chain has ended. After the last one, the run is finished. -/
def onAnswer : RebuilderState :=
  let counter := state.counter.countSuccess
  let state := { state with answers := state.answers - 1, counter }
  match counter.trigger with
  | none => state
  | some _ => finish state run

/-! ## Runs -/

inductive Action where
  | lookup (result : CatalogLookupResult)
  | lookupFailed
  | rebuild
  | reply (index : Nat) (reply : ApplyReply)
  | answer
  | stop (detached : Bool)

def step (action : Action) : RebuilderState :=
  match state.run with
  | none =>
    match action with
    | .stop _ => { state with stopping := false }
    | _ => state
  | some run =>
    match action with
    | .lookup result => onLookup config state run result
    | .lookupFailed => finish { state with looking := false } run
    | .rebuild => onRebuild config std state run
    | .reply index reply => onReply config std state run index reply
    | .answer => onAnswer state run
    | .stop detached => stop state run detached

/-- A message can be handled when it is there. The traversal of the candidates has to be
defined. -/
def Enabled : Action → Prop
  | .lookup result => state.looking = true ∧
      ∀ run, state.run = some run → select config run.options result ≠ .undefined
  | .lookupFailed => state.looking = true
  | .rebuild => 0 < state.rebuilds
  | .reply index _ => index < state.applies.length
  | .answer => 0 < state.answers
  | .stop _ => True

def initial : RebuilderState where
  run := some { options }
  looking := true

/-- What is accepted starts a run if there is none. -/
theorem start_eq_iff {request : StartOptions} :
    start {} request = (.started, initial options) ↔ request.accept = some options := by
  cases hrequest : request.accept with
  | none => simp [start, hrequest]
  | some accepted => simp [start, hrequest, initial]

/-! ## Taking partitions -/

/-- What is taken and what is left of the remaining partitions. -/
structure Collected (remaining taken left : List PartitionInfo) : Prop where
  perm : (taken ++ left).Perm remaining
  taken_ne_nil : taken ≠ []
  schema : ∃ schema, ∀ info ∈ taken, info.schema = schema
  /-- One partition less would not have been enough. -/
  events_lt : numEvents taken.dropLast < config.maxPartitionSize.toNat

variable {config std}

theorem numEvents_cons (info : PartitionInfo) (rest : List PartitionInfo) :
    numEvents (info :: rest) = info.events.toNat + numEvents rest := rfl

theorem perm_collect (schema : VastType) (events : Nat) (infos : List PartitionInfo) :
    ((collect config schema events infos).1 ++ (collect config schema events infos).2).Perm
      infos := by
  induction infos generalizing events with
  | nil => exact Perm.refl _
  | cons info rest ih =>
    rw [collect]
    split
    · exact (ih _).cons info
    · exact perm_middle.trans ((ih _).cons info)

theorem schema_of_mem_collect {info : PartitionInfo}
    (hmem : info ∈ (collect config schema events infos).1) : info.schema = schema := by
  induction infos generalizing events with
  | nil => simp [collect] at hmem
  | cons head rest ih =>
    rw [collect] at hmem
    split at hmem
    next htaken =>
      rcases mem_cons.mp hmem with rfl | hrest
      · exact htaken.1.symm
      · exact ih hrest
    · exact ih hmem

/-- Before the last partition was taken, there were not enough events. -/
theorem events_lt_of_collect (hne : (collect config schema events infos).1 ≠ []) :
    events + numEvents (collect config schema events infos).1.dropLast <
      config.maxPartitionSize.toNat := by
  induction infos generalizing events with
  | nil => exact absurd rfl hne
  | cons head rest ih =>
    rw [collect] at hne ⊢
    split
    next htaken =>
      cases hrest : (collect config schema (events + head.events.toNat) rest).1 with
      | nil => simpa [hrest, numEvents] using htaken.2
      | cons second others =>
        have hne' : (collect config schema (events + head.events.toNat) rest).1 ≠ [] := by
          simp [hrest]
        have hsecond := ih hne'
        rw [hrest] at hsecond
        simp only [hrest, dropLast_cons_cons, numEvents_cons]
        omega
    next hleft =>
      rw [if_neg hleft] at hne
      exact ih hne

theorem collected (first : PartitionInfo) (rest : List PartitionInfo) :
    Collected config (first :: rest) (collect config first.schema 0 (first :: rest)).1
      (collect config first.schema 0 (first :: rest)).2 := by
  have hne : (collect config first.schema 0 (first :: rest)).1 ≠ [] := by
    rw [collect, if_pos ⟨rfl, config.positive⟩]
    exact cons_ne_nil _ _
  have hevents := events_lt_of_collect hne
  rw [Nat.zero_add] at hevents
  exact ⟨perm_collect _ _ _, hne, ⟨_, fun _ => schema_of_mem_collect⟩, hevents⟩

theorem Collected.length_eq {remaining taken left : List PartitionInfo}
    (hcoll : Collected config remaining taken left) :
    taken.length + left.length = remaining.length := by
  rw [← length_append]
  exact hcoll.perm.length_eq

theorem length_of_skipRebuild {options : RunOptions} {taken : List PartitionInfo}
    (hskip : skipRebuild config options taken = true) : taken.length = 1 := by
  match taken with
  | [_] => rfl
  | [] | _ :: _ :: _ => cases hskip

/-! ## What a worker puts back -/

theorem remaining_continueRun (config : RebuilderConfig) (std : ImportTimeSort)
    (run : RebuildRun) (request : ApplyRequest) (reply : ApplyReply) :
    (continueRun config std run request reply).remainingPartitions = run.remainingPartitions ∨
      ∃ result info, reply = .result result ∧ info ∈ result ∧ request.isOversized = true ∧
        info.events ≤ config.undersizedEvents ∧
        ((continueRun config std run request reply).remainingPartitions).Perm
          (info :: run.remainingPartitions) := by
  match reply with
  | .error | .result [] => exact Or.inl rfl
  | .result (first :: rest) =>
    rw [continueRun]
    cases hsecond : secondStage config request (first :: rest) with
    | none => exact Or.inl rfl
    | some info =>
      rw [secondStage] at hsecond
      split at hsecond
      next hoversized =>
        obtain ⟨hlast, hevents⟩ := Option.filter_eq_some_iff.mp hsecond
        refine Or.inr ⟨_, info, rfl, mem_of_getLast? hlast, hoversized, by simpa using hevents, ?_⟩
        exact (std.newestFirst.perm _).trans (perm_append_singleton _ _)
      · cases hsecond

theorem continueRun_fields (reply : ApplyReply) :
    (continueRun config std run request reply).options = run.options ∧
      (continueRun config std run request reply).statistics.numRebuilding =
        run.statistics.numRebuilding - request.numPartitions := by
  match reply with
  | .error | .result [] => exact ⟨rfl, rfl⟩
  | .result (first :: rest) =>
    rw [continueRun]
    cases secondStage config request (first :: rest) with
    | none | some _ => exact ⟨rfl, rfl⟩

/-! ## What a message does -/

def pending : Nat :=
  state.rebuilds + state.applies.length + state.answers

def answered : RebuilderState :=
  { state with answers := state.answers - 1, counter := state.counter.countSuccess }

structure Looking (state : RebuilderState) (run : RebuildRun) : Prop where
  run_eq : state.run = some run
  options_eq : run.options = options
  looking_eq : state.looking = true
  pending_eq : pending state = 0
  remaining_eq : run.remainingPartitions = []

structure Working (state : RebuilderState) (run : RebuildRun) : Prop where
  run_eq : state.run = some run
  options_eq : run.options = options
  looking_eq : state.looking = false
  awaits : state.counter.Awaits (pending state)
  busy : 0 < pending state

inductive Outstanding (options : RunOptions) (state : RebuilderState) : Prop where
  | looking {run : RebuildRun} (hlooking : Looking options state run)
  | working {run : RebuildRun} (hworking : Working options state run)
  | finished (hrun : state.run = none) (hpending : pending state = 0)
      (hlooking : state.looking = false)

section Effect

variable {options : RunOptions} {state next : RebuilderState} {run : RebuildRun} {action : Action}

variable (config std options state) in
/-- What a message does that can be handled. -/
inductive Effect : Action → RebuilderState → Prop where
  /-- There is no run to stop. -/
  | idle {detached : Bool} (hpending : pending state = 0) (hlooking : state.looking = false) :
      Effect (.stop detached) { state with run := none, stopping := false }
  | failed {run : RebuildRun} (hlooking : Looking options state run) :
      Effect .lookupFailed (finish { state with looking := false } run)
  | nothing {run : RebuildRun} {result : CatalogLookupResult} (hlooking : Looking options state run)
      (hselect : select config run.options result = .nothing) :
      Effect (.lookup result) (finish { state with looking := false } run)
  | selected {run : RebuildRun} {result : CatalogLookupResult} {partitions : List PartitionInfo}
      {numTotal : Nat} (hlooking : Looking options state run)
      (hselect : select config run.options result = .selected partitions numTotal) :
      Effect (.lookup result)
        { state with
          looking := false
          run := some
            { run with
              remainingPartitions := run.remainingPartitions ++ partitions
              statistics := { run.statistics with numTotal } }
          rebuilds := run.options.parallel
          counter := .make run.options.parallel () }
  /-- A chain ends. -/
  | ended {run : RebuildRun} (hworking : Working options state run)
      (hrebuilds : 0 < state.rebuilds) : Effect .rebuild
        { state with rebuilds := state.rebuilds - 1, answers := state.answers + 1 }
  | skipped {run : RebuildRun} {taken left : List PartitionInfo}
      (hworking : Working options state run) (hrebuilds : 0 < state.rebuilds)
      (hcollected : Collected config run.remainingPartitions taken left)
      (hsingle : taken.length = 1) : Effect .rebuild
        { state with
          run := some
            { run with
              remainingPartitions := left
              statistics :=
                { run.statistics with
                  numRebuilding := run.statistics.numRebuilding + taken.length - 1
                  numTotal := run.statistics.numTotal - 1 } } }
  | sent {run : RebuildRun} {taken left : List PartitionInfo}
      (hworking : Working options state run) (hrebuilds : 0 < state.rebuilds)
      (hcollected : Collected config run.remainingPartitions taken left) : Effect .rebuild
        { state with
          rebuilds := state.rebuilds - 1
          applies := state.applies ++ [makeApply config std taken]
          run := some
            { run with
              remainingPartitions := left
              statistics :=
                { run.statistics with
                  numRebuilding := run.statistics.numRebuilding + taken.length } } }
  | replied {run : RebuildRun} {index : Nat} (reply : ApplyReply)
      (hworking : Working options state run) (hindex : index < state.applies.length) :
      Effect (.reply index reply)
        { state with
          applies := state.applies.eraseIdx index
          rebuilds := state.rebuilds + 1
          run := some (continueRun config std run state.applies[index] reply) }
  | counted {run : RebuildRun} (hworking : Working options state run)
      (hanswers : 0 < state.answers)
      (hawaits : (answered state).counter.Awaits (pending (answered state)))
      (hmore : pending (answered state) ≠ 0) : Effect .answer (answered state)
  /-- The last chain has ended. -/
  | finished {run : RebuildRun} (hworking : Working options state run)
      (hanswers : 0 < state.answers) (hlast : pending (answered state) = 0) :
      Effect .answer (finish (answered state) run)
  | stopped {run : RebuildRun} {detached : Bool} (hrun : state.run = some run) :
      Effect (.stop detached) (stop state run detached)

theorem applies_of_pending (hpend : pending state = 0) : state.applies = [] := by
  unfold pending at hpend
  exact length_eq_zero_iff.mp (by omega)

theorem not_enabled_of_pending (hpend : pending state = 0) :
    ¬Enabled config state .rebuild ∧ ¬Enabled config state .answer ∧
      ∀ index reply, ¬Enabled config state (.reply index reply) := by
  unfold pending at hpend
  simp only [Enabled]
  refine ⟨?_, ?_, fun index reply => ?_⟩
  all_goals omega

theorem effect_onRebuild (hworking : Working options state run) (hrebuilds : 0 < state.rebuilds) :
    Effect config std options state .rebuild (onRebuild config std state run) := by
  unfold onRebuild
  cases hrem : run.remainingPartitions with
  | nil => exact .ended hworking hrebuilds
  | cons first rest =>
    have hcoll := @collected config first rest
    rw [← hrem] at hcoll
    dsimp only
    rw [← hrem]
    split
    next hskip => exact .skipped hworking hrebuilds hcoll (length_of_skipRebuild hskip)
    · exact .sent hworking hrebuilds hcoll

theorem effect_onAnswer (hworking : Working options state run) (hanswers : 0 < state.answers) :
    Effect config std options state .answer (onAnswer state run) := by
  have hpend : pending state = pending (answered state) + 1 := by
    simp only [pending, answered]
    omega
  have hawaits := hworking.awaits
  rw [hpend] at hawaits
  unfold onAnswer
  dsimp only
  rw [hawaits.countSuccess.trigger_eq]
  by_cases hlast : pending (answered state) = 0
  · rw [if_pos hlast]
    exact .finished hworking hanswers hlast
  · rw [if_neg hlast]
    exact .counted hworking hanswers hawaits.countSuccess hlast

theorem Outstanding.effect (houtstanding : Outstanding options state)
    (henabled : Enabled config state action) :
    Effect config std options state action (step config std state action) := by
  unfold step
  cases houtstanding with
  | finished hrun hpend hlooking =>
    obtain ⟨hrebuild, hanswer, hreply⟩ := @not_enabled_of_pending config _ hpend
    rw [hrun]
    cases action with
    | lookup result => cases hlooking.symm.trans henabled.1
    | lookupFailed => cases hlooking.symm.trans henabled
    | rebuild => exact absurd henabled hrebuild
    | reply index reply => exact absurd henabled (hreply index reply)
    | answer => exact absurd henabled hanswer
    | stop detached => exact .idle hpend hlooking
  | @looking run h =>
    obtain ⟨hrebuild, hanswer, hreply⟩ := @not_enabled_of_pending config _ h.pending_eq
    rw [h.run_eq]
    cases action with
    | lookup result =>
      simp only [onLookup]
      cases hsel : select config run.options result with
      | undefined => exact absurd hsel (henabled.2 run h.run_eq)
      | nothing => exact .nothing h hsel
      | selected partitions numTotal => exact .selected h hsel
    | lookupFailed => exact .failed h
    | rebuild => exact absurd henabled hrebuild
    | reply index reply => exact absurd henabled (hreply index reply)
    | answer => exact absurd henabled hanswer
    | stop detached => exact .stopped h.run_eq
  | @working run h =>
    rw [h.run_eq]
    cases action with
    | lookup result => cases h.looking_eq.symm.trans henabled.1
    | lookupFailed => cases h.looking_eq.symm.trans henabled
    | rebuild => exact effect_onRebuild h henabled
    | reply index reply =>
      have hindex : index < state.applies.length := henabled
      simp only [onReply, getElem?_eq_getElem hindex]
      exact .replied reply h hindex
    | answer => exact effect_onAnswer h henabled
    | stop detached => exact .stopped h.run_eq

/-- The same number of chains goes on. -/
theorem Working.keep {after : RebuildRun} (hworking : Working options state run)
    (hrun : next.run = some after) (hoptions : after.options = run.options)
    (hlooking : next.looking = state.looking) (hcounter : next.counter = state.counter)
    (hpend : pending next = pending state) : Outstanding options next := by
  refine .working ⟨hrun, hoptions.trans hworking.options_eq, hlooking.trans hworking.looking_eq,
    ?_, ?_⟩
  · rw [hcounter, hpend]
    exact hworking.awaits
  · rw [hpend]
    exact hworking.busy

theorem Outstanding.step (houtstanding : Outstanding options state)
    (heffect : Effect config std options state action next) : Outstanding options next := by
  cases heffect with
  | idle hpend hlooking => exact .finished rfl hpend hlooking
  | failed h | nothing h => exact .finished rfl h.pending_eq rfl
  | @selected run _ _ _ h =>
    have hpend := h.pending_eq
    have hparallel := run.options.parallel_pos
    unfold pending at hpend
    refine .working ⟨rfl, h.options_eq, rfl, ?_, ?_⟩
    · convert FanoutCounter.awaits_make run.options.parallel () using 1
      simp only [pending]
      omega
    · simp only [pending]
      omega
  | ended h =>
    refine h.keep h.run_eq rfl rfl rfl ?_
    simp only [pending]
    omega
  | skipped h => exact h.keep rfl rfl rfl rfl rfl
  | sent h =>
    refine h.keep rfl rfl rfl rfl ?_
    simp only [pending, length_append, length_singleton]
    omega
  | replied reply h hindex =>
    refine h.keep rfl (continueRun_fields ..).1 rfl rfl ?_
    simp only [pending, length_eraseIdx_of_lt hindex]
    omega
  | counted h _ hawaits hmore =>
    exact .working ⟨h.run_eq, h.options_eq, h.looking_eq, hawaits, Nat.pos_of_ne_zero hmore⟩
  | finished h _ hlast => exact .finished rfl hlast h.looking_eq
  | stopped hrun =>
    cases houtstanding with
    | finished hnone => cases hnone.symm.trans hrun
    | looking h =>
      cases h.run_eq.symm.trans hrun
      exact .looking { h with run_eq := rfl, remaining_eq := rfl }
    | working h =>
      cases h.run_eq.symm.trans hrun
      exact .working { h with run_eq := rfl }

theorem outstanding_initial (options : RunOptions) : Outstanding options (initial options) :=
  .looking ⟨rfl, rfl, rfl, rfl, rfl⟩

end Effect

/-- Two partitions of one schema with 7 events each. -/
def oversized : CatalogLookupResult where
  candidateInfos :=
    [(.basic .int64, ⟨.none, [⟨1, 7, 0, .basic .int64, 1⟩, ⟨2, 7, 1, .basic .int64, 1⟩]⟩)]

/-- The partitions are rebuilt into one that is full and one that is too small. -/
def rebuilt : ApplyReply :=
  .result [⟨3, 10, 1, .basic .int64, 2⟩, ⟨4, 4, 1, .basic .int64, 2⟩]

end Rebuilder

end Vast
