import Blizzard.FlowLines

/-! # The flow driver and its loop

The driver ticks in a thread, one tick at a time, and starts a task for each turn a tick takes.
Tasks and the driver share one event loop, which runs what is queued on it first in, first out: a
task's first step registers it as running, and the driver comes back from its wait behind the
tasks it spawned before. What a tick does in one tenant is modelled; a boot recovers its turns. -/
namespace Blizzard.FlowDriver
open HubTables FlowLines

/-- What is queued on the hub's loop. -/
inductive Job
  /-- The driver takes its snapshot of the running turns and starts a tick. -/
  | tick
  /-- The driver spawns a task for each turn its tick started. -/
  | spawn (started : List String)
  /-- A task's first step. -/
  | start (turnId : String)
  deriving DecidableEq, Repr

inductive SweepStage
  /-- The snapshot is taken, and the clock not yet read. -/
  | snapped
  | unread
  | ending (left : List String)
  | finished
  deriving DecidableEq, Repr

/-- A sweep of the open turns no task answers for: those not running that started before an
instant, or every one. -/
structure Sweep where
  startedBefore : Option Instant
  running : List String
  deriving DecidableEq, Repr

/-- A tick, or the recovery of a boot, in progress; with the turns it has taken. -/
structure Pass where
  boot : Bool
  sweep : Sweep
  stage : SweepStage
  started : List String := []
  deriving DecidableEq, Repr

/-- A tenant's lines under the one driver. -/
structure Driver where
  tables : FlowTables := {}
  clock : Instant := 0
  lastTick : Option Instant := none
  running : List String := []
  queue : List Job := []
  /-- The driver waits for its next tick. -/
  waiting : Bool := false
  /-- No process runs. -/
  down : Bool := true
  pass : Option Pass := none

variable (d : Driver)

/-- The turn a queued job is yet to start a task for. -/
def Job.turns : Job → List String
  | .tick => []
  | .spawn started => started
  | .start turnId => [turnId]

/-- The turns whose task was started, or will be, and has not finished. -/
def Driver.alive : List String :=
  (d.pass.toList.flatMap (·.started)) ++ d.queue.flatMap Job.turns ++ d.running

inductive Step
  /-- Time passes. -/
  | pass (instant : Instant)
  /-- A write of the reconciler, a lever or a landing. -/
  | write (write : Write)
  /-- A running task writes the end of its turn. -/
  | answer (turnId outcome : String) (closure : Option String)
  /-- A running task is done. -/
  | done (turnId : String)
  /-- The driver's wait is over. -/
  | wake
  /-- The loop runs what is queued first. -/
  | loop
  | readClock
  | readTurns
  | endNext (withdrawal : Option Withdrawal)
  | swept
  | takeTurn (turnId submissionId : String) (passedOver : List String)
      (candidates : List LandingTerms)
  | finish
  /-- The tenant's tick raises: what it has not done is left. -/
  | raise
  /-- The process ends, crashed or shut down. -/
  | crash
  | boot

/-- A write that starts or ends no turn. -/
def turnless : Write → Bool
  | .takeTurn .. => false
  | .endTurn .. => false
  | .interrupt .. => false
  | _ => true

/-- The open turns that no task answers for. -/
def FlowTables.unanswered (t : FlowTables) (sweep : Sweep) : List String :=
  (t.turns.filter fun turn => turn.endedAt = none ∧ turn.turnId ∉ sweep.running ∧
    sweep.startedBefore.all (turn.startedAt < ·)).map (·.turnId)

/-- The first job of the loop's queue runs. -/
def Driver.runJob (rest : List Job) : Job → Driver
  | .tick =>
    -- a first tick sweeps nothing: boot has
    { d with
      queue := rest
      pass := some ⟨false, ⟨none, d.running⟩, .snapped, []⟩ }
  | .spawn started => { d with queue := rest ++ started.map .start, waiting := true }
  | .start turnId => { d with queue := rest, running := d.running ++ [turnId] }

/-- A step; one that does not apply does nothing. -/
def Driver.step : Step → Driver
  | .pass instant => { d with clock := max d.clock instant }
  | .write write => if turnless write then { d with tables := d.tables.step write } else d
  | .answer turnId outcome closure =>
    if turnId ∈ d.running then
      { d with tables := d.tables.step (.endTurn turnId outcome closure d.clock) }
    else d
  | .done turnId => { d with running := d.running.filter (· ≠ turnId) }
  | .wake => if d.waiting then { d with waiting := false, queue := d.queue ++ [.tick] } else d
  | .loop =>
    match d.queue with
    | [] => d
    | job :: rest => d.runJob rest job
  | .readClock =>
    match d.pass with
    | some ⟨boot, sweep, .snapped, started⟩ =>
      { d with
        lastTick := some d.clock
        pass := some ⟨boot, { sweep with startedBefore := d.lastTick },
          if d.lastTick.isSome then .unread else .finished, started⟩ }
    | _ => d
  | .readTurns =>
    match d.pass with
    | some ⟨boot, sweep, .unread, started⟩ =>
      { d with pass := some ⟨boot, sweep, .ending (FlowTables.unanswered d.tables sweep), started⟩ }
    | _ => d
  | .endNext withdrawal =>
    match d.pass with
    | some ⟨boot, sweep, .ending (turnId :: left), started⟩ =>
      { d with
        tables := d.tables.step (.interrupt turnId withdrawal d.clock)
        pass := some ⟨boot, sweep, .ending left, started⟩ }
    | _ => d
  | .swept =>
    match d.pass with
    | some ⟨boot, sweep, .ending [], started⟩ =>
      { d with pass := some ⟨boot, sweep, .finished, started⟩ }
    | _ => d
  | .takeTurn turnId submissionId passedOver candidates =>
    match d.pass with
    | some ⟨false, sweep, .finished, started⟩ =>
      match d.tables.takeTurn turnId submissionId passedOver candidates d.clock with
      | none => d
      | some tables =>
        { d with tables, pass := some ⟨false, sweep, .finished, started ++ [turnId]⟩ }
    | _ => d
  | .finish =>
    match d.pass with
    | some ⟨false, _, .finished, started⟩ => { d with pass := none, queue := d.queue ++ [.spawn started] }
    | some ⟨true, _, .finished, _⟩ => { d with pass := none, queue := d.queue ++ [.tick] }
    | _ => d
  | .raise =>
    match d.pass with
    | some ⟨false, _, _, _⟩ => { d with pass := none, queue := d.queue ++ [.spawn []] }
    | _ => d
  | .crash =>
    { d with
      lastTick := none
      running := []
      queue := []
      waiting := false
      down := true
      pass := none }
  | .boot =>
    if d.down then
      { d with down := false, pass := some ⟨true, ⟨none, []⟩, .unread, []⟩ }
    else d

def Driver.run (steps : List Step) : Driver := steps.foldl Driver.step d

end Blizzard.FlowDriver
