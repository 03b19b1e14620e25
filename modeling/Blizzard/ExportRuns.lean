import Blizzard.LateFacts

/-! # The steps export, pass by pass

A pass reads the clock and the stored cursor, plans its rows from one snapshot, places its files,
commits the manifest that lists them and only then appends its cursor. Rows of the corpus are
committed between any two of these, and any of them may fail or be the last thing the process
does. -/
namespace Blizzard.ExportRuns
open HubTables TraceSteps ExportWindows WindowDrain LateFacts

/-- The time the hub received a usage fact, then its id. -/
structure UsagePosition where
  recordedAt : Instant
  usageId : ℕ := 0
  deriving DecidableEq, Repr

/-- One `egress_cursor` row of the steps dataset. -/
structure EgressCheckpoint where
  step : CursorKey
  usage : UsagePosition
  recordedAt : Instant
  deriving DecidableEq, Repr

/-- A usage fact with the chunk and epoch it is attributed to. -/
structure AttributedUsage where
  usageId : ℕ
  chunkId : ChunkId
  epoch : ℕ
  recordedAt : Instant
  deriving DecidableEq, Repr

/-- The settle delay in microseconds and the row limit of a read. -/
structure EgressConfig where
  settle : ℕ
  batchLimit : ℕ
  positive : 0 < batchLimit

/-! ## A pass's plan -/

/-- The steps a pass writes, each once, with the key it sorts by. -/
abbrev StepBatch := List (StepKey × CursorKey)

def addStep (batch : StepBatch) (key : StepKey) (cursor : CursorKey) : StepBatch :=
  if batch.any (·.1 = key) then batch else batch ++ [(key, cursor)]

/-- The row of every step a window proves closed. -/
def windowStepRows (window : TraceWindow) : StepBatch :=
  window.items.foldl
    (fun batch item => match item with
      | .closedStep key step _ => addStep batch step.key key
      | .finishedChunk .. => batch) []

def runnerStep (steps : List NodeStep) (epoch : ℕ) : Option NodeStep :=
  steps.find? fun step => step.kind = .runner ∧ step.epoch = epoch

/-- A step that late usage re-tells: closed, and no later than the window's position. -/
def addRetold (facts : ChunkId → Option StepFacts) (position : CursorKey) (batch : StepBatch)
    (usage : AttributedUsage) : StepBatch :=
  match (facts usage.chunkId).bind fun chunk => runnerStep (identifySteps chunk) usage.epoch with
  | none => batch
  | some step =>
    match step.close with
    | none => batch
    | some close =>
      let key := CursorKey.of step close
      if key ≤ position then addStep batch step.key key else batch

structure StepsPassPlan where
  rows : StepBatch
  advanced : EgressCheckpoint
  moved : Bool

def planStepsPass (cursor : EgressCheckpoint) (window : TraceWindow)
    (usage : List AttributedUsage) (facts : ChunkId → Option StepFacts) (now : Instant) :
    StepsPassPlan :=
  let batch := usage.foldl (addRetold facts window.position) (windowStepRows window)
  let advanced : EgressCheckpoint :=
    { step := window.position
      usage := (usage.getLast?.map fun last => ⟨last.recordedAt, last.usageId⟩).getD
        cursor.usage
      recordedAt := now }
  { rows := batch.insertionSort fun a b => a.2 ≤ b.2
    advanced
    moved := advanced.step ≠ cursor.step ∨ advanced.usage ≠ cursor.usage }

/-- An existing chunk's facts in a snapshot. -/
def snapshotFacts (corpus : Corpus) (chunk : ChunkId) : Option StepFacts :=
  if corpus.rows.any (·.chunkId = chunk) then some (stepFactsFor corpus chunk) else none

/-- What a pass plans from one snapshot of the corpus. -/
def planned (config : EgressConfig) (corpus : Corpus) (cursor : EgressCheckpoint)
    (usage : List AttributedUsage) (now : Instant) : StepsPassPlan :=
  let window := readWindow corpus cursor.step (now - config.settle) config.batchLimit
  planStepsPass cursor window usage (snapshotFacts corpus) now

/-! ## The store, the clock and the pass in flight -/

inductive PassStage
  | begun
  | planned (plan : StepsPassPlan)
  | placed (plan : StepsPassPlan)
  | listed (plan : StepsPassPlan)

structure ExportPass where
  startedAt : Instant
  cursor : Option EgressCheckpoint
  stage : PassStage

/-- The corpus, the clock, the cursor rows in the order they were appended and the pass in flight;
`told` are the steps a committed manifest lists, `waived` those already closed behind the anchor
the export began at. -/
structure Egress where
  corpus : Corpus
  clock : Instant
  cursors : List EgressCheckpoint := []
  pass : Option ExportPass := none
  told : List StepKey := []
  waived : List StepKey := []

/-- The newest cursor row by recording instant, the last of several. -/
def newestCursor (cursors : List EgressCheckpoint) : Option EgressCheckpoint :=
  cursors.foldl
    (fun newest row => match newest with
      | some held => if held.recordedAt ≤ row.recordedAt then some row else newest
      | none => some row) none

/-- A corpus with one row more, where its keys are free. -/
def Corpus.insert (corpus : Corpus) (row : FactRow) : Option Corpus :=
  if fresh : (row.table, row.rowId) ∉ corpus.rows.map (fun r => (r.table, r.rowId)) ∧
      ∀ id ∈ row.decisionId?, id ∉ corpus.rows.filterMap (·.decisionId?) then
    some { rows := corpus.rows ++ [row]
           keyed := by
             rw [List.map_append, List.nodup_append]
             refine ⟨corpus.keyed, by simp, ?_⟩
             rintro key taken _ added rfl
             rw [List.map_singleton, List.mem_singleton] at added
             exact fresh.1 (added ▸ taken)
           decided := by
             rw [List.filterMap_append, List.nodup_append]
             refine ⟨corpus.decided, ?_, ?_⟩
             · rw [List.filterMap_cons]
               split <;> simp
             · rintro id taken _ added rfl
               rw [List.mem_filterMap] at added
               obtain ⟨_, single, own⟩ := added
               rw [List.mem_singleton] at single
               subst single
               exact fresh.2 id own taken }
  else none

/-- The steps closed at or before a position. -/
def closedBy (corpus : Corpus) (position : CursorKey) : List StepKey :=
  (corpusItems corpus).filterMap fun
    | .closedStep key step _ => if key ≤ position then some step.key else none
    | .finishedChunk .. => none

inductive Event
  | commit (row : FactRow)
  | tick (elapsed : ℕ)
  | begin
  | anchor
  | read (usage : List AttributedUsage)
  | write (ok : Bool)
  | list_ (ok : Bool)
  | append (ok : Bool)
  | crash

/-- End the pass with a cursor row appended. -/
def Egress.appended (h : Egress) (row : EgressCheckpoint) : Egress :=
  { h with cursors := h.cursors ++ [row], pass := none }

def Egress.step (config : EgressConfig) (h : Egress) : Event → Egress
  -- a row is there by the time the settle delay after its instant is over
  | .commit row =>
    if h.clock < row.at_ + config.settle then
      match Corpus.insert h.corpus row with
      | some corpus => { h with corpus }
      | none => h
    else h
  | .tick elapsed => { h with clock := h.clock + elapsed }
  | .begin =>
    match h.pass with
    | none => { h with pass := some ⟨h.clock, newestCursor h.cursors, .begun⟩ }
    | some _ => h
  | .anchor =>
    match h.pass with
    | some ⟨startedAt, none, .begun⟩ =>
      let at_ := startedAt - config.settle
      let anchored := h.appended
        { step := CursorKey.opening at_, usage := { recordedAt := at_ }, recordedAt := startedAt }
      { anchored with waived := closedBy h.corpus (CursorKey.opening at_) }
    | _ => h
  | .read usage =>
    match h.pass with
    | some ⟨startedAt, some cursor, .begun⟩ =>
      let plan := ExportRuns.planned config h.corpus cursor usage startedAt
      { h with pass := some ⟨startedAt, some cursor, .planned plan⟩ }
    | _ => h
  | .write ok =>
    match h.pass with
    | some ⟨startedAt, cursor, .planned plan⟩ =>
      if plan.rows = [] then
        if plan.moved ∧ ok then h.appended plan.advanced else { h with pass := none }
      else if ok then { h with pass := some ⟨startedAt, cursor, .placed plan⟩ }
      else { h with pass := none }
    | _ => h
  | .list_ ok =>
    match h.pass with
    | some ⟨startedAt, cursor, .placed plan⟩ =>
      if ok then
        { h with
          pass := some ⟨startedAt, cursor, .listed plan⟩
          told := h.told ++ plan.rows.map (·.1) }
      else { h with pass := none }
    | _ => h
  | .append ok =>
    match h.pass with
    | some ⟨_, _, .listed plan⟩ =>
      if ok then h.appended { plan.advanced with recordedAt := h.clock }
      else { h with pass := none }
    | _ => h
  | .crash => { h with pass := none }

def Egress.run (config : EgressConfig) (h : Egress) (events : List Event) : Egress :=
  events.foldl (Egress.step config) h

end Blizzard.ExportRuns
