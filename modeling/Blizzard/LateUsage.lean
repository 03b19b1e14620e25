import Blizzard.SortedRanks
import Blizzard.ExportCoverage

/-! # The steps export with the usage it reads

A pass first reads the usage past its cursor, then takes the snapshot it plans from, so every usage
row it moves past is in the facts of its plan. A told step's row carries the usage of the step's
epoch in that snapshot. -/
namespace Blizzard.LateUsage
open HubTables TraceSteps ExportWindows LateFacts SortedRanks ExportRuns ExportCoverage

/-! ## Usage in its order -/

def UsagePosition.rank (position : UsagePosition) : Instant ×ₗ ℕ :=
  toLex (position.recordedAt, position.usageId)

theorem UsagePosition.rank_injective : Function.Injective UsagePosition.rank := by
  rintro ⟨recordedAt, usageId⟩ ⟨recordedAt', usageId'⟩ same
  simp only [rank, EmbeddingLike.apply_eq_iff_eq, Prod.mk.injEq] at same
  obtain ⟨rfl, rfl⟩ := same
  rfl

instance : LinearOrder UsagePosition :=
  LinearOrder.lift' UsagePosition.rank UsagePosition.rank_injective

def usagePosition (row : AttributedUsage) : UsagePosition := ⟨row.recordedAt, row.usageId⟩

/-- Up to a limit of the usage past a position, in position order. -/
def usageAfter (usage : List AttributedUsage) (position : UsagePosition) (until_ : Instant)
    (limit : ℕ) : List AttributedUsage :=
  (ranked usagePosition (usage.filter fun row =>
    decide (position < usagePosition row) && decide (row.recordedAt ≤ until_))).take limit

/-- A step's usage, oldest first: its epoch's; a gate has none. -/
def usageOf (usage : List AttributedUsage) (key : StepKey) : List AttributedUsage :=
  if key.decisionId.isSome then []
  else (usage.filter fun row => row.chunkId = key.chunkId ∧ row.epoch = key.epoch).insertionSort
    fun a b => a.recordedAt ≤ b.recordedAt

/-- The usage in one exported row of a step. -/
structure ExportedStep where
  stepKey : StepKey
  usage : List AttributedUsage
  deriving DecidableEq, Repr

def exportedSteps (usage : List AttributedUsage) (rows : StepBatch) : List ExportedStep :=
  rows.map fun row => ⟨row.1, usageOf usage row.1⟩

/-! ## The export -/

/-- The export with the usage facts committed so far, the usage the pass in flight has read, the usage
in the snapshot it plans from, and the rows every committed manifest lists. -/
structure UsageExport where
  egress : Egress
  usage : List AttributedUsage := []
  fetched : Option (List AttributedUsage) := none
  seen : List AttributedUsage := []
  exported : List ExportedStep := []

inductive UsageEvent
  | commit (row : FactRow)
  | usage (row : AttributedUsage)
  | tick (elapsed : ℕ)
  | begin
  | anchor
  | fetch
  | read
  | write (ok : Bool)
  | list_ (ok : Bool)
  | append (ok : Bool)
  | crash

/-- An owner row finds its chunk's epoch without one. -/
def ownerFree (corpus : Corpus) (row : FactRow) : Bool :=
  match row.fact with
  | .owner owner => !(stepFactsFor corpus row.chunkId).epochOwners.any (·.epoch = owner.epoch)
  | _ => true

def UsageExport.lift (config : EgressConfig) (h : UsageExport) (event : Event) : UsageExport :=
  { h with egress := h.egress.step config event }

def UsageExport.step (config : EgressConfig) (h : UsageExport) : UsageEvent → UsageExport
  | .commit row => if ownerFree h.egress.corpus row then h.lift config (.commit row) else h
  -- as a fact's, a usage row is there by the time the settle delay after its instant is over
  | .usage row =>
    if h.egress.clock < row.recordedAt + config.settle ∧ 0 < row.usageId ∧
        row.usageId ∉ h.usage.map (·.usageId) then
      { h with usage := h.usage ++ [row] }
    else h
  | .tick elapsed => h.lift config (.tick elapsed)
  | .begin => h.lift config .begin
  | .anchor => h.lift config .anchor
  | .fetch =>
    match h.egress.pass, h.fetched with
    | some ⟨startedAt, some cursor, .begun⟩, none =>
      { h with fetched := some (usageAfter h.usage cursor.usage (startedAt - config.settle)
          config.batchLimit) }
    | _, _ => h
  | .read =>
    match h.fetched with
    | some usage => { h.lift config (.read usage) with fetched := none, seen := h.usage }
    | none => h
  | .write ok => h.lift config (.write ok)
  | .list_ ok =>
    match h.egress.pass with
    | some ⟨_, _, .placed plan⟩ =>
      if ok then
        { h.lift config (.list_ ok) with
          exported := h.exported ++ exportedSteps h.seen plan.rows }
      else h.lift config (.list_ ok)
    | _ => h
  | .append ok => h.lift config (.append ok)
  | .crash => { h.lift config .crash with fetched := none }

def UsageExport.run (config : EgressConfig) (h : UsageExport) (events : List UsageEvent) :
    UsageExport :=
  events.foldl (UsageExport.step config) h

/-- An export that has not begun. -/
def UsageExport.start (corpus : Corpus) (clock : Instant) : UsageExport :=
  { egress := Egress.start corpus clock }

/-- One pass from its begin to its cursor, nothing failing. -/
def wholePass : List UsageEvent :=
  [.begin, .anchor, .fetch, .read, .write true, .list_ true, .append true]

/-- The step a usage row is attributed to: its chunk's runner step at its epoch. -/
def attributedStep (corpus : Corpus) (row : AttributedUsage) : Option NodeStep :=
  runnerStep (identifySteps (stepFactsFor corpus row.chunkId)) row.epoch

end Blizzard.LateUsage
