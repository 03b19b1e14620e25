import Blizzard.GraphPinning
import Blizzard.WorkflowGraph

/-! # The graph a transcript event is attributed to

The pins a derivation pass resolves for a chunk, the graph they name for a
node-step, and the histories of a chunk: its writes, and the leases minted for the
node it stands at. -/
namespace Blizzard.EventAttribution
open HubTables StatusLadder WorkflowGraph FencedWrites FenceEffects FactLoading GraphPinning

/-- The families of a chunk's movement facts. -/
def movementFamilies : List Family := [.transitions, .migrations, .restarts]

/-- A pass's pins, each chunk's transitions and mint pin. -/
structure GraphPins where
  transitionsByChunk : ChunkId → List TransitionFact
  mintPinByChunk : ChunkId → Option String

/-- The newest matching transition's graph, else the mint pin. -/
def GraphPins.graphIdFor (pins : GraphPins) (chunkId : ChunkId) (nodeId : String) (epoch : ℤ) :
    Option String :=
  match ((pins.transitionsByChunk chunkId).filter fun t =>
      decide (t.toNodeId = nodeId ∧ t.epoch = epoch)).argmax (·.recordedAt) with
  | some newest => some newest.graphId
  | none => pins.mintPinByChunk chunkId

/-- The chunks' pins by id, ephemeral ids excluded. -/
def graphIdOfMany (tables : Tables) (chunkIds : List ChunkId) (chunkId : ChunkId) :
    Option String :=
  if chunkId ∈ chunkIds ∧ isEphemeralId tables chunkId = false then graphIdOf tables chunkId
  else none

/-- The movement facts of the chunks a segment batch names. -/
def movementFactsFor (tables : Tables) (chunkIds : List ChunkId) (chunkId : ChunkId) :
    Option ChunkFacts :=
  if chunkId ∈ chunkIds then loadChunkFacts tables movementFamilies chunkId else none

def graphPinsFor (tables : Tables) (chunkIds : List ChunkId) : GraphPins where
  transitionsByChunk chunkId :=
    ((movementFactsFor tables chunkIds chunkId).map (·.transitions)).getD []
  mintPinByChunk := graphIdOfMany tables chunkIds

/-! ## Histories -/

def belongsTo (byId : String → Option Graph) (graphId nodeId : String) : Bool :=
  (byId graphId).any fun graph => (graph.nodeById nodeId).isSome

/-- The minted graphs: no two share a node id, and none has the terminal for a node. -/
structure Graphs where
  byId : String → Option Graph
  disjoint : ∀ g g' nodeId, belongsTo byId g nodeId → belongsTo byId g' nodeId → g = g'
  terminalFree : ∀ g, belongsTo byId g reservedTerminal = false

/-- A node-step a lease was minted for, with the chunk's pin at the mint. -/
structure NodeStep where
  nodeId : String
  epoch : ℤ
  graphId : String
  deriving DecidableEq, Repr

structure History where
  tables : Tables
  steps : List NodeStep := []

inductive Event
  | write (w : ChunkWrite) (now : Instant)
  | lease (epoch : ℤ)

variable (graphs : Graphs) (chunkId : ChunkId)

/-- A transition's target is the terminal or a node of the graph its chunk is pinned to. -/
def targetsPin (tables : Tables) (w : ChunkWrite) : Bool :=
  (target w).all fun (chunkId, nodeId) =>
    decide (nodeId = reservedTerminal) ||
      (graphIdOf tables chunkId).any fun graphId => belongsTo graphs.byId graphId nodeId

/-- The node the chunk stands at, in the graph it is pinned to. -/
def standsAt (tables : Tables) (graphId : String) : Option Node := do
  let graph ← graphs.byId graphId
  let facts ← loadFacts tables chunkId
  currentNode facts graph

def step (history : History) : Event → History
  | .write w now =>
    if targetsPin graphs history.tables w then
      { history with tables := (exec history.tables now w).1 }
    else history
  | .lease epoch =>
    match graphIdOf history.tables chunkId with
    | none => history
    | some graphId =>
      match standsAt graphs chunkId history.tables graphId with
      | none => history
      | some node => { history with steps := history.steps ++ [⟨node.nodeId, epoch, graphId⟩] }

def run (history : History) (events : List Event) : History :=
  events.foldl (step graphs chunkId) history

/-- Chunks as they are minted, with no fact on record. -/
def minted (chunks : ChunkTable) (graphNodes : List GraphNodeRow) : History :=
  { tables := .minted chunks graphNodes }

/-! ## What a history keeps -/

/-- A transition names the graph its target belongs to. -/
def Homed (t : TransitionRow) : Prop :=
  t.toNodeId = reservedTerminal ∨ belongsTo graphs.byId t.graphId t.toNodeId

structure Lawful (history : History) : Prop where
  ungrouped : history.tables.chunkGrouped = []
  undeleted : history.tables.chunkDeleted = []
  homed : ∀ t ∈ history.tables.transitions, Homed graphs t
  stood : ∀ s ∈ history.steps, belongsTo graphs.byId s.graphId s.nodeId
  known : ∀ s ∈ history.steps, chunkId ∈ history.tables.chunks.rows.map (·.chunkId)

variable {graphs chunkId} {history : History} {tables : Tables}

theorem graphIdOf_isSome_iff : (graphIdOf tables chunkId).isSome ↔
    chunkId ∈ tables.chunks.rows.map (·.chunkId) := by
  rw [graphIdOf, Option.isSome_map, List.find?_isSome, List.mem_map]
  simp

theorem lawful_minted (chunks : ChunkTable) (graphNodes : List GraphNodeRow) :
    Lawful graphs chunkId (minted chunks graphNodes) := by
  refine ⟨rfl, rfl, ?_, ?_, ?_⟩ <;> intro _ never <;> cases never

theorem lawful_write (lawful : Lawful graphs chunkId history) (w : ChunkWrite) (now : Instant)
    (pinned : targetsPin graphs history.tables w) :
    Lawful graphs chunkId { history with tables := (exec history.tables now w).1 } := by
  have pinning := exec_pinning history.tables now w
  obtain ⟨more, same, stamped⟩ := pinning.transitions
  refine ⟨pinning.grouped.trans lawful.ungrouped, pinning.deleted.trans lawful.undeleted, ?_,
    lawful.stood, ?_⟩
  · intro t inside
    rw [same] at inside
    rcases List.mem_append.mp inside with old | new
    · exact lawful.homed t old
    · obtain ⟨moves, pin⟩ := stamped t new
      rw [targetsPin, moves, Option.all_some, Bool.or_eq_true, decide_eq_true_eq, pin,
        Option.any_some] at pinned
      exact pinned
  · intro s inside
    rw [pinning.ids]
    exact lawful.known s inside

/-- The node a chunk stands at is a node of the graph it is pinned to. -/
theorem standsAt_belongs {graphId : String} {node : Node}
    (stands : standsAt graphs chunkId tables graphId = some node) :
    belongsTo graphs.byId graphId node.nodeId := by
  obtain ⟨graph, found, more⟩ := Option.bind_eq_some_iff.mp stands
  obtain ⟨facts, -, current⟩ := Option.bind_eq_some_iff.mp more
  have named : graph.nodeById _ = some node := current
  have same := List.find?_some named
  rw [decide_eq_true_eq] at same
  rw [belongsTo, found, Option.any_some, same, named, Option.isSome_some]

theorem lawful_step (lawful : Lawful graphs chunkId history) (event : Event) :
    Lawful graphs chunkId (step graphs chunkId history event) := by
  cases event with
  | write w now =>
    rw [step]
    split
    next pinned => exact lawful_write lawful w now pinned
    · exact lawful
  | lease epoch =>
    rw [step]
    split
    · exact lawful
    next graphId pin =>
      split
      · exact lawful
      next node stands =>
        have known : chunkId ∈ history.tables.chunks.rows.map (·.chunkId) := by
          rw [← graphIdOf_isSome_iff, pin, Option.isSome_some]
        refine ⟨lawful.ungrouped, lawful.undeleted, lawful.homed, ?_, fun _ _ => known⟩
        intro s inside
        rcases List.mem_append.mp inside with old | new
        · exact lawful.stood s old
        · rw [List.mem_singleton.mp new]
          exact standsAt_belongs stands

theorem lawful_run (lawful : Lawful graphs chunkId history) (events : List Event) :
    Lawful graphs chunkId (run graphs chunkId history events) := by
  induction events generalizing history with
  | nil => exact lawful
  | cons event rest ih => exact ih (lawful_step lawful event)

/-! ## Attribution -/

/-- A transition into the step's node at the step's own epoch. -/
def Reentered (tables : Tables) (chunkId : ChunkId) (s : NodeStep) : Prop :=
  ∃ t ∈ tables.transitions, t.chunkId = chunkId ∧ t.toNodeId = s.nodeId ∧ t.epoch = s.epoch

/-- The transitions of the chunk into a node at an epoch, as a pass reads them. -/
theorem mem_matches {chunkIds : List ChunkId} (named : chunkId ∈ chunkIds)
    (loadable : isLoadable tables chunkId) {nodeId : String} {epoch : ℤ} {t : TransitionFact} :
    (t ∈ ((graphPinsFor tables chunkIds).transitionsByChunk chunkId).filter fun t =>
      decide (t.toNodeId = nodeId ∧ t.epoch = epoch)) ↔
    ∃ row ∈ tables.transitions, row.chunkId = chunkId ∧ row.toNodeId = nodeId ∧
      row.epoch = epoch ∧ transitionFact tables row = t := by
  have read : (graphPinsFor tables chunkIds).transitionsByChunk chunkId =
      (tables.transitions.filter (·.chunkId = chunkId)).map (transitionFact tables) := by
    simp [graphPinsFor, movementFactsFor, named, loadChunkFacts, loadable, chunkFacts, selected,
      movementFamilies]
  rw [read, List.mem_filter, List.mem_map, decide_eq_true_eq]
  constructor
  · rintro ⟨⟨row, inside, rfl⟩, node, at_⟩
    obtain ⟨among, chunk⟩ := List.mem_filter.mp inside
    exact ⟨row, among, of_decide_eq_true chunk, node, at_, rfl⟩
  · rintro ⟨row, among, chunk, node, at_, rfl⟩
    exact ⟨⟨row, List.mem_filter.mpr ⟨among, decide_eq_true chunk⟩, rfl⟩, node, at_⟩

theorem Lawful.loadable (lawful : Lawful graphs chunkId history)
    (known : chunkId ∈ history.tables.chunks.rows.map (·.chunkId)) :
    isLoadable history.tables chunkId := by
  have row : history.tables.chunks.rows.any fun row => decide (row.chunkId = chunkId) := by
    obtain ⟨row, inside, same⟩ := List.mem_map.mp known
    exact List.any_eq_true.mpr ⟨row, inside, decide_eq_true same⟩
  rw [isLoadable, row, isEphemeralId, lawful.ungrouped, lawful.undeleted]
  rfl

/-- Every transition into a step's node names the step's graph. -/
theorem Lawful.home (lawful : Lawful graphs chunkId history) {s : NodeStep}
    (taken : s ∈ history.steps) {t : TransitionRow} (inside : t ∈ history.tables.transitions)
    (node : t.toNodeId = s.nodeId) : t.graphId = s.graphId := by
  have stood := lawful.stood s taken
  rcases lawful.homed t inside with terminal | home
  · rw [← node, terminal, graphs.terminalFree] at stood
    cases stood
  · rw [node] at home
    exact graphs.disjoint _ _ _ home stood

/-- In every state of every history a minted lease's step is attributed to its graph exactly when
its node was entered again at its own epoch or the chunk is still pinned to that graph. -/
theorem attributed_iff (graphs : Graphs) (chunkId : ChunkId) (chunks : ChunkTable)
    (graphNodes : List GraphNodeRow) (events : List Event) {chunkIds : List ChunkId}
    (named : chunkId ∈ chunkIds) {s : NodeStep}
    (taken : s ∈ (run graphs chunkId (minted chunks graphNodes) events).steps) :
    (graphPinsFor (run graphs chunkId (minted chunks graphNodes) events).tables chunkIds).graphIdFor
        chunkId s.nodeId s.epoch = some s.graphId ↔
      Reentered (run graphs chunkId (minted chunks graphNodes) events).tables chunkId s ∨
        graphIdOf (run graphs chunkId (minted chunks graphNodes) events).tables chunkId =
          some s.graphId := by
  have lawful : Lawful graphs chunkId (run graphs chunkId (minted chunks graphNodes) events) :=
    lawful_run (lawful_minted chunks graphNodes) events
  generalize run graphs chunkId (minted chunks graphNodes) events = history at lawful taken ⊢
  have loadable := lawful.loadable (lawful.known s taken)
  have entries := @mem_matches chunkId history.tables chunkIds named loadable s.nodeId s.epoch
  have readable : isEphemeralId history.tables chunkId = false := by
    rw [isEphemeralId, lawful.ungrouped, lawful.undeleted]
    rfl
  rw [GraphPins.graphIdFor]
  split
  next newest found =>
    obtain ⟨row, inside, chunk, node, at_, rfl⟩ := entries.mp (List.argmax_mem found)
    have home := lawful.home taken inside node
    exact iff_of_true (congrArg some home) (.inl ⟨row, inside, chunk, node, at_⟩)
  next found =>
    have pin : (graphPinsFor history.tables chunkIds).mintPinByChunk chunkId =
        graphIdOf history.tables chunkId := by
      simp [graphPinsFor, graphIdOfMany, named, readable]
    rw [pin]
    constructor
    · exact .inr
    · rintro (⟨row, inside, chunk, node, at_⟩ | still)
      · have entry := entries.mpr ⟨row, inside, chunk, node, at_, rfl⟩
        rw [List.argmax_eq_none.mp found] at entry
        cases entry
      · exact still

/-! ## A step before a migration -/

def graphOf (graphId nodeId : String) : Graph :=
  { graphId, name := graphId, entryNodeId := nodeId,
    nodes := [{ nodeId, graphId, name := "build", executor := .runner }], edges := [] }

def twoById (graphId : String) : Option Graph :=
  if graphId = "gr_1" then some (graphOf "gr_1" "nd_1")
  else if graphId = "gr_2" then some (graphOf "gr_2" "nd_2")
  else none

theorem belongsTo_two {graphId nodeId : String} (h : belongsTo twoById graphId nodeId) :
    (graphId = "gr_1" ∧ nodeId = "nd_1") ∨ (graphId = "gr_2" ∧ nodeId = "nd_2") := by
  by_cases first : graphId = "gr_1"
  · simp [belongsTo, twoById, first, graphOf, Graph.nodeById] at h
    exact .inl ⟨first, h.symm⟩
  · by_cases second : graphId = "gr_2"
    · simp [belongsTo, twoById, second, graphOf, Graph.nodeById] at h
      exact .inr ⟨second, h.symm⟩
    · simp [belongsTo, twoById, first, second] at h

/-- Two graphs of one node each. -/
def two : Graphs where
  byId := twoById
  disjoint := by
    intro g g' nodeId home home'
    rcases belongsTo_two home with ⟨rfl, node⟩ | ⟨rfl, node⟩ <;>
      rcases belongsTo_two home' with ⟨rfl, node'⟩ | ⟨rfl, node'⟩
    · rfl
    · exact absurd (node.symm.trans node') (by decide)
    · exact absurd (node.symm.trans node') (by decide)
    · rfl
  terminalFree := by
    intro g
    rw [Bool.eq_false_iff]
    intro home
    rcases belongsTo_two home with ⟨-, node⟩ | ⟨-, node⟩
    · exact absurd node (by decide)
    · exact absurd node (by decide)

def oneChunk : ChunkTable := ⟨[⟨"ch_1", "pj_1", "gr_1", none⟩], by decide⟩

def claimed : List Event :=
  [.write (.claim ⟨"rt_1", "ch_1", "rn_1", "ws_1", ["env_1"], "hash"⟩) 1, .lease 1,
    .write (.mint "ch_1" 1 ⟨"rn_1", some "ls_1"⟩) 2]

/-- The chunk crosses into the second graph by the first node's own completion. -/
def migrated : List Event := claimed ++
  [.write (.migration
    { migrationId := "mg_1", chunkId := "ch_1", fromNodeId := some "nd_1", fromGraphId := "gr_1",
      toGraphId := "gr_2", landedNodeId := some "nd_2", choiceName := some "pass",
      decisionId := none, model := none, epoch := 1, admission := .current, claimant := none,
      artifacts := [], source := .authoredEdge, releaseRoute := true, clearIntent := false }) 3]

/-- A claimed chunk's first step, before and after the chunk leaves its graph. -/
theorem attributed_iff_claimed :
    ((graphPinsFor (run two "ch_1" (minted oneChunk []) claimed).tables ["ch_1"]).graphIdFor
        "ch_1" "nd_1" 1 = some "gr_1" ↔
      Reentered (run two "ch_1" (minted oneChunk []) claimed).tables "ch_1" ⟨"nd_1", 1, "gr_1"⟩ ∨
        graphIdOf (run two "ch_1" (minted oneChunk []) claimed).tables "ch_1" = some "gr_1") ∧
    graphIdOf (run two "ch_1" (minted oneChunk []) claimed).tables "ch_1" = some "gr_1" :=
  ⟨attributed_iff two "ch_1" oneChunk [] claimed List.mem_cons_self
    (s := ⟨"nd_1", 1, "gr_1"⟩) (by decide), by decide⟩

/-- After the migration the first step is attributed to the second graph. -/
theorem migrated_step_moves : ¬ ∀ (graphs : Graphs) (chunkId : ChunkId) (chunks : ChunkTable)
    (graphNodes : List GraphNodeRow) (events : List Event),
    ∀ s ∈ (run graphs chunkId (minted chunks graphNodes) events).steps,
      (graphPinsFor (run graphs chunkId (minted chunks graphNodes) events).tables
        [chunkId]).graphIdFor chunkId s.nodeId s.epoch = some s.graphId := by
  intro always
  have kept := always two "ch_1" oneChunk [] migrated ⟨"nd_1", 1, "gr_1"⟩ (by decide)
  exact absurd kept (by decide)

end Blizzard.EventAttribution
