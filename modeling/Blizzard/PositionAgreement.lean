import Blizzard.MovementPositions

/-! # Two readings of where a chunk stood

The tracing fold and the chunk's newest movement, taken as of one instant, read
the same newest place: the fold resolves a landing left unrecorded and stands on
the entry before the first movement, where the other reading names nothing. -/
namespace Blizzard.PositionAgreement
open HubTables StatusLadder WorkflowGraph SortedRanks ExceptRules MovementPositions

variable {tables : Tables} {rows : MovementRows} {facts : StepFacts} {chunk : ChunkFacts}
  {instant : Instant} {arrival : Arrival} {arrivals : List Arrival} {row : MovementRow}

/-- Every movement row of the chunk. -/
def allRows (rows : MovementRows) : List MovementRow :=
  rows.transitions.map MovementRow.transition ++ rows.migrations.map MovementRow.migration ++
    rows.restarts.map MovementRow.restart

theorem mem_moved : row ∈ rows.moved instant ↔ row ∈ allRows rows ∧ row.recordedAt ≤ instant := by
  rw [MovementRows.moved, List.mem_filter, decide_eq_true_eq]
  rfl

/-- The row is no migration written by a restart. -/
def OwnMovement : MovementRow → Prop
  | .migration row => row.source ≠ some .restart
  | _ => True

/-! ## The fold's arrivals -/

/-- The arrival is the row's. -/
structure Arrives (facts : StepFacts) (row : MovementRow) (arrival : Arrival) : Prop where
  order : arrival.order = row.key
  recordedAt : arrival.recordedAt = row.recordedAt
  graphId : arrival.graphId = row.graphId
  nodeId : row.standsOn facts = .ok arrival.nodeId

theorem transition_arrives {row : TransitionRow}
    (arrives : facts.transitionArrival (tracedTransition row) = .ok arrival) :
    Arrives facts (.transition row) arrival := by
  obtain ⟨name, -, is⟩ := bind_ok arrives
  cases is
  exact ⟨rfl, rfl, rfl, rfl⟩

theorem migration_arrives {row : MigrationRow}
    (arrives : facts.migrationArrival (tracedMigration row) = .ok arrival) :
    Arrives facts (.migration row) arrival := by
  obtain ⟨landed, lands, arrives⟩ := bind_ok arrives
  obtain ⟨name, -, is⟩ := bind_ok arrives
  cases is
  exact ⟨rfl, rfl, rfl, lands⟩

theorem restart_arrives {row : RestartRow}
    (arrives : facts.restartArrival (tracedRestart row) = .ok arrival) :
    Arrives facts (.restart row) arrival := by
  obtain ⟨name, -, is⟩ := bind_ok arrives
  cases is
  exact ⟨rfl, rfl, rfl, rfl⟩

theorem mem_movementMigrations (traced : Traced rows facts) {migration : TracedMigration} :
    migration ∈ facts.movementMigrations ↔
      ∃ row ∈ rows.migrations, row.source ≠ some .restart ∧ tracedMigration row = migration := by
  rw [StepFacts.movementMigrations, List.mem_filter, traced.migrations.mem_iff, List.mem_map,
    decide_eq_true_eq]
  constructor
  · rintro ⟨⟨row, mem, rfl⟩, own⟩
    exact ⟨row, mem, own, rfl⟩
  · rintro ⟨row, mem, own, rfl⟩
    exact ⟨⟨row, mem, rfl⟩, own⟩

/-- The arrivals are those of the rows but the restarts' own migrations, in their order. -/
theorem movementArrivals_rows (traced : Traced rows facts)
    (arrive : facts.movementArrivals = .ok arrivals) :
    (arrivals.Pairwise fun a b => a.order ≤ b.order) ∧
    (∀ arrival ∈ arrivals, ∃ row ∈ allRows rows, Arrives facts row arrival) ∧
    ∀ row ∈ allRows rows, OwnMovement row → ∃ arrival ∈ arrivals, Arrives facts row arrival := by
  obtain ⟨transitions, ofTransitions, arrive⟩ := bind_ok arrive
  obtain ⟨migrations, ofMigrations, arrive⟩ := bind_ok arrive
  obtain ⟨restarts, ofRestarts, is⟩ := bind_ok arrive
  obtain rfl := Except.ok.inj is
  refine ⟨ranked_sorted _ _, ?_, ?_⟩
  · intro arrival mem
    rw [mem_ranked, List.mem_append, List.mem_append] at mem
    rcases mem with (mem | mem) | mem
    · obtain ⟨transition, from_, arrives⟩ := mapM_from ofTransitions arrival mem
      obtain ⟨row, ofRows, rfl⟩ := List.mem_map.mp (traced.transitions.mem_iff.mp from_)
      exact ⟨.transition row, by simp [allRows, ofRows], transition_arrives arrives⟩
    · obtain ⟨migration, from_, arrives⟩ := mapM_from ofMigrations arrival mem
      obtain ⟨row, ofRows, -, rfl⟩ := (mem_movementMigrations traced).mp from_
      exact ⟨.migration row, by simp [allRows, ofRows], migration_arrives arrives⟩
    · obtain ⟨restart, from_, arrives⟩ := mapM_from ofRestarts arrival mem
      obtain ⟨row, ofRows, rfl⟩ := List.mem_map.mp (traced.restarts.mem_iff.mp from_)
      exact ⟨.restart row, by simp [allRows, ofRows], restart_arrives arrives⟩
  · intro row mem own
    simp only [mem_ranked, List.mem_append]
    cases row with
    | transition row =>
      have ofRows : row ∈ rows.transitions := by simpa [allRows] using mem
      obtain ⟨arrival, listed, arrives⟩ := mapM_mem ofTransitions (tracedTransition row)
        (traced.transitions.mem_iff.mpr (List.mem_map_of_mem ofRows))
      exact ⟨arrival, .inl (.inl listed), transition_arrives arrives⟩
    | migration row =>
      have ofRows : row ∈ rows.migrations := by simpa [allRows] using mem
      obtain ⟨arrival, listed, arrives⟩ := mapM_mem ofMigrations (tracedMigration row)
        ((mem_movementMigrations traced).mpr ⟨row, ofRows, own, rfl⟩)
      exact ⟨arrival, .inl (.inr listed), migration_arrives arrives⟩
    | restart row =>
      have ofRows : row ∈ rows.restarts := by simpa [allRows] using mem
      obtain ⟨arrival, listed, arrives⟩ := mapM_mem ofRestarts (tracedRestart row)
        (traced.restarts.mem_iff.mpr (List.mem_map_of_mem ofRows))
      exact ⟨arrival, .inr listed, restart_arrives arrives⟩

/-- A migration a restart wrote ranks right under that restart, recorded with it. -/
theorem own_above (mem : row ∈ allRows rows) : ∃ own ∈ allRows rows, OwnMovement own ∧
    own.recordedAt = row.recordedAt ∧ (own = row ∨ row.key < own.key) := by
  cases row with
  | transition row => exact ⟨_, mem, trivial, rfl, .inl rfl⟩
  | restart row => exact ⟨_, mem, trivial, rfl, .inl rfl⟩
  | migration row =>
    by_cases own : row.source = some .restart
    · have ofRows : row ∈ rows.migrations := by simpa [allRows] using mem
      obtain ⟨restart, ofRestarts, at_, epoch⟩ := rows.stamped row ofRows own
      refine ⟨.restart restart, by simp [allRows, ofRestarts], trivial, at_, .inr ?_⟩
      change orderKey .migration row.recordedAt row.epoch <
        orderKey .restart restart.recordedAt restart.epoch
      have outranks : (MovementKind.migration.rank : ℤ) < MovementKind.restart.rank := by decide
      rw [at_, epoch]
      exact Prod.Lex.toLex_lt_toLex.mpr
        (.inr ⟨rfl, Prod.Lex.toLex_lt_toLex.mpr (.inr ⟨rfl, outranks⟩)⟩)
    · exact ⟨_, mem, own, rfl, .inl rfl⟩

/-- The last of an ordered list of arrivals is the newest. -/
theorem getLast?_newest (sorted : arrivals.Pairwise fun a b => a.order ≤ b.order)
    (last : arrivals.getLast? = some arrival) : ∀ a ∈ arrivals, a.order ≤ arrival.order := by
  intro a mem
  rw [List.getLast?_eq_some_iff] at last
  obtain ⟨front, rfl⟩ := last
  rcases List.mem_append.mp mem with before | here
  · exact (List.pairwise_append.mp sorted).2.2 a before arrival (List.mem_singleton_self _)
  · exact (List.mem_singleton.mp here) ▸ le_rfl

theorem entryArrival_entry {entry : Arrival} (enters : facts.entryArrival arrivals = .ok entry) :
    entry.recordedAt = beginning ∧ ∃ startId graph, facts.startingGraphId arrivals = .ok startId ∧
      facts.graph startId = .ok graph ∧ entry.graphId = graph.graphId ∧
      entry.nodeId = graph.entryNodeId := by
  obtain ⟨startId, starts, enters⟩ := bind_ok enters
  obtain ⟨graph, found, enters⟩ := bind_ok enters
  obtain ⟨name, -, is⟩ := bind_ok enters
  obtain rfl := Except.ok.inj is
  exact ⟨rfl, startId, graph, starts, found, rfl, rfl⟩

/-- The position is the last seen arrival's, the entry's before any. -/
theorem positionAt_current (begun : beginning ≤ instant) {position : Position}
    (answered : facts.positionAt instant = .ok position) : ∃ arrivals entry,
    facts.movementArrivals = .ok arrivals ∧ facts.entryArrival arrivals = .ok entry ∧
    ∃ current, ((arrivals.filter fun a => decide (a.recordedAt ≤ instant)).getLast?.getD entry) =
      current ∧ position.graphId = current.graphId ∧ position.nodeId = current.nodeId := by
  obtain ⟨all, withEntry, answered⟩ := bind_ok answered
  obtain ⟨arrivals, arrive, withEntry⟩ := bind_ok withEntry
  obtain ⟨entry, enters, is⟩ := bind_ok withEntry
  obtain rfl := Except.ok.inj is
  have seen : decide (entry.recordedAt ≤ instant) = true := by
    rw [(entryArrival_entry enters).1]
    exact decide_eq_true begun
  rw [List.filter_cons, if_pos seen] at answered
  dsimp only at answered
  rw [List.getLast?_cons] at answered
  obtain rfl := Except.ok.inj answered
  exact ⟨arrivals, entry, arrive, enters, _, rfl, rfl, rfl⟩

/-- The fold stands on a newest row, or before any movement on the entry of the graph it started
in. -/
theorem positionAt_stands (begun : beginning ≤ instant) (traced : Traced rows facts)
    {position : Position} (answered : facts.positionAt instant = .ok position) :
    (rows.moved instant = [] ∧ ∃ arrivals startId graph, facts.movementArrivals = .ok arrivals ∧
      facts.startingGraphId arrivals = .ok startId ∧ facts.graph startId = .ok graph ∧
      position.graphId = graph.graphId ∧ position.nodeId = graph.entryNodeId) ∨
    ∃ stood ∈ rows.moved instant, (∀ other ∈ rows.moved instant, other.key ≤ stood.key) ∧
      position.graphId = stood.graphId ∧ stood.standsOn facts = .ok position.nodeId := by
  obtain ⟨arrivals, entry, arrive, enters, current, is, onGraph, onNode⟩ :=
    positionAt_current begun answered
  obtain ⟨sorted, fromRows, toRows⟩ := movementArrivals_rows traced arrive
  have seen : ∀ row ∈ rows.moved instant, ∃ arrival ∈ arrivals.filter fun a =>
      decide (a.recordedAt ≤ instant), row.key ≤ arrival.order := by
    intro row moved
    obtain ⟨mem, by_⟩ := mem_moved.mp moved
    obtain ⟨own, ofOwn, isOwn, at_, above⟩ := own_above mem
    obtain ⟨arrival, listed, arrives⟩ := toRows own ofOwn isOwn
    refine ⟨arrival, List.mem_filter.mpr ⟨listed, ?_⟩, ?_⟩
    · rw [decide_eq_true_eq, arrives.recordedAt, at_]
      exact by_
    · rw [arrives.order]
      rcases above with rfl | less
      · exact le_rfl
      · exact less.le
  cases last : (arrivals.filter fun a => decide (a.recordedAt ≤ instant)).getLast? with
  | none =>
    left
    rw [last] at is
    obtain rfl : entry = current := is
    obtain ⟨-, startId, graph, starts, found, ofGraph, ofEntry⟩ := entryArrival_entry enters
    refine ⟨?_, arrivals, startId, graph, arrive, starts, found, onGraph.trans ofGraph,
      onNode.trans ofEntry⟩
    rw [List.eq_nil_iff_forall_not_mem]
    intro row moved
    obtain ⟨arrival, among, -⟩ := seen row moved
    rw [List.getLast?_eq_none_iff.mp last] at among
    cases among
  | some newest =>
    right
    rw [last] at is
    obtain rfl : newest = current := is
    obtain ⟨listed, by_⟩ := List.mem_filter.mp (List.mem_of_getLast? last)
    obtain ⟨stood, ofRows, arrives⟩ := fromRows newest listed
    refine ⟨stood, mem_moved.mpr ⟨ofRows, ?_⟩, ?_, onGraph.trans arrives.graphId, ?_⟩
    · rw [← arrives.recordedAt]
      exact of_decide_eq_true by_
    · intro other moved
      obtain ⟨arrival, among, le⟩ := seen other moved
      rw [← arrives.order]
      exact le.trans (getLast?_newest (sorted.sublist List.filter_sublist) last arrival among)
    · rw [onNode]
      exact arrives.nodeId

/-! ## The newest movement -/

/-- The movement is the row's. -/
structure Moves (row : MovementRow) (movement : Movement) : Prop where
  graphId : movement.graphId = row.graphId
  nodeId : movement.nodeId = row.nodeId

/-- The key of a ranked movement among the arrivals' keys. -/
def castKey (key : MovementKey) : ArrivalKey :=
  toLex ((ofLex key).1, toLex ((ofLex (ofLex key).2).1, ((ofLex (ofLex key).2).2 : ℤ)))

theorem castKey_orderKey (kind : MovementKind) (recordedAt : Instant) (epoch : ℤ) :
    castKey (kind.orderKey recordedAt epoch) = orderKey kind recordedAt epoch := rfl

theorem castKey_le {a b : MovementKey} (le : a ≤ b) : castKey a ≤ castKey b := by
  rw [castKey, castKey, Prod.Lex.toLex_le_toLex, Prod.Lex.toLex_le_toLex]
  rcases Prod.Lex.le_iff.mp le with less | ⟨same, le⟩
  · exact .inl less
  · refine .inr ⟨same, ?_⟩
    rcases Prod.Lex.le_iff.mp le with less | ⟨same, le⟩
    · exact .inl less
    · exact .inr ⟨same, Int.ofNat_le.mpr le⟩

/-- Keys of one kind compare as their instants and epochs do. -/
theorem orderKey_le {kind : MovementKind} {at_ at' : Instant} {epoch epoch' : ℤ}
    (le : toLex (at_, epoch) ≤ toLex (at', epoch')) :
    orderKey kind at_ epoch ≤ orderKey kind at' epoch' := by
  rw [orderKey, orderKey, Prod.Lex.toLex_le_toLex]
  rcases Prod.Lex.toLex_le_toLex.mp le with less | ⟨same, le⟩
  · exact .inl less
  · refine .inr ⟨same, Prod.Lex.toLex_le_toLex.mpr ?_⟩
    rcases le.lt_or_eq with less | same
    · exact .inl less
    · exact .inr ⟨same, le_rfl⟩

/-- A pair among the ranked movements is its family's newest seen fact. -/
def FamilyNewest (chunk : ChunkFacts) (instant : Instant) (pair : MovementKey × Movement) : Prop :=
  (∃ t, (chunk.transitions.filter fun t => decide (t.recordedAt ≤ instant)).argmax
      ChunkFacts.transitionKey = some t ∧
    pair = (MovementKind.orderKey .transition t.recordedAt t.epoch,
      ⟨.transition, some t.toNodeId, t.toNodeExecutor, t.graphId⟩)) ∨
  (∃ m, (chunk.migrations.filter fun m => decide (m.recordedAt ≤ instant)).argmax
      ChunkFacts.migrationKey = some m ∧
    pair = (MovementKind.orderKey .migration m.recordedAt m.epoch,
      ⟨.migration, m.landedNodeId, m.landedNodeExecutor, m.toGraphId⟩)) ∨
  ∃ r, (chunk.restarts.filter fun r => decide (r.recordedAt ≤ instant)).argmax
      ChunkFacts.restartKey = some r ∧
    pair = (MovementKind.orderKey .restart r.recordedAt r.epoch,
      ⟨.restart, some r.toNodeId, r.toNodeExecutor, r.graphId⟩)

theorem mem_rankedMovements {pair : MovementKey × Movement} :
    pair ∈ chunk.rankedMovements (some instant) ↔ FamilyNewest chunk instant pair := by
  simp only [ChunkFacts.rankedMovements, List.mem_append, Option.mem_toList,
    Option.map_eq_some_iff, FamilyNewest, or_assoc, eq_comm (a := pair), Option.all_some]

/-- Each ranked movement is a row's, under the row's key. -/
theorem ranked_row (loaded : Loaded tables rows chunk) {pair : MovementKey × Movement}
    (newest : FamilyNewest chunk instant pair) :
    ∃ row ∈ rows.moved instant, castKey pair.1 = row.key ∧ Moves row pair.2 := by
  rcases newest with ⟨t, best, rfl⟩ | ⟨m, best, rfl⟩ | ⟨r, best, rfl⟩
  · obtain ⟨mem, seen⟩ := List.mem_filter.mp (List.argmax_mem best)
    obtain ⟨row, of, rfl⟩ := List.mem_map.mp (loaded.transitions.mem_iff.mp mem)
    exact ⟨.transition row, mem_moved.mpr ⟨by simp [allRows, of], of_decide_eq_true seen⟩, rfl,
      rfl, rfl⟩
  · obtain ⟨mem, seen⟩ := List.mem_filter.mp (List.argmax_mem best)
    obtain ⟨row, of, rfl⟩ := List.mem_map.mp (loaded.migrations.mem_iff.mp mem)
    exact ⟨.migration row, mem_moved.mpr ⟨by simp [allRows, of], of_decide_eq_true seen⟩, rfl,
      rfl, rfl⟩
  · obtain ⟨mem, seen⟩ := List.mem_filter.mp (List.argmax_mem best)
    obtain ⟨row, of, rfl⟩ := List.mem_map.mp (loaded.restarts.mem_iff.mp mem)
    exact ⟨.restart row, mem_moved.mpr ⟨by simp [allRows, of], of_decide_eq_true seen⟩, rfl,
      rfl, rfl⟩

/-- A seen fact is outranked by its family's newest. -/
theorem family_above {α : Type} (key : α → ℤ ×ₗ ℤ) (at_ : α → Instant) {family : List α} {a : α}
    (mem : a ∈ family) (seen : at_ a ≤ instant) :
    ∃ best, (family.filter fun a => decide (at_ a ≤ instant)).argmax key = some best ∧
      key a ≤ key best := by
  have among : a ∈ family.filter fun a => decide (at_ a ≤ instant) :=
    List.mem_filter.mpr ⟨mem, decide_eq_true seen⟩
  cases found : (family.filter fun a => decide (at_ a ≤ instant)).argmax key with
  | none =>
    rw [List.argmax_eq_none.mp found] at among
    cases among
  | some best => exact ⟨best, rfl, List.le_of_mem_argmax among found⟩

/-- Each row seen is outranked by its family's ranked movement. -/
theorem row_ranked (loaded : Loaded tables rows chunk) (moved : row ∈ rows.moved instant) :
    ∃ pair, FamilyNewest chunk instant pair ∧ row.key ≤ castKey pair.1 := by
  obtain ⟨mem, seen⟩ := mem_moved.mp moved
  cases row with
  | transition row =>
    have of : row ∈ rows.transitions := by simpa [allRows] using mem
    have listed := loaded.transitions.mem_iff.mpr (List.mem_map_of_mem of)
    obtain ⟨best, found, le⟩ := family_above ChunkFacts.transitionKey (·.recordedAt) listed seen
    exact ⟨_, .inl ⟨best, found, rfl⟩, orderKey_le le⟩
  | migration row =>
    have of : row ∈ rows.migrations := by simpa [allRows] using mem
    have listed := loaded.migrations.mem_iff.mpr (List.mem_map_of_mem of)
    obtain ⟨best, found, le⟩ := family_above ChunkFacts.migrationKey (·.recordedAt) listed seen
    exact ⟨_, .inr (.inl ⟨best, found, rfl⟩), orderKey_le le⟩
  | restart row =>
    have of : row ∈ rows.restarts := by simpa [allRows] using mem
    have listed := loaded.restarts.mem_iff.mpr (List.mem_map_of_mem of)
    obtain ⟨best, found, le⟩ := family_above ChunkFacts.restartKey (·.recordedAt) listed seen
    exact ⟨_, .inr (.inr ⟨best, found, rfl⟩), orderKey_le le⟩

/-- The newest movement as of an instant is a newest row's; none is seen where there is none. -/
theorem latestMovement_newest (instant : Instant) (loaded : Loaded tables rows chunk) :
    (chunk.latestMovement (some instant) = none ∧ rows.moved instant = []) ∨
    ∃ movement newest, chunk.latestMovement (some instant) = some movement ∧
      newest ∈ rows.moved instant ∧ (∀ other ∈ rows.moved instant, other.key ≤ newest.key) ∧
      Moves newest movement := by
  cases found : (chunk.rankedMovements (some instant)).argmax Prod.fst with
  | none =>
    left
    refine ⟨by rw [ChunkFacts.latestMovement, found]; rfl, ?_⟩
    rw [List.eq_nil_iff_forall_not_mem]
    intro row moved
    obtain ⟨pair, newest, -⟩ := row_ranked loaded moved
    have mem := mem_rankedMovements.mpr newest
    rw [List.argmax_eq_none.mp found] at mem
    cases mem
  | some best =>
    right
    obtain ⟨newest, moved, key, moves⟩ :=
      ranked_row loaded (mem_rankedMovements.mp (List.argmax_mem found))
    refine ⟨best.2, newest, by rw [ChunkFacts.latestMovement, found]; rfl, moved, ?_, moves⟩
    intro other mem
    obtain ⟨pair, ofFamily, le⟩ := row_ranked loaded mem
    rw [← key]
    exact le.trans (castKey_le (List.le_of_mem_argmax (mem_rankedMovements.mpr ofFamily) found))

/-! ## Agreement -/

/-- The two readings agree: where one fact is the newest they name its graph and its node, the fold
resolving a landing left unrecorded. -/
structure Agree (facts : StepFacts) (moved : List MovementRow) (newest : MovementRow)
    (movement : Movement) (position : Position) : Prop where
  highest : ∀ other ∈ moved, other.key ≤ newest.key
  names : movement.graphId = newest.graphId ∧ movement.nodeId = newest.nodeId
  stands : ∃ stood ∈ moved, stood.key = newest.key ∧ position.graphId = stood.graphId ∧
    stood.standsOn facts = .ok position.nodeId
  same : (∀ other ∈ moved, other.key = newest.key → other = newest) →
    position.graphId = movement.graphId ∧
      ∀ nodeId, movement.nodeId = some nodeId → nodeId ≠ "" → position.nodeId = nodeId

theorem standsOn_named {nodeId landed : String} (stands : row.standsOn facts = .ok landed)
    (named : row.nodeId = some nodeId) (some_ : nodeId ≠ "") : landed = nodeId := by
  cases row with
  | transition row =>
    cases named
    cases stands
    rfl
  | migration row =>
    have is : row.landedNodeId = some nodeId := named
    rw [MovementRow.standsOn, is, orElse, if_neg some_] at stands
    cases stands
    rfl
  | restart row =>
    cases named
    cases stands
    rfl

/-- Before any movement the fold stands on the entry of the graph the chunk started in and the other
reading names nothing; from the first on, they agree. -/
theorem positions_agree (tables : Tables) (rows : MovementRows) (facts : StepFacts)
    (chunk : ChunkFacts) (instant : Instant) (position : Position) (begun : beginning ≤ instant)
    (traced : Traced rows facts) (loaded : Loaded tables rows chunk)
    (answered : facts.positionAt instant = .ok position) :
    (rows.moved instant = [] ∧ chunk.latestMovement (some instant) = none ∧
      ∃ arrivals startId graph, facts.movementArrivals = .ok arrivals ∧
        facts.startingGraphId arrivals = .ok startId ∧ facts.graph startId = .ok graph ∧
        position.graphId = graph.graphId ∧ position.nodeId = graph.entryNodeId) ∨
    ∃ movement newest, chunk.latestMovement (some instant) = some movement ∧
      newest ∈ rows.moved instant ∧ Agree facts (rows.moved instant) newest movement position := by
  rcases positionAt_stands begun traced answered with
    ⟨unmoved, entry⟩ | ⟨stood, ofMoved, above, onGraph, onNode⟩
  · left
    rcases latestMovement_newest instant loaded with
      ⟨none_, -⟩ | ⟨movement, newest, -, mem, -⟩
    · exact ⟨unmoved, none_, entry⟩
    · rw [unmoved] at mem
      cases mem
  · right
    rcases latestMovement_newest instant loaded with
      ⟨-, unmoved⟩ | ⟨movement, newest, found, mem, highest, moves⟩
    · rw [unmoved] at ofMoved
      cases ofMoved
    · have key : stood.key = newest.key :=
        le_antisymm (highest stood ofMoved) (above newest mem)
      refine ⟨movement, newest, found, mem, highest, ⟨moves.graphId, moves.nodeId⟩,
        ⟨stood, ofMoved, key, onGraph, onNode⟩, ?_⟩
      intro alone
      obtain rfl := alone stood ofMoved key
      refine ⟨onGraph.trans moves.graphId.symm, ?_⟩
      intro nodeId named some_
      exact standsOn_named onNode (moves.nodeId.symm.trans named) some_

/-! ## Histories -/

/-- The step facts of rows, in table order. -/
def stepFacts (rows : MovementRows) (graphs : List Graph) (pinGraphId : Option String) :
    StepFacts where
  graphs := graphs
  pinGraphId := pinGraphId
  transitions := rows.transitions.map tracedTransition
  migrations := rows.migrations.map tracedMigration
  restarts := rows.restarts.map tracedRestart

theorem stepFacts_traced (rows : MovementRows) (graphs : List Graph) (pinGraphId : Option String) :
    Traced rows (stepFacts rows graphs pinGraphId) := ⟨.refl _, .refl _, .refl _⟩

/-- The chunk facts of rows, in table order. -/
def movementFacts (tables : Tables) (rows : MovementRows) : ChunkFacts where
  transitions := rows.transitions.map (FactLoading.transitionFact tables)
  migrations := rows.migrations.map (FactLoading.migrationFact tables)
  restarts := rows.restarts.map (FactLoading.restartFact tables)

theorem movementFacts_loaded (tables : Tables) (rows : MovementRows) :
    Loaded tables rows (movementFacts tables rows) := ⟨.refl _, .refl _, .refl _⟩

def builds : Graph where
  graphId := "g1"
  name := "dev"
  entryNodeId := "n1"
  nodes := [⟨"n1", "g1", "build", .runner, [], .worker, [], none, []⟩,
    ⟨"n2", "g1", "review", .runner, [], .worker, [], none, []⟩]
  edges := []

def rebuilds : Graph where
  graphId := "g2"
  name := "dev"
  entryNodeId := "m1"
  nodes := [⟨"m1", "g2", "build", .runner, [], .worker, [], none, []⟩]
  edges := []

/-- A review left by a restart onto the next graph version, the restart's own migration with it. -/
def restarted : MovementRows where
  transitions := [⟨"t1", "c1", "g1", some "n1", "n2", none, none, 1, "r1", 10⟩]
  migrations := [⟨"m1", "c1", some "n2", "g1", "g2", some "m1", none, none, none, 2, 20,
    some .restart⟩]
  restarts := [⟨"c1", "g2", some "n2", some "g1", "m1", 2, none, "op", 20, none⟩]
  stamped := by decide

theorem restarted_positions_agree :
    (restarted.moved 25 = [] ∧ (movementFacts {} restarted).latestMovement (some 25) = none ∧
      ∃ arrivals startId graph,
        (stepFacts restarted [builds, rebuilds] none).movementArrivals = .ok arrivals ∧
        (stepFacts restarted [builds, rebuilds] none).startingGraphId arrivals = .ok startId ∧
        (stepFacts restarted [builds, rebuilds] none).graph startId = .ok graph ∧
        "g2" = graph.graphId ∧ "m1" = graph.entryNodeId) ∨
    ∃ movement newest, (movementFacts {} restarted).latestMovement (some 25) = some movement ∧
      newest ∈ restarted.moved 25 ∧ Agree (stepFacts restarted [builds, rebuilds] none)
        (restarted.moved 25) newest movement ⟨"g2", "m1", "build", 2⟩ :=
  positions_agree {} restarted (stepFacts restarted [builds, rebuilds] none)
    (movementFacts {} restarted) 25 ⟨"g2", "m1", "build", 2⟩ (by decide) (stepFacts_traced _ _ _)
    (movementFacts_loaded _ _) (by decide +kernel)

/-- The fold answers, and the newest movement does not name its graph and node. -/
def Differ (rows : MovementRows) (graphs : List Graph) (pinGraphId : Option String)
    (instant : Instant) : Prop :=
  ∃ position, (stepFacts rows graphs pinGraphId).positionAt instant = .ok position ∧
    ((movementFacts {} rows).latestMovement (some instant)).map
      (fun movement => (movement.graphId, movement.nodeId)) ≠
        some (position.graphId, some position.nodeId)

def unmoved : MovementRows where
  stamped := by simp

/-- A migration recorded without the node it landed on. -/
def unlanded : MovementRows where
  migrations := [⟨"m1", "c1", some "n1", "g1", "g2", none, none, none, none, 1, 20, some .intent⟩]
  stamped := by decide

/-- Two transitions of one epoch recorded at one instant. -/
def tied : MovementRows where
  transitions := [⟨"t1", "c1", "g1", some "n1", "n2", none, none, 1, "r1", 10⟩,
    ⟨"t2", "c1", "g1", some "n2", "n1", none, none, 1, "hub", 10⟩]
  stamped := by simp

/-- The readings differ before any movement, on a landing left unrecorded, and on a tie of one
family. -/
theorem readings_differ : Differ unmoved [builds] (some "g1") 25 ∧
    Differ unlanded [builds, rebuilds] none 25 ∧ Differ tied [builds] none 25 := by
  refine ⟨⟨⟨"g1", "n1", "build", 1⟩, ?_⟩, ⟨⟨"g2", "m1", "build", 2⟩, ?_⟩,
    ⟨⟨"g1", "n1", "build", 2⟩, ?_⟩⟩
  all_goals decide +kernel

end Blizzard.PositionAgreement
