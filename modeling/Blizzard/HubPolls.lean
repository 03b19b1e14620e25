import Blizzard.StatusLadder
import Mathlib.Data.List.Sort

/-! # A chunk's hub-node polls

A poll is recorded for one visit of a hub node. The pending poll is looked up at the
newest transition's visit; where the chunk stands is the newest of its transitions,
migrations and restarts. -/
namespace Blizzard.HubPolls
open HubTables StatusLadder

/-- A `hub_node_poll` row; `kind` is what the pass waits on, read open. -/
structure HubNodePollFact where
  nodeId : String
  epoch : ℤ
  polledAt : Instant
  nextPollAt : Option Instant := none
  kind : String := "pending"
  lastPolledAt : Option Instant := none
  deriving DecidableEq, Repr

/-- A chunk's facts with its recorded polls. -/
structure HubFacts extends ChunkFacts where
  hubNodePolls : List HubNodePollFact := []
  deriving DecidableEq, Repr

namespace HubFacts
variable (facts : HubFacts)

/-- The polls of one visit, oldest first. -/
def hubNodePollHistory (nodeId : String) (epoch : ℤ) : List HubNodePollFact :=
  (facts.hubNodePolls.filter fun poll =>
    decide (poll.nodeId = nodeId) && decide (poll.epoch = epoch)).insertionSort
      fun a b => a.polledAt ≤ b.polledAt

/-- The newest poll of the visit the newest transition opened, where it entered a hub node. -/
def hubNodePending : Option HubNodePollFact :=
  match facts.newestTransition with
  | none => none
  | some transition =>
    if transition.toNodeExecutor ≠ .hub then none
    else (facts.hubNodePollHistory transition.toNodeId transition.epoch).getLast?

/-- The chunk's newest movement landed it on the node, at the epoch. -/
def StandsAt (nodeId : String) (epoch : ℤ) : Prop :=
  ∃ key movement, (facts.rankedMovements none).argmax Prod.fst = some (key, movement) ∧
    movement.nodeId = some nodeId ∧ (ofLex (ofLex key).2).1 = epoch

/-- The newest migration and the newest restart, keyed as movements. -/
def relocations : List (MovementKey × Movement) :=
  ({ facts.toChunkFacts with transitions := [] } : ChunkFacts).rankedMovements none

/-- Where the newest transition opened a hub visit that was polled, a migration or restart ordered
after it lands on that node again, at that epoch. -/
def VisitKept : Prop :=
  ∀ transition, facts.newestTransition = some transition → transition.toNodeExecutor = .hub →
    facts.hubNodePollHistory transition.toNodeId transition.epoch ≠ [] →
    ∀ key movement, facts.relocations.argmax Prod.fst = some (key, movement) →
      MovementKind.orderKey .transition transition.recordedAt transition.epoch < key →
      movement.nodeId = some transition.toNodeId ∧ (ofLex (ofLex key).2).1 = transition.epoch

end HubFacts
open HubFacts

variable {facts : HubFacts}

/-- A poll of a visit's history is the visit's. -/
theorem visit_of_mem_history {nodeId : String} {epoch : ℤ} {poll : HubNodePollFact}
    (mem : poll ∈ facts.hubNodePollHistory nodeId epoch) :
    poll.nodeId = nodeId ∧ poll.epoch = epoch := by
  have named := (List.mem_filter.mp ((List.mem_insertionSort _).mp mem)).2
  simpa using named

/-- The newest transition ranks before the relocations. -/
theorem rankedMovements_cons {transition : TransitionFact}
    (newest : facts.newestTransition = some transition) :
    facts.rankedMovements none =
      (MovementKind.orderKey .transition transition.recordedAt transition.epoch,
        ⟨.transition, some transition.toNodeId, transition.toNodeExecutor, transition.graphId⟩) ::
      facts.relocations := by
  have all : facts.transitions.argmax ChunkFacts.transitionKey = some transition := newest
  simp [relocations, ChunkFacts.rankedMovements, all]

/-- The chunk stands where its newest transition put it, unless a relocation is ordered after. -/
theorem argmax_rankedMovements {transition : TransitionFact}
    (newest : facts.newestTransition = some transition) {key : MovementKey} {movement : Movement} :
    (facts.rankedMovements none).argmax Prod.fst = some (key, movement) ↔
      (facts.relocations.argmax Prod.fst = some (key, movement) ∧
        MovementKind.orderKey .transition transition.recordedAt transition.epoch < key) ∨
      ((∀ last ∈ facts.relocations.argmax Prod.fst,
          ¬ MovementKind.orderKey .transition transition.recordedAt transition.epoch < last.1) ∧
        key = MovementKind.orderKey .transition transition.recordedAt transition.epoch ∧
        movement = ⟨.transition, some transition.toNodeId, transition.toNodeExecutor,
          transition.graphId⟩) := by
  rw [rankedMovements_cons newest, List.argmax_cons]
  cases relocated : facts.relocations.argmax Prod.fst with
  | none => simp [eq_comm]
  | some last =>
    by_cases after : MovementKind.orderKey .transition transition.recordedAt transition.epoch < last.1
    · constructor
      · intro is
        have same : last = (key, movement) := by simpa [after] using is
        subst same
        exact .inl ⟨rfl, after⟩
      · rintro (⟨is, -⟩ | ⟨kept, -⟩)
        · simpa [after] using is
        · exact absurd after (kept last rfl)
    · constructor
      · intro is
        refine .inr ⟨fun other mem => ?_, ?_⟩
        · rw [← Option.mem_some_iff.mp mem]
          exact after
        · have same := by simpa [after] using is
          exact ⟨same.1.symm, same.2.symm⟩
      · rintro (⟨is, later⟩ | ⟨-, rfl, rfl⟩)
        · rw [Option.some_inj.mp is] at after
          exact absurd later after
        · simp [after]

/-- A pending poll is of the visit the chunk stands at exactly where no later migration or restart
took it off the visit of its newest transition. -/
theorem pending_stands_iff_visitKept (facts : HubFacts) :
    (∀ poll, facts.hubNodePending = some poll → facts.StandsAt poll.nodeId poll.epoch) ↔
      facts.VisitKept := by
  constructor
  · intro stands transition newest hub polled key movement relocated after
    obtain ⟨poll, last⟩ : ∃ poll, (facts.hubNodePollHistory transition.toNodeId
        transition.epoch).getLast? = some poll :=
      ⟨_, List.getLast?_eq_some_getLast polled⟩
    have pending : facts.hubNodePending = some poll := by
      simp [hubNodePending, newest, hub, last]
    obtain ⟨node, epoch⟩ := visit_of_mem_history (List.mem_of_getLast? last)
    obtain ⟨key', movement', latest, at_, in_⟩ := stands poll pending
    have newest' := (argmax_rankedMovements newest).mpr (.inl ⟨relocated, after⟩)
    rw [newest', Option.some_inj, Prod.mk.injEq] at latest
    obtain ⟨rfl, rfl⟩ := latest
    rw [← node, ← epoch]
    exact ⟨at_, in_⟩
  · intro kept poll pending
    rw [hubNodePending] at pending
    cases newest : facts.newestTransition with
    | none => simp [newest] at pending
    | some transition =>
      simp only [newest, ne_eq, ite_not] at pending
      split at pending
      case isFalse => exact nomatch pending
      case isTrue hub =>
        have mem := List.mem_of_getLast? pending
        obtain ⟨node, epoch⟩ := visit_of_mem_history mem
        rw [node, epoch]
        cases relocated : facts.relocations.argmax Prod.fst with
        | none =>
          exact ⟨_, _, (argmax_rankedMovements newest).mpr
            (.inr ⟨by simp [relocated], rfl, rfl⟩), rfl, rfl⟩
        | some last =>
          obtain ⟨key, movement⟩ := last
          by_cases after :
              MovementKind.orderKey .transition transition.recordedAt transition.epoch < key
          · exact ⟨key, movement, (argmax_rankedMovements newest).mpr (.inl ⟨relocated, after⟩),
              kept transition newest hub (List.ne_nil_of_mem mem) key movement relocated after⟩
          · exact ⟨_, _, (argmax_rankedMovements newest).mpr
              (.inr ⟨by simpa [relocated] using after, rfl, rfl⟩), rfl, rfl⟩

/-- A chunk polled at a hub node and then restarted onto another still reads as polling. -/
def restartedOff : HubFacts where
  transitions := [⟨"nd_merge", .hub, 1, 10, none, none, "gr_1", "tr_1"⟩]
  restarts := [⟨"nd_build", some "nd_merge", "gr_1", 2, 30, none, .runner, "op", none, none⟩]
  hubNodePolls := [{ nodeId := "nd_merge", epoch := 1, polledAt := 20 }]

theorem restarted_still_pending :
    ¬ ∀ poll, restartedOff.hubNodePending = some poll →
      restartedOff.StandsAt poll.nodeId poll.epoch := by
  intro stands
  obtain ⟨key, movement, latest, at_, -⟩ := stands
    { nodeId := "nd_merge", epoch := 1, polledAt := 20 } (by decide)
  have moved : restartedOff.latestMovement none =
      some ⟨.restart, some "nd_build", .runner, "gr_1"⟩ := by decide
  rw [ChunkFacts.latestMovement, latest, Option.map_some, Option.some_inj] at moved
  have there : movement = ⟨.restart, some "nd_build", .runner, "gr_1"⟩ := moved
  rw [there] at at_
  exact absurd at_ (by decide)

end Blizzard.HubPolls
