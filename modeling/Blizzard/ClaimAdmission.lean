import Blizzard.DependencyEdges
import Blizzard.FencedWrites
import Blizzard.WorkflowGraph

/-! # Claiming a chunk

A claim is one transaction under the chunk's row lock: every input of its
refusals is read there, the refusals run in a fixed order, and only a claim
that passes them all writes its route. -/
namespace Blizzard.ClaimAdmission
open HubTables RouteLiveness FencedWrites StatusLadder FactLoading DependencyEdges WorkflowGraph

/-- The fleet-registry fields a claim is judged on. -/
structure RunnerRegistration where
  runnerId : RunnerId
  registeredAt : Option Instant
  retired : Bool
  hubPaused : Bool
  versionRefusal : Option String
  served : List (Option String)
  deriving DecidableEq, Repr

def RunnerRegistration.neverConnected (registration : RunnerRegistration) : Bool :=
  registration.registeredAt.isNone

/-- Whether some entry of the served declaration resolved to the project. -/
def RunnerRegistration.serves (registration : RunnerRegistration) (projectId : String) : Bool :=
  registration.served.any fun entry => decide (entry = some projectId)

inductive ClaimRefusal
  | unregistered
  | retired
  | versionRefused (reason : String)
  | runnerPaused
  | terminal (status : ChunkStatus)
  | conflict (heldBy : RunnerId)
  | notReady (status : ChunkStatus)
  | dependency (prerequisite : ChunkId)
  | unservedProject (projectId : String)
  | incapable
  deriving DecidableEq, Repr

/-- The runner-level bars, in the order they are checked before the lock. -/
def refusePausedRunner (registration : Option RunnerRegistration) : Option ClaimRefusal :=
  match registration with
  | none => some .unregistered
  | some registration =>
    if registration.neverConnected then some .unregistered
    else if registration.retired then some .retired
    else
      match registration.versionRefusal with
      | some reason => some (.versionRefused reason)
      | none => if registration.hubPaused then some .runnerPaused else none

/-- Only `done` meets an edge; an absent prerequisite reads unmet. -/
def metBy (prerequisiteStatus : Option ChunkStatus) : Bool :=
  decide (prerequisiteStatus = some .done)

/-- The earliest-declared standing edge out of the chunk whose prerequisite is not met. -/
def firstUnmetPrerequisite (tables : Tables) (chunkId : ChunkId) (edges : List DependencyRow) :
    Option ChunkId :=
  (edges.find? fun e =>
    decide (e.dependentChunkId = chunkId) &&
      !metBy ((loadFacts tables e.prerequisiteChunkId).map (·.status))).map (·.prerequisiteChunkId)

/-- What one claim asks, with what it reads outside the chunk's tables: the registration before
the lock and under it, the graphs by id, and the capability match. -/
structure ClaimRequest where
  route : RouteClaim
  peeked : Option RunnerRegistration
  registration : Option RunnerRegistration
  graphs : String → Option Graph
  eligible : ChunkRow → Graph → Node → Bool

/-- The node a claim lands the chunk at, or its refusal. -/
def admissionNode (chunk : ChunkRow) (graph : Graph) (loaded : Option ChunkFacts)
    (runnerId : RunnerId) (existingRoute : Option Route) (unmet : Option ChunkId)
    (registration : Option RunnerRegistration) (eligible : ChunkRow → Graph → Node → Bool) :
    Except ClaimRefusal Node :=
  match registration with
  | none => .error .unregistered
  | some registration =>
    if registration.neverConnected then .error .unregistered
    else if registration.retired then .error .retired
    else
      match registration.versionRefusal with
      | some reason => .error (.versionRefused reason)
      | none =>
        let facts := loaded.getD {}
        let status := (loaded.map (·.status)).getD .notReady
        if !holdsClaim status then .error (.terminal status)
        else
          match existingRoute with
          | some held => .error (.conflict held.runnerId)
          | none =>
            if !verbLegalFrom .claim status then .error (.notReady status)
            else
              match unmet with
              | some prerequisite => .error (.dependency prerequisite)
              | none =>
                if !registration.serves chunk.projectId then
                  .error (.unservedProject chunk.projectId)
                else
                  match currentNode facts graph with
                  | none => .error (.conflict runnerId)
                  | some node =>
                    if eligible chunk graph node then .ok node else .error .incapable

/-- The chunk's row, unless the chunk is gone from every read. -/
def record (tables : Tables) (chunkId : ChunkId) : Option ChunkRow :=
  match tables.chunks.rows.find? fun row => decide (row.chunkId = chunkId) with
  | none => none
  | some row => if isEphemeralId tables chunkId then none else some row

/-- The judgement of a claim on what its lock reads. -/
def claimNode (tables : Tables) (request : ClaimRequest) : Except ClaimRefusal Node :=
  let chunkId := request.route.chunkId
  match refusePausedRunner request.peeked with
  | some refusal => .error refusal
  | none =>
    match record tables chunkId with
    | none => .error (.conflict request.route.runnerId)
    | some chunk =>
      match request.graphs chunk.graphId with
      | none => .error (.conflict request.route.runnerId)
      | some graph =>
        admissionNode chunk graph (loadFacts tables chunkId) request.route.runnerId
          (routeOf tables chunkId)
          (firstUnmetPrerequisite tables chunkId (standingEdgesFor tables chunkId))
          request.registration request.eligible

/-- One claim: a refusal writes nothing. -/
def claim (tables : Tables) (request : ClaimRequest) (now : Instant) :
    Tables × Except ClaimRefusal Node :=
  match claimNode tables request with
  | .error refusal => (tables, .error refusal)
  | .ok node => (recordRouteConn tables request.route now, .ok node)

/-- What an admitted claim was judged on. -/
theorem admissionNode_eq_ok {chunk : ChunkRow} {graph : Graph} {loaded : Option ChunkFacts}
    {runnerId : RunnerId} {existingRoute : Option Route} {unmet : Option ChunkId}
    {registration : Option RunnerRegistration} {eligible : ChunkRow → Graph → Node → Bool}
    {node : Node}
    (h : admissionNode chunk graph loaded runnerId existingRoute unmet registration eligible =
      .ok node) :
    (∃ facts, loaded = some facts ∧ facts.status = .ready) ∧ existingRoute = none ∧ unmet = none := by
  unfold admissionNode at h
  dsimp only at h
  split at h
  · cases h
  split at h
  · cases h
  split at h
  · cases h
  split at h
  · cases h
  split at h
  · cases h
  split at h
  · cases h
  split at h
  · cases h
  rename_i notReady
  split at h
  · cases h
  refine ⟨?_, rfl, rfl⟩
  cases loaded with
  | none => simp [verbLegalFrom, chunkVerbLegality] at notReady
  | some facts => exact ⟨facts, rfl, by simpa [verbLegalFrom, chunkVerbLegality] using notReady⟩

/-- No edge out of the chunk is unmet when the scan finds none. -/
theorem firstUnmetPrerequisite_eq_none {tables : Tables} {chunkId : ChunkId}
    {edges : List DependencyRow} (h : firstUnmetPrerequisite tables chunkId edges = none)
    {e : DependencyRow} (he : e ∈ edges) (hd : e.dependentChunkId = chunkId) :
    ∃ facts, loadFacts tables e.prerequisiteChunkId = some facts ∧ facts.status = .done := by
  have absent := List.find?_eq_none.mp (Option.map_eq_none_iff.mp h) e he
  simpa [hd, metBy] using absent

/-- A claim succeeds only on a ready, unheld chunk whose prerequisites are all done. -/
theorem claim_eq_ok {tables : Tables} {request : ClaimRequest} {now : Instant} {node : Node}
    (h : (claim tables request now).2 = .ok node) :
    (claim tables request now).1 = recordRouteConn tables request.route now ∧
    (∃ facts, loadFacts tables request.route.chunkId = some facts ∧ facts.status = .ready) ∧
    routeOf tables request.route.chunkId = none ∧
    ∀ e ∈ tables.chunkDependencies, standing e = true →
      e.dependentChunkId = request.route.chunkId →
        ∃ facts, loadFacts tables e.prerequisiteChunkId = some facts ∧ facts.status = .done := by
  unfold claim at h ⊢
  split at h
  · cases h
  rename_i admitted
  unfold claimNode at admitted
  dsimp only at admitted
  split at admitted
  · cases admitted
  split at admitted
  · cases admitted
  split at admitted
  · cases admitted
  obtain ⟨ready, unheld, met⟩ := admissionNode_eq_ok admitted
  refine ⟨rfl, ready, unheld, fun e he hs hd => ?_⟩
  refine firstUnmetPrerequisite_eq_none met ?_ hd
  simp only [standingEdgesFor, standingEdges, List.mem_filter, List.mem_mergeSort]
  exact ⟨⟨he, hs⟩, by simp [hd]⟩

theorem claim_eq_error {tables : Tables} {request : ClaimRequest} {now : Instant}
    {refusal : ClaimRefusal} (h : (claim tables request now).2 = .error refusal) :
    (claim tables request now).1 = tables := by
  unfold claim at h ⊢
  split at h
  · rfl
  · cases h

end Blizzard.ClaimAdmission
