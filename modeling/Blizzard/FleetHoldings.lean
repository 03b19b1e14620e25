import Blizzard.ClaimExclusivity
import Mathlib.Data.List.Dedup

/-! # The routes a runner holds

Which chunks a runner holds a live route on, and how few writes change that:
only a won claim gives a runner a route, and a release leaves the chunk with
none. -/
namespace Blizzard.FleetHoldings
open HubTables LatestRows RouteLiveness EpochFence FencedWrites FenceEffects StatusLadder FactLoading
open ClaimAdmission ChunkLevers EpochFencing ClaimExclusivity

/-- Every live route the runner holds, by chunk. -/
def liveRoutesOfRunner (tables : Tables) (runnerId : RunnerId) : List Route :=
  let chunkIds := ((tables.routeCreated.filter fun row => decide (row.runnerId = runnerId)).map
    (·.chunkId)).dedup
  ((chunkIds.filterMap (routeOf tables)).filter fun route => decide (route.runnerId = runnerId)).mergeSort
    fun a b => decide (a.chunkId ≤ b.chunkId)

/-- The chunk's live route is the runner's. -/
def Holds (tables : Tables) (runnerId : RunnerId) (chunkId : ChunkId) : Prop :=
  ∃ route, routeOf tables chunkId = some route ∧ route.runnerId = runnerId

variable {tables tables' : Tables} {now : Instant} {runnerId : RunnerId} {chunkId : ChunkId}

theorem routeOf_chunkId {route : Route} (live : routeOf tables chunkId = some route) :
    route.chunkId = chunkId := by
  unfold routeOf at live
  split at live
  · cases live
  · dsimp only at live
    split at live
    · cases live
    · obtain rfl := Option.some.inj live
      rfl

/-- The read finds every chunk the runner holds. -/
theorem mem_liveRoutes (holds : Holds tables runnerId chunkId) :
    chunkId ∈ (liveRoutesOfRunner tables runnerId).map (·.chunkId) := by
  obtain ⟨route, live, own⟩ := holds
  refine List.mem_map.mpr ⟨route, ?_, routeOf_chunkId live⟩
  rw [liveRoutesOfRunner, List.mem_mergeSort, List.mem_filter, List.mem_filterMap]
  refine ⟨⟨chunkId, ?_, live⟩, by simpa using own⟩
  obtain ⟨row, last, same, -⟩ := routeOf_eq_some live
  have mem := List.mem_of_getLast? last
  obtain ⟨created, at_⟩ := mem_createdRows.mp (mem_unbeaten.mp mem).1
  rw [List.mem_dedup, List.mem_map]
  exact ⟨row, List.mem_filter.mpr ⟨created, by simpa [← same] using own⟩, at_⟩

/-- Where no route is created, a runner holds only what it held. -/
theorem Holds.before (holds : Holds tables' runnerId chunkId) (quiet : RoutesQuiet tables tables' now) :
    Holds tables runnerId chunkId := by
  obtain ⟨created, released, own, -⟩ := quiet
  obtain ⟨route, live, same⟩ := holds
  obtain ⟨row, last, named, -, open_⟩ := routeOf_eq_some live
  rw [createdRows, created] at last
  have live' : ∀ rel ∈ releasedRows tables chunkId, ¬ createdKey row < releasedKey rel := by
    intro rel mem
    obtain ⟨old, at_⟩ := mem_releasedRows.mp mem
    exact open_ rel (mem_releasedRows.mpr ⟨by rw [own]; exact List.mem_append_left _ old, at_⟩)
  obtain ⟨route', live', same', -⟩ := routeOf_of_last last live'
  exact ⟨route', live', same'.trans (named.symm.trans same)⟩

/-- A claim gives its own runner a route, and nobody else. -/
theorem Holds.claimed {route : RouteClaim} (clock : RouteClock ⟨now, tables⟩)
    (holds : Holds (recordRouteConn tables route now) runnerId chunkId) :
    Holds tables runnerId chunkId ∨ runnerId = route.runnerId := by
  by_cases same : chunkId = route.chunkId
  · subst same
    obtain ⟨row, held, own, -, -⟩ := heldBy_claimed clock route
    obtain ⟨route', live, named⟩ := holds
    right
    rw [← named, routeOf_runner_of_newest held.newest live, own]
  · left
    obtain ⟨route', live, own⟩ := holds
    obtain ⟨row', appends, at_, -, -, -⟩ := claim_rows tables route now
    have created : createdRows (recordRouteConn tables route now) chunkId = createdRows tables chunkId := by
      rw [createdRows, appends.created_eq, List.filter_append]
      simp [createdRows, at_, Ne.symm same]
    have released : releasedRows (recordRouteConn tables route now) chunkId = releasedRows tables chunkId := by
      rw [releasedRows, appends.released_eq]
      simp [releasedRows]
    obtain ⟨row, last, named, -, open_⟩ := routeOf_eq_some live
    rw [created] at last
    rw [released] at open_
    obtain ⟨route'', live'', same'', -⟩ := routeOf_of_last last open_
    exact ⟨route'', live'', same''.trans (named.symm.trans own)⟩

/-- A release leaves the chunk without a live route. -/
theorem routeOf_released (clock : RouteClock ⟨now, tables⟩) {cause reason : Option String} :
    routeOf (recordRouteReleasedConn tables chunkId cause reason now) chunkId = none := by
  cases live : routeOf (recordRouteReleasedConn tables chunkId cause reason now) chunkId with
  | none => rfl
  | some route =>
    obtain ⟨row, last, -, -, open_⟩ := routeOf_eq_some live
    have old : row ∈ createdRows tables chunkId := (mem_unbeaten.mp (List.mem_of_getLast? last)).1
    refine absurd ?_ (open_ ⟨chunkId, now, nextRouteSeq tables chunkId, cause, reason⟩ ?_)
    · exact createdKey_lt_next old (clock.created row (mem_createdRows.mp old).1)
    · exact mem_releasedRows.mpr ⟨by simp [recordRouteReleasedConn], rfl⟩

/-- What the release pass may find of a chunk, and what it then writes. -/
theorem releaseHeld_cases (tables : Tables) (chunkId : ChunkId) (runnerId : RunnerId) (stands : Bool)
    (now : Instant) :
    ((Holds tables runnerId chunkId → ∃ facts, loadFacts tables chunkId = some facts ∧
        holdsClaim facts.status = false) ∧
      releaseHeld tables chunkId runnerId stands now = (tables, .replayed)) ∨
    (stands = false ∧ ∃ conflict, releaseHeld tables chunkId runnerId stands now =
      (tables, .refused conflict)) ∨
    (stands = true ∧ Holds tables runnerId chunkId ∧ releaseHeld tables chunkId runnerId stands now =
      (recordRouteReleasedConn tables chunkId (some "retirement") none now, .written)) := by
  rw [releaseHeld]
  split
  · rename_i unreleasable
    refine .inl ⟨?_, rfl⟩
    rintro ⟨route, live, own⟩
    cases loaded : loadFacts tables chunkId with
    | none => simp [releasableBy, holds, live, own, loaded] at unreleasable
    | some facts => exact ⟨facts, rfl, by simpa [releasableBy, holds, live, own, loaded] using unreleasable⟩
  · rename_i releasable
    have releasable : releasableBy (routeOf tables chunkId)
        ((loadFacts tables chunkId).map (·.status)) runnerId = true := by simpa using releasable
    split
    · rename_i moved
      exact .inr (.inl ⟨by simpa using moved, _, rfl⟩)
    · rename_i unmoved
      refine .inr (.inr ⟨by simpa using unmoved, ?_, rfl⟩)
      obtain ⟨route, live, own⟩ := (Option.any_eq_true _ _).mp (Bool.and_eq_true_iff.mp releasable).1
      exact ⟨route, live, by simpa using own⟩

end Blizzard.FleetHoldings
