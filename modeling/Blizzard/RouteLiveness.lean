import Blizzard.HubTables
import Blizzard.LatestRows

/-! # Route liveness

A chunk's routes are three append-only tables; which route is live is derived
from the newest created and the newest released row by `(timestamp, seq)`.
`seq` is a counter over the three tables, so it orders rows written at one
instant. The SQL reader and the fold over the chunk's facts agree. -/
namespace Blizzard.RouteLiveness
open HubTables LatestRows

structure RouteCreatedFact where
  createdAt : Instant
  seq : ℤ
  deriving DecidableEq, Repr

structure RouteReleasedFact where
  releasedAt : Instant
  seq : ℤ
  deriving DecidableEq, Repr

structure RouteTokenMintedFact where
  tokenHash : String
  mintedAt : Instant
  seq : ℤ
  deriving DecidableEq, Repr

def RouteCreatedFact.key (fact : RouteCreatedFact) : ℤ ×ₗ ℤ := toLex (fact.createdAt, fact.seq)
def RouteReleasedFact.key (fact : RouteReleasedFact) : ℤ ×ₗ ℤ := toLex (fact.releasedAt, fact.seq)
def RouteTokenMintedFact.key (fact : RouteTokenMintedFact) : ℤ ×ₗ ℤ :=
  toLex (fact.mintedAt, fact.seq)

/-- A chunk's route facts and the liveness they derive. -/
structure RouteHistory where
  created : List RouteCreatedFact := []
  released : List RouteReleasedFact := []
  tokensMinted : List RouteTokenMintedFact := []
  deriving DecidableEq, Repr

/-- The newest created fact still live, `none` once a later release is recorded. -/
def RouteHistory.newest (history : RouteHistory) : Option RouteCreatedFact :=
  match history.created.argmax RouteCreatedFact.key with
  | none => none
  | some newestCreated =>
    if history.released.any fun rel => decide (newestCreated.key < rel.key) then none
    else some newestCreated

/-- The live route's newest token: minted at or after the acquisition's own `seq`. -/
def RouteHistory.newestToken (history : RouteHistory) : Option RouteTokenMintedFact :=
  match history.newest with
  | none => none
  | some live =>
    (history.tokensMinted.filter fun t => decide (live.seq ≤ t.seq)).argmax RouteTokenMintedFact.key

/-- The live route of a chunk. -/
structure Route where
  chunkId : ChunkId
  runnerId : RunnerId
  workspaceId : String
  environmentIds : List String
  createdAt : Instant
  routeId : String
  deriving DecidableEq, Repr

def createdFact (row : RouteCreatedRow) : RouteCreatedFact := ⟨row.createdAt, row.seq⟩
def releasedFact (row : RouteReleasedRow) : RouteReleasedFact := ⟨row.releasedAt, row.seq⟩
def tokenFact (row : RouteTokenRow) : RouteTokenMintedFact := ⟨row.tokenHash, row.mintedAt, row.seq⟩

/-- The `(created_at, seq)` order of `route_created`. -/
def createdKey (row : RouteCreatedRow) : ℤ ×ₗ ℤ := (createdFact row).key
def releasedKey (row : RouteReleasedRow) : ℤ ×ₗ ℤ := (releasedFact row).key

def createdRows (tables : Tables) (chunkId : ChunkId) : List RouteCreatedRow :=
  tables.routeCreated.filter (·.chunkId = chunkId)

def releasedRows (tables : Tables) (chunkId : ChunkId) : List RouteReleasedRow :=
  tables.routeReleased.filter (·.chunkId = chunkId)

def tokenRows (tables : Tables) (chunkId : ChunkId) : List RouteTokenRow :=
  tables.routeTokenMinted.filter (·.chunkId = chunkId)

/-- The whole route history of a chunk, as `load_chunk_facts` reads it. -/
def routeHistory (tables : Tables) (chunkId : ChunkId) : RouteHistory where
  created := (createdRows tables chunkId).map createdFact
  released := (releasedRows tables chunkId).map releasedFact
  tokensMinted := (tokenRows tables chunkId).map tokenFact

/-- `routes_of_conn` over one id: the newest created row, if no newest release is later. -/
def routeOf (tables : Tables) (chunkId : ChunkId) : Option Route :=
  match (unbeaten createdKey (createdRows tables chunkId)).getLast? with
  | none => none
  | some row =>
    let released := (unbeaten releasedKey (releasedRows tables chunkId)).getLast?
    match ({ created := [createdFact row]
             released := (released.map releasedFact).toList } : RouteHistory).newest with
    | none => none
    | some _ =>
      some
        { chunkId := chunkId
          runnerId := row.runnerId
          workspaceId := row.workspaceId
          environmentIds :=
            (tables.routeEnvironments.filter (·.routeId = row.routeId)).map (·.environmentId)
          createdAt := row.createdAt
          routeId := row.routeId }

/-- One past the greatest `seq` of the chunk's three route tables. -/
def nextRouteSeq (tables : Tables) (chunkId : ChunkId) : ℤ :=
  max (max (maxOrZero ((createdRows tables chunkId).map (·.seq)))
    (maxOrZero ((releasedRows tables chunkId).map (·.seq))))
    (maxOrZero ((tokenRows tables chunkId).map (·.seq))) + 1

theorem mem_createdRows {tables : Tables} {chunkId : ChunkId} {row : RouteCreatedRow} :
    row ∈ createdRows tables chunkId ↔ row ∈ tables.routeCreated ∧ row.chunkId = chunkId := by
  simp [createdRows]

theorem mem_releasedRows {tables : Tables} {chunkId : ChunkId} {row : RouteReleasedRow} :
    row ∈ releasedRows tables chunkId ↔ row ∈ tables.routeReleased ∧ row.chunkId = chunkId := by
  simp [releasedRows]

theorem createdSeq_lt_nextRouteSeq {tables : Tables} {chunkId : ChunkId} {row : RouteCreatedRow}
    (h : row ∈ createdRows tables chunkId) : row.seq < nextRouteSeq tables chunkId := by
  have hmax : row.seq ≤ maxOrZero ((createdRows tables chunkId).map (·.seq)) :=
    le_maxOrZero (List.mem_map_of_mem h)
  unfold nextRouteSeq
  omega

theorem releasedSeq_lt_nextRouteSeq {tables : Tables} {chunkId : ChunkId} {row : RouteReleasedRow}
    (h : row ∈ releasedRows tables chunkId) : row.seq < nextRouteSeq tables chunkId := by
  have hmax : row.seq ≤ maxOrZero ((releasedRows tables chunkId).map (·.seq)) :=
    le_maxOrZero (List.mem_map_of_mem h)
  unfold nextRouteSeq
  omega

theorem lexKey_lt {t t' n n' : ℤ} (ht : t ≤ t') (hn : n < n') :
    (toLex (t, n) : ℤ ×ₗ ℤ) < toLex (t', n') := by
  rw [Prod.Lex.toLex_lt_toLex]
  rcases lt_or_eq_of_le ht with earlier | same
  · exact .inl earlier
  · exact .inr ⟨same, hn⟩

/-- A route row written now with the next `seq` is newer than every created row. -/
theorem createdKey_lt_next {tables : Tables} {chunkId : ChunkId} {row : RouteCreatedRow} {now : Instant}
    (h : row ∈ createdRows tables chunkId) (clock : row.createdAt ≤ now) :
    createdKey row < toLex (now, nextRouteSeq tables chunkId) :=
  lexKey_lt clock (createdSeq_lt_nextRouteSeq h)

theorem releasedKey_lt_next {tables : Tables} {chunkId : ChunkId} {row : RouteReleasedRow} {now : Instant}
    (h : row ∈ releasedRows tables chunkId) (clock : row.releasedAt ≤ now) :
    releasedKey row < toLex (now, nextRouteSeq tables chunkId) :=
  lexKey_lt clock (releasedSeq_lt_nextRouteSeq h)

private theorem newest_single (fact : RouteCreatedFact) (released : List RouteReleasedFact) :
    ({ created := [fact], released := released } : RouteHistory).newest =
      if released.any fun rel => decide (fact.key < rel.key) then none else some fact := by
  simp [RouteHistory.newest]

private theorem releasedFact_any_toList (last : Option RouteReleasedRow) (bound : ℤ ×ₗ ℤ) :
    ((last.map releasedFact).toList.any fun rel => decide (bound < rel.key)) =
      last.any fun row => decide (bound < releasedKey row) := by
  cases last with
  | none => rfl
  | some row => exact Bool.or_false _

/-- A live route's row is the chunk's newest created row, and no release row is later. -/
theorem routeOf_eq_some {tables : Tables} {chunkId : ChunkId} {route : Route}
    (h : routeOf tables chunkId = some route) :
    ∃ row, (unbeaten createdKey (createdRows tables chunkId)).getLast? = some row ∧
      route.runnerId = row.runnerId ∧ route.routeId = row.routeId ∧
      ∀ rel ∈ releasedRows tables chunkId, ¬ createdKey row < releasedKey rel := by
  unfold routeOf at h
  cases found : (unbeaten createdKey (createdRows tables chunkId)).getLast? with
  | none => simp [found] at h
  | some row =>
    simp only [found, newest_single, releasedFact_any_toList] at h
    refine ⟨row, rfl, ?_⟩
    rw [show (fun rel : RouteReleasedRow => decide ((createdFact row).key < releasedKey rel)) =
      fun rel => decide (createdKey row < releasedKey rel) from rfl,
      unbeaten_getLast?_any_lt] at h
    split at h
    · cases h
    · rename_i live
      split at live
      · cases live
      · rename_i open_
        obtain rfl := Option.some.inj h
        refine ⟨rfl, rfl, fun rel hrel hlt => open_ ?_⟩
        exact List.any_eq_true.mpr ⟨rel, hrel, decide_eq_true hlt⟩

/-- The last created row holds the live route when no release is later. -/
theorem routeOf_of_last {tables : Tables} {chunkId : ChunkId} {row : RouteCreatedRow}
    (last : (unbeaten createdKey (createdRows tables chunkId)).getLast? = some row)
    (live : ∀ rel ∈ releasedRows tables chunkId, ¬ createdKey row < releasedKey rel) :
    ∃ route, routeOf tables chunkId = some route ∧ route.runnerId = row.runnerId ∧
      route.routeId = row.routeId := by
  have quiet : (releasedRows tables chunkId).any
      (fun rel => decide (createdKey row < releasedKey rel)) = false := by
    simpa using live
  unfold routeOf
  simp only [last, newest_single, releasedFact_any_toList]
  rw [show (fun rel : RouteReleasedRow => decide ((createdFact row).key < releasedKey rel)) =
    fun rel => decide (createdKey row < releasedKey rel) from rfl,
    unbeaten_getLast?_any_lt, quiet]
  exact ⟨_, rfl, rfl, rfl⟩

theorem routeOf_of_newest {tables : Tables} {chunkId : ChunkId} {row : RouteCreatedRow}
    (newest : Newest createdKey (createdRows tables chunkId) row)
    (live : ∀ rel ∈ releasedRows tables chunkId, ¬ createdKey row < releasedKey rel) :
    ∃ route, routeOf tables chunkId = some route ∧ route.runnerId = row.runnerId ∧
      route.routeId = row.routeId :=
  routeOf_of_last newest.unbeaten_getLast? live

/-- A live route is held by the runner of the newest created row. -/
theorem routeOf_runner_of_newest {tables : Tables} {chunkId : ChunkId} {row : RouteCreatedRow}
    {route : Route} (newest : Newest createdKey (createdRows tables chunkId) row)
    (h : routeOf tables chunkId = some route) : route.runnerId = row.runnerId := by
  obtain ⟨last, hlast, hrunner, -⟩ := routeOf_eq_some h
  rw [newest.unbeaten_getLast?] at hlast
  rw [hrunner, ← Option.some.inj hlast]

theorem argmax_map_createdFact (rows : List RouteCreatedRow) :
    (rows.map createdFact).argmax RouteCreatedFact.key =
      (rows.argmax createdKey).map createdFact := by
  induction rows using List.reverseRecOn with
  | nil => rfl
  | append_singleton rows row ih =>
    rw [List.map_append, List.map_singleton, List.argmax_concat, List.argmax_concat, ih]
    cases rows.argmax createdKey with
    | none => rfl
    | some best =>
      simp only [Option.map_some]
      by_cases newer : createdKey best < createdKey row
      · rw [if_pos newer]
        exact if_pos newer
      · rw [if_neg newer]
        exact if_neg newer

/-- The SQL reader finds a live route exactly when the fold over all route facts does. -/
theorem routeOf_isSome_eq (tables : Tables) (chunkId : ChunkId) :
    (routeOf tables chunkId).isSome = (routeHistory tables chunkId).newest.isSome := by
  have same : ((unbeaten createdKey (createdRows tables chunkId)).getLast?).map createdKey =
      ((createdRows tables chunkId).argmax createdKey).map createdKey := unbeaten_getLast?_map_key
  have quiet (bound : ℤ ×ₗ ℤ) : (((releasedRows tables chunkId).map releasedFact).any
      fun rel => decide (bound < rel.key)) =
        (releasedRows tables chunkId).any fun rel => decide (bound < releasedKey rel) := by
    rw [List.any_map]
    rfl
  unfold routeOf RouteHistory.newest routeHistory
  simp only [argmax_map_createdFact]
  cases last : (unbeaten createdKey (createdRows tables chunkId)).getLast? with
  | none =>
    rw [last] at same
    have empty : (createdRows tables chunkId).argmax createdKey = none := by simpa using same.symm
    simp [empty]
  | some row =>
    rw [last] at same
    cases best : (createdRows tables chunkId).argmax createdKey with
    | none => simp [best] at same
    | some newest =>
      have key : (createdFact newest).key = createdKey row := by
        have keys : createdKey newest = createdKey row := by simpa [best] using same.symm
        exact keys
      simp only [List.argmax_singleton, Option.map_some, releasedFact_any_toList, key, quiet]
      rw [show (createdFact row).key = createdKey row from rfl, unbeaten_getLast?_any_lt]
      cases (releasedRows tables chunkId).any fun rel => decide (createdKey row < releasedKey rel)
        <;> rfl

end Blizzard.RouteLiveness
