import Blizzard.CloseIntents
import Blizzard.ExceptRules

/-! # What a close write keeps

Every write leaves the intents in their places, a retired one as it was, and
every closure; none leaves an intent pending against a terminal outcome, and
none announces an outcome it does not record. -/
namespace Blizzard.CloseAccounts
open HubTables FactLoading UniqueRows EpochFence FencedWrites CloseIntents ExceptRules

variable {store after : CloseStore} {chunkId : ChunkId} {ref pointer : WorkRef} {at_ : Instant}

/-- What a later state keeps of an earlier one. -/
structure Follows (store after : CloseStore) : Prop where
  intents : ∀ (i : ℕ) row, store.intents.rows[i]? = some row → ∃ row', after.intents.rows[i]? =
    some row' ∧ row'.key = row.key ∧ (row.retiredAt ≠ none → row' = row)
  closures : ∀ row ∈ store.closures.rows, row ∈ after.closures.rows

theorem Follows.refl (store : CloseStore) : Follows store store :=
  ⟨fun _ row found => ⟨row, found, rfl, fun _ => rfl⟩, fun _ mem => mem⟩

theorem Follows.trans {last : CloseStore} (first : Follows store after)
    (second : Follows after last) : Follows store last where
  intents i row found := by
    obtain ⟨row', found', same, kept⟩ := first.intents i row found
    obtain ⟨row'', found'', same', kept'⟩ := second.intents i row' found'
    refine ⟨row'', found'', same'.trans same, fun retired => ?_⟩
    obtain rfl := kept retired
    exact kept' retired
  closures row mem := second.closures row (first.closures row mem)

/-- A write that leaves both close tables alone. -/
theorem follows_of_same (intents : after.intents = store.intents)
    (closures : after.closures = store.closures) : Follows store after where
  intents i row found := ⟨row, by rw [intents]; exact found, rfl, fun _ => rfl⟩
  closures row mem := by rw [closures]; exact mem

theorem retired_of_retired {key : ChunkId × WorkRef} {row : CloseIntentRow}
    (already : row.retiredAt ≠ none) : retired key at_ row = row :=
  if_neg fun pending => already pending.2

theorem follows_retirePending (store : CloseStore) (chunkId : ChunkId) (ref : WorkRef)
    (at_ : Instant) : Follows store (retirePending store chunkId ref at_) where
  intents i row found := by
    refine ⟨retired (chunkId, ref) at_ row, ?_, retired_key _ _ _, retired_of_retired⟩
    rw [retirePending, UniqueTable.update_getElem?, found]
    rfl
  closures _ mem := mem

theorem follows_insertClosure {row : ClosureRow} {closures : UniqueTable ClosureRow.key}
    (inserted : store.closures.insert row = some closures) :
    Follows store { store with closures } where
  intents _ row found := ⟨row, found, rfl, fun _ => rfl⟩
  closures _ mem := (UniqueTable.mem_insert inserted).mpr (.inl mem)

/-! ## Accounted refs -/

/-- The ref has an intent, retired or not, or a terminal closure. -/
def Accounted (store : CloseStore) (chunkId : ChunkId) (ref : WorkRef) : Prop :=
  ref ∈ intentRefs store chunkId ∨ ref ∈ terminalRefs store chunkId

theorem mem_intentRefs : ref ∈ intentRefs store chunkId ↔
    ∃ row ∈ store.intents.rows, row.key = (chunkId, ref) := by
  simp only [intentRefs, List.mem_map, List.mem_filter, decide_eq_true_eq, CloseIntentRow.key,
    Prod.mk.injEq, and_assoc]

theorem mem_terminalRefs : ref ∈ terminalRefs store chunkId ↔
    ∃ row ∈ store.closures.rows, row.chunkId = chunkId ∧ row.ref = ref ∧
      row.outcome.terminal = true := by
  simp only [terminalRefs, List.mem_map, List.mem_filter, Bool.and_eq_true, decide_eq_true_eq]
  constructor
  · rintro ⟨row, ⟨mem, same, terminal⟩, named⟩
    exact ⟨row, mem, same, named, terminal⟩
  · rintro ⟨row, mem, same, named, terminal⟩
    exact ⟨row, ⟨mem, same, terminal⟩, named⟩

theorem Accounted.mono (follows : Follows store after) (accounted : Accounted store chunkId ref) :
    Accounted after chunkId ref := by
  rcases accounted with intent | closure
  · obtain ⟨row, mem, same⟩ := mem_intentRefs.mp intent
    obtain ⟨i, found⟩ := List.mem_iff_getElem?.mp mem
    obtain ⟨row', found', same', -⟩ := follows.intents i row found
    exact .inl (mem_intentRefs.mpr ⟨row', List.mem_of_getElem? found', same'.trans same⟩)
  · obtain ⟨row, mem, is⟩ := mem_terminalRefs.mp closure
    exact .inr (mem_terminalRefs.mpr ⟨row, follows.closures row mem, is⟩)

/-! ## Settled intents -/

/-- No intent is pending where a terminal outcome is recorded. -/
def Settled (store : CloseStore) : Prop :=
  ∀ closure ∈ store.closures.rows, closure.outcome.terminal = true →
    ∀ intent ∈ store.intents.rows, intent.key = (closure.chunkId, closure.ref) →
      intent.retiredAt ≠ none

theorem settled_of_same (intents : after.intents = store.intents)
    (closures : after.closures = store.closures) (settled : Settled store) : Settled after := by
  rw [Settled, intents, closures]
  exact settled

theorem mem_retirePending {row : CloseIntentRow} :
    row ∈ (retirePending store chunkId ref at_).intents.rows ↔
      ∃ before ∈ store.intents.rows, retired (chunkId, ref) at_ before = row := List.mem_map

theorem retirePending_retired {row : CloseIntentRow}
    (mem : row ∈ (retirePending store chunkId ref at_).intents.rows)
    (own : row.key = (chunkId, ref)) : row.retiredAt ≠ none := by
  obtain ⟨before, -, rfl⟩ := mem_retirePending.mp mem
  rw [retired_key] at own
  rw [retired]
  split
  · exact Option.some_ne_none at_
  · rename_i held
    exact fun pending => held ⟨own, pending⟩

theorem settled_retirePending (settled : Settled store) :
    Settled (retirePending store chunkId ref at_) := by
  intro closure recorded terminal intent mem same
  obtain ⟨before, held, rfl⟩ := mem_retirePending.mp mem
  rw [retired_key] at same
  have already := settled closure recorded terminal before held same
  rw [retired_of_retired already]
  exact already

/-- A terminal closure written with its intent retired leaves none pending. -/
theorem settled_close {row : ClosureRow} {closures : UniqueTable ClosureRow.key}
    (inserted : store.closures.insert row = some closures) (settled : Settled store) :
    Settled (retirePending { store with closures } row.chunkId row.ref at_) := by
  intro closure recorded terminal intent mem same
  rcases (UniqueTable.mem_insert inserted).mp recorded with held | rfl
  · have kept : Settled (retirePending store row.chunkId row.ref at_) := settled_retirePending settled
    exact kept closure held terminal intent mem same
  · exact retirePending_retired mem same

/-! ## Announcements -/

def announced (store : CloseStore) (key : ClosureKey) : ℕ :=
  (store.events.map (·.announces)).count key

def recorded (store : CloseStore) (key : ClosureKey) : ℕ :=
  (store.closures.rows.map ClosureRow.key).count key

/-- Of each outcome, the announcements made and those still to make are no more than its closures. -/
def Balanced (pending : ClosureKey → ℕ) (store : CloseStore) : Prop :=
  ∀ key, announced store key + pending key ≤ recorded store key

theorem recorded_le_one (store : CloseStore) (key : ClosureKey) : recorded store key ≤ 1 :=
  List.nodup_iff_count_le_one.mp store.closures.distinct key

theorem recorded_insert {row : ClosureRow} {closures : UniqueTable ClosureRow.key}
    (inserted : store.closures.insert row = some closures) (key : ClosureKey) :
    recorded { store with closures } key =
      recorded store key + if row.key = key then 1 else 0 := by
  rw [recorded, (UniqueTable.insert_some inserted).2, List.map_append, List.map_singleton,
    List.count_append, List.count_singleton, recorded]
  simp only [beq_iff_eq]

theorem balanced_of_same {pending : ClosureKey → ℕ} (events : after.events = store.events)
    (closures : after.closures = store.closures) (balanced : Balanced pending store) :
    Balanced pending after := by
  intro key
  rw [announced, recorded, events, closures]
  exact balanced key

theorem announced_append (store : CloseStore) (event : EventRow) (key : ClosureKey) :
    announced { store with events := store.events ++ [event] } key =
      announced store key + if event.announces = key then 1 else 0 := by
  rw [announced, List.map_append, List.map_singleton, List.count_append, List.count_singleton,
    announced]
  simp only [beq_iff_eq]

/-! ## Enqueueing -/

/-- What enqueueing one ref keeps, over whatever announcements are still to make. -/
structure Enqueued (store after : CloseStore) : Prop where
  follows : Follows store after
  refs : after.workRefs = store.workRefs
  tables : after.tables = store.tables
  balanced : ∀ pending, Balanced pending store → Balanced pending after

theorem Enqueued.refl (store : CloseStore) : Enqueued store store :=
  ⟨.refl store, rfl, rfl, fun _ balanced => balanced⟩

theorem Enqueued.trans {last : CloseStore} (first : Enqueued store after)
    (second : Enqueued after last) : Enqueued store last where
  follows := first.follows.trans second.follows
  refs := second.refs.trans first.refs
  tables := second.tables.trans first.tables
  balanced pending balanced := second.balanced pending (first.balanced pending balanced)

theorem skipRef_ok (ok : skipRef store chunkId at_ ref = .ok after) :
    ∃ closures, store.closures.insert ⟨chunkId, ref, .skipped, some noCloserReason, at_⟩ =
        some closures ∧
      after = { retirePending { store with closures } chunkId ref at_ with
        events := store.events ++ [skipEvent chunkId ref at_] } := by
  rw [skipRef] at ok
  split at ok
  · cases ok
  · rename_i closures inserted
    exact ⟨closures, inserted, (Except.ok.inj ok).symm⟩

theorem insertIntent_ok (ok : insertIntent store chunkId at_ ref = .ok after) :
    ∃ intents, store.intents.insert ⟨chunkId, ref, at_, none⟩ = some intents ∧
      after = { store with intents } := by
  rw [insertIntent] at ok
  split at ok
  · cases ok
  · rename_i intents inserted
    exact ⟨intents, inserted, (Except.ok.inj ok).symm⟩

theorem enqueued_skipRef (ok : skipRef store chunkId at_ ref = .ok after) :
    Enqueued store after := by
  obtain ⟨closures, inserted, rfl⟩ := skipRef_ok ok
  refine ⟨?_, rfl, rfl, ?_⟩
  · exact ((follows_insertClosure inserted).trans (follows_retirePending _ _ _ _)).trans
      (follows_of_same rfl rfl)
  · intro pending balanced key
    have before := balanced key
    have more := recorded_insert inserted key
    have told := announced_append store (skipEvent chunkId ref at_) key
    show announced { store with events := store.events ++ [skipEvent chunkId ref at_] } key +
      pending key ≤ recorded { store with closures } key
    rw [more, told]
    show announced store key + (if (chunkId, ref, .skipped) = key then 1 else 0) + pending key ≤
      recorded store key + if (chunkId, ref, .skipped) = key then 1 else 0
    omega

theorem enqueued_insertIntent (ok : insertIntent store chunkId at_ ref = .ok after) :
    Enqueued store after := by
  obtain ⟨intents, inserted, rfl⟩ := insertIntent_ok ok
  refine ⟨⟨?_, fun _ mem => mem⟩, rfl, rfl, fun _ balanced => balanced⟩
  intro i row found
  exact ⟨row, UniqueTable.insert_getElem? inserted found, rfl, fun _ => rfl⟩

variable {decision : CloseEnqueueDecision} {terminal already : List WorkRef}

theorem enqueued_enqueueRef
    (ok : enqueueRef chunkId at_ decision terminal already store ref = .ok after) :
    Enqueued store after := by
  rw [enqueueRef] at ok
  split at ok
  · exact Except.ok.inj ok ▸ .refl store
  · split at ok
    · exact enqueued_skipRef ok
    · split at ok
      · exact Except.ok.inj ok ▸ .refl store
      · exact enqueued_insertIntent ok

/-- What the refs' loop has met: the reads taken before it stand, and a terminal outcome is one of
those or one the decision skips. -/
structure Looping (chunkId : ChunkId) (decision : CloseEnqueueDecision)
    (terminal already : List WorkRef) (store : CloseStore) : Prop where
  outcomes : ∀ ref ∈ terminal, ref ∈ terminalRefs store chunkId
  intents : ∀ ref ∈ already, ref ∈ intentRefs store chunkId
  closed : ∀ ref ∈ terminalRefs store chunkId, ref ∈ terminal ∨ ref ∈ decision.skipped
  settled : Settled store

theorem looping_start (settled : Settled store) : Looping chunkId decision
    (terminalRefs store chunkId) (intentRefs store chunkId) store :=
  ⟨fun _ mem => mem, fun _ mem => mem, fun _ mem => .inl mem, settled⟩

theorem looping_skipRef (looping : Looping chunkId decision terminal already store)
    (skips : ref ∈ decision.skipped) (ok : skipRef store chunkId at_ ref = .ok after) :
    Looping chunkId decision terminal already after := by
  have follows := (enqueued_skipRef ok).follows
  obtain ⟨closures, inserted, rfl⟩ := skipRef_ok ok
  refine ⟨?_, ?_, ?_, ?_⟩
  · intro other mem
    obtain ⟨row, held, is⟩ := mem_terminalRefs.mp (looping.outcomes other mem)
    exact mem_terminalRefs.mpr ⟨row, follows.closures row held, is⟩
  · intro other mem
    obtain ⟨row, held, same⟩ := mem_intentRefs.mp (looping.intents other mem)
    obtain ⟨i, found⟩ := List.mem_iff_getElem?.mp held
    obtain ⟨row', found', same', -⟩ := follows.intents i row found
    exact mem_intentRefs.mpr ⟨row', List.mem_of_getElem? found', same'.trans same⟩
  · intro other mem
    obtain ⟨row, held, ofChunk, named, is⟩ := mem_terminalRefs.mp mem
    rcases (UniqueTable.mem_insert inserted).mp held with before | rfl
    · exact looping.closed other (mem_terminalRefs.mpr ⟨row, before, ofChunk, named, is⟩)
    · exact .inr (named ▸ skips)
  · exact settled_of_same rfl rfl (settled_close inserted looping.settled)

theorem looping_insertIntent (looping : Looping chunkId decision terminal already store)
    (open_ : ref ∉ terminal) (kept : ref ∉ decision.skipped)
    (ok : insertIntent store chunkId at_ ref = .ok after) :
    Looping chunkId decision terminal already after := by
  obtain ⟨intents, inserted, rfl⟩ := insertIntent_ok ok
  refine ⟨looping.outcomes, ?_, looping.closed, ?_⟩
  · intro other mem
    obtain ⟨row, held, same⟩ := mem_intentRefs.mp (looping.intents other mem)
    exact mem_intentRefs.mpr ⟨row, (UniqueTable.mem_insert inserted).mpr (.inl held), same⟩
  · intro closure recorded is intent mem same
    rcases (UniqueTable.mem_insert inserted).mp mem with held | rfl
    · exact looping.settled closure recorded is intent held same
    · obtain ⟨ofChunk, named⟩ := Prod.mk.inj same
      have closed := looping.closed ref
        (mem_terminalRefs.mpr ⟨closure, recorded, ofChunk.symm, named.symm, is⟩)
      exact (closed.elim open_ kept).elim

theorem looping_enqueueRef (looping : Looping chunkId decision terminal already store)
    (ok : enqueueRef chunkId at_ decision terminal already store ref = .ok after) :
    Looping chunkId decision terminal already after ∧ Accounted after chunkId ref := by
  rw [enqueueRef] at ok
  split at ok
  · rename_i closed
    obtain rfl := Except.ok.inj ok
    exact ⟨looping, .inr (looping.outcomes ref closed)⟩
  · rename_i open_
    split at ok
    · rename_i skips
      refine ⟨looping_skipRef looping skips ok, .inr ?_⟩
      obtain ⟨closures, inserted, rfl⟩ := skipRef_ok ok
      exact mem_terminalRefs.mpr ⟨_, (UniqueTable.mem_insert inserted).mpr (.inr rfl), rfl, rfl, rfl⟩
    · rename_i kept
      split at ok
      · rename_i held
        obtain rfl := Except.ok.inj ok
        exact ⟨looping, .inl (looping.intents ref held)⟩
      · refine ⟨looping_insertIntent looping open_ kept ok, .inl ?_⟩
        obtain ⟨intents, inserted, rfl⟩ := insertIntent_ok ok
        exact mem_intentRefs.mpr ⟨_, (UniqueTable.mem_insert inserted).mpr (.inr rfl), rfl⟩

/-- The loop over a chunk's refs accounts for each of them. -/
theorem looping_refs {refs : List WorkRef}
    (looping : Looping chunkId decision terminal already store)
    (ok : refs.foldlM (enqueueRef chunkId at_ decision terminal already) store = .ok after) :
    Looping chunkId decision terminal already after ∧ Enqueued store after ∧
      ∀ ref ∈ refs, Accounted after chunkId ref := by
  induction refs generalizing store with
  | nil =>
    obtain rfl := Except.ok.inj ok
    exact ⟨looping, .refl store, by simp⟩
  | cons first rest ih =>
    rw [List.foldlM_cons] at ok
    obtain ⟨next, one, others⟩ := bind_ok ok
    obtain ⟨looping', accounted⟩ := looping_enqueueRef looping one
    obtain ⟨looped, enqueued, every⟩ := ih looping' others
    refine ⟨looped, (enqueued_enqueueRef one).trans enqueued, ?_⟩
    intro ref mem
    rcases List.mem_cons.mp mem with rfl | later
    · exact accounted.mono enqueued.follows
    · exact every ref later

theorem enqueue_spec (settled : Settled store)
    (ok : enqueueCloseIntents store chunkId at_ decision = .ok after) :
    Settled after ∧ Enqueued store after ∧ (isEphemeralId store.tables chunkId = false →
      ∀ ref ∈ workRefsOf store chunkId, Accounted after chunkId ref) := by
  rw [enqueueCloseIntents] at ok
  split at ok
  · rename_i ephemeral
    obtain rfl := Except.ok.inj ok
    exact ⟨settled, .refl store, fun live => absurd ephemeral (by simp [live])⟩
  · split at ok
    · rename_i none_
      obtain rfl := Except.ok.inj ok
      exact ⟨settled, .refl store, fun _ => by simp [none_]⟩
    · split at ok
      · cases ok
      · obtain ⟨looped, enqueued, every⟩ := looping_refs (looping_start settled) ok
        exact ⟨looped.settled, enqueued, fun _ => every⟩

/-! ## Landing writes -/

/-- The write leaves alone which chunks are grouped away or deleted. -/
def SameLife (tables after : Tables) : Prop :=
  after.chunkGrouped = tables.chunkGrouped ∧ after.chunkDeleted = tables.chunkDeleted

theorem SameLife.ephemeral {tables after : Tables} (same : SameLife tables after) (id : ChunkId) :
    isEphemeralId after id = isEphemeralId tables id := by
  rw [isEphemeralId, isEphemeralId, same.1, same.2]

theorem sameLife_artifacts (tables : Tables) (artifacts : List StoredArtifact) (now : Instant) :
    SameLife tables (insertArtifacts tables artifacts now) := by
  induction artifacts generalizing tables with
  | nil => exact ⟨rfl, rfl⟩
  | cons row rows ih => exact ih (insertArtifact now tables row)

theorem sameLife_hubLease (tables : Tables) (id : ChunkId) (epoch : ℤ) (runnerId : RunnerId)
    (now : Instant) : SameLife tables (recordHubLease tables id epoch runnerId now) := by
  rw [recordHubLease, recordEpochOwner]
  split <;> exact ⟨rfl, rfl⟩

theorem sameLife_release (release : Bool) (tables : Tables) (id : ChunkId) (now : Instant) :
    SameLife tables (releaseRouteIf release tables id now) := by
  rw [releaseRouteIf]
  split <;> exact ⟨rfl, rfl⟩

theorem SameLife.trans {tables mid after : Tables} (first : SameLife tables mid)
    (second : SameLife mid after) : SameLife tables after :=
  ⟨second.1.trans first.1, second.2.trans first.2⟩

theorem sameLife_transition (tables : Tables) (w : TransitionWrite) (now : Instant) :
    SameLife tables (recordTransitionConn tables w now).1 := by
  rw [recordTransitionConn]
  split
  · exact ⟨rfl, rfl⟩
  · split
    · exact ⟨rfl, rfl⟩
    · rename_i graphId _
      exact sameLife_artifacts (insertTransition tables w graphId now) w.artifacts now

theorem sameLife_migration (tables : Tables) (w : MigrationWrite) (now : Instant) :
    SameLife tables (recordMigrationConn tables w now).1 := by
  rw [recordMigrationConn]
  split
  · exact ⟨rfl, rfl⟩
  · split
    · exact ⟨rfl, rfl⟩
    · exact (sameLife_release w.releaseRoute (insertMigration tables w now) w.chunkId now).trans
        (sameLife_artifacts _ w.artifacts now)

theorem sameLife_decision (tables : Tables) (w : DecisionWrite) (now : Instant) :
    SameLife tables (recordDecisionConn tables w now).1 := by
  rw [recordDecisionConn]
  split
  · exact ⟨rfl, rfl⟩
  · split
    · exact ⟨rfl, rfl⟩
    · rename_i projectId _
      exact sameLife_artifacts (insertDecision tables w projectId now) w.artifacts now

theorem sameLife_hubStep (tables : Tables) (w : TransitionWrite) (release : Bool) (now : Instant) :
    SameLife tables (transitionConn tables w release now).1 := by
  rw [transitionConn]
  split
  · exact ⟨rfl, rfl⟩
  · split
    · exact ⟨rfl, rfl⟩
    · split
      · exact ⟨rfl, rfl⟩
      · rename_i graphId _
        have leased := sameLife_hubLease tables w.chunkId w.epoch w.runnerId now
        have moved := sameLife_artifacts (insertTransition
          (recordHubLease tables w.chunkId w.epoch w.runnerId now) { w with decisionId := none }
          graphId now) w.artifacts now
        exact (leased.trans moved).trans (sameLife_release release _ w.chunkId now)

theorem sameLife_finalize (tables : Tables) (w : TransitionWrite) (now : Instant) :
    SameLife tables (finalizeDelivery tables w now).1 := by
  rw [finalizeDelivery]
  split
  · exact ⟨rfl, rfl⟩
  · split
    · exact ⟨rfl, rfl⟩
    · exact (sameLife_hubLease tables w.chunkId w.epoch w.runnerId now)

theorem sameLife_record (write : LandingWrite) (tables : Tables) (now : Instant) :
    SameLife tables (write.record tables now).1 := by
  cases write with
  | transition w => exact sameLife_transition tables w now
  | migration w => exact sameLife_migration tables w now
  | decision w => exact sameLife_decision tables w now
  | decisionLocked w =>
    rw [LandingWrite.record, recordDecisionLocked]
    split
    · exact ⟨rfl, rfl⟩
    · exact sameLife_decision tables w now
  | hubStep w release => exact sameLife_hubStep tables w release now
  | hubArtifact artifact admission =>
    rw [LandingWrite.record, recordHubArtifact]
    split
    · exact ⟨rfl, rfl⟩
    · split <;> exact ⟨rfl, rfl⟩
  | repoLanding landing =>
    rw [LandingWrite.record, writeLandingRows]
    split <;> exact ⟨rfl, rfl⟩
  | deliveryLanded id => exact ⟨rfl, rfl⟩
  | finalize w => exact sameLife_finalize tables w now
  | completion id by_ => exact sameLife_release _ (insertCompleted tables id by_ now) id now

/-- What every write of the close tables keeps. -/
structure Kept (store after : CloseStore) : Prop where
  follows : Follows store after
  settled : Settled store → Settled after
  balanced : ∀ pending, Balanced pending store → Balanced pending after

theorem Kept.refl (store : CloseStore) : Kept store store :=
  ⟨.refl store, fun settled => settled, fun _ balanced => balanced⟩

/-- A write beside the close tables. -/
theorem kept_of_same (intents : after.intents = store.intents)
    (closures : after.closures = store.closures) (events : after.events = store.events) :
    Kept store after :=
  ⟨follows_of_same intents closures, settled_of_same intents closures,
    fun _ => balanced_of_same events closures⟩

variable {write : LandingWrite} {outcome : WriteOutcome} {now : Instant}

/-- A landing write, recorded or not, over a store whose intents are settled. -/
theorem land_spec (settled : Settled store)
    (ok : land store write decision now = .ok (after, outcome)) :
    Kept store after ∧ (outcome = .recorded → write.lands = true →
      isEphemeralId store.tables write.chunkId = false →
        ∀ ref ∈ workRefsOf store write.chunkId, Accounted after write.chunkId ref) := by
  have life := sameLife_record write store.tables now
  simp only [land] at ok
  split at ok
  · split at ok
    · rename_i lands
      obtain ⟨enqueued, done, same⟩ := map_ok ok
      obtain ⟨rfl, rfl⟩ := Prod.mk.inj same
      have start : Settled { store with
          tables := (write.record store.tables now).1
          repoLanded := store.repoLanded ++ write.landedRepos now } :=
        settled_of_same rfl rfl settled
      obtain ⟨settled', kept, every⟩ := enqueue_spec start done
      refine ⟨⟨⟨?_, kept.follows.closures⟩, fun _ => settled', kept.balanced⟩, ?_⟩
      · exact kept.follows.intents
      · intro _ _ live
        exact every ((life.ephemeral _).trans live)
    · rename_i stays
      obtain ⟨rfl, rfl⟩ := Prod.mk.inj (Except.ok.inj ok)
      exact ⟨kept_of_same rfl rfl rfl, fun _ lands => absurd lands stays⟩
  · rename_i refused
    obtain ⟨rfl, rfl⟩ := Prod.mk.inj (Except.ok.inj ok)
    exact ⟨kept_of_same rfl rfl rfl, fun is => absurd is refused⟩

/-! ## Recorded outcomes -/

section Recording
variable {closing : WorkItemCloseOutcome} {reason : Option String}

theorem kept_retirePending : Kept store (retirePending store chunkId ref at_) :=
  ⟨follows_retirePending store chunkId ref at_, settled_retirePending, fun _ balanced => balanced⟩

theorem kept_tickBackoff : Kept store (tickBackoff store chunkId ref at_) := by
  rw [tickBackoff]
  split
  · exact .refl store
  · exact kept_of_same rfl rfl rfl

/-- What recording an outcome does: the closure is written unless it stands. -/
theorem record_cases (store : CloseStore) (chunkId : ChunkId) (pointer : WorkRef)
    (closing : WorkItemCloseOutcome) (reason : Option String) (at_ : Instant) :
    (store.closures.insert ⟨chunkId, pointer, closing, reason, at_⟩ = none ∧
        recordWorkItemClosure store chunkId pointer closing reason at_ =
          (if closing.terminal then retirePending store chunkId pointer at_
            else tickBackoff store chunkId pointer at_, false)) ∨
      ∃ closures, store.closures.insert ⟨chunkId, pointer, closing, reason, at_⟩ = some closures ∧
        recordWorkItemClosure store chunkId pointer closing reason at_ =
          (if closing.terminal then retirePending { store with closures } chunkId pointer at_
            else tickBackoff { store with closures } chunkId pointer at_, true) := by
  cases inserted : store.closures.insert ⟨chunkId, pointer, closing, reason, at_⟩ with
  | none =>
    refine .inl ⟨rfl, ?_⟩
    simp only [recordWorkItemClosure, inserted]
    split <;> rfl
  | some closures =>
    refine .inr ⟨closures, rfl, ?_⟩
    simp only [recordWorkItemClosure, inserted]
    split <;> rfl

/-- A terminal closure is written with its intent retired; a failed one ticks the backoff. -/
theorem settled_record (settled : Settled store) :
    Settled (recordWorkItemClosure store chunkId pointer closing reason at_).1 := by
  rcases record_cases store chunkId pointer closing reason at_ with
    ⟨-, is⟩ | ⟨closures, inserted, is⟩
  · rw [is]
    show Settled (if closing.terminal then _ else _)
    split
    · exact settled_retirePending settled
    · exact kept_tickBackoff.settled settled
  · rw [is]
    show Settled (if closing.terminal then _ else _)
    split
    · exact settled_close inserted settled
    · rename_i retried
      refine kept_tickBackoff.settled ?_
      intro closure recorded terminal intent mem same
      rcases (UniqueTable.mem_insert inserted).mp recorded with held | rfl
      · exact settled closure held terminal intent mem same
      · exact absurd terminal retried

theorem follows_record :
    Follows store (recordWorkItemClosure store chunkId pointer closing reason at_).1 := by
  rcases record_cases store chunkId pointer closing reason at_ with
    ⟨-, is⟩ | ⟨closures, inserted, is⟩
  · rw [is]
    show Follows store (if closing.terminal then _ else _)
    split
    · exact kept_retirePending.follows
    · exact kept_tickBackoff.follows
  · rw [is]
    have first := follows_insertClosure inserted
    show Follows store (if closing.terminal then _ else _)
    split
    · exact first.trans kept_retirePending.follows
    · exact first.trans kept_tickBackoff.follows

/-- A written closure is one announcement still to make. -/
theorem balanced_record {pending : ClosureKey → ℕ} (balanced : Balanced pending store) :
    Balanced (fun key => pending key +
      if (recordWorkItemClosure store chunkId pointer closing reason at_).2 = true ∧
        (chunkId, pointer, closing) = key then 1 else 0)
      (recordWorkItemClosure store chunkId pointer closing reason at_).1 := by
  rcases record_cases store chunkId pointer closing reason at_ with
    ⟨-, is⟩ | ⟨closures, inserted, is⟩
  · rw [is]
    have same : Balanced pending (if closing.terminal then retirePending store chunkId pointer at_
        else tickBackoff store chunkId pointer at_) := by
      split
      · exact kept_retirePending.balanced pending balanced
      · exact kept_tickBackoff.balanced pending balanced
    simpa using same
  · rw [is]
    have wrote : Balanced (fun key => pending key + if (chunkId, pointer, closing) = key then 1 else 0)
        { store with closures } := by
      intro key
      have more := recorded_insert inserted key
      have before := balanced key
      rw [more]
      show announced store key + (pending key + if (chunkId, pointer, closing) = key then 1 else 0) ≤
        recorded store key + if (chunkId, pointer, closing) = key then 1 else 0
      omega
    have same : Balanced (fun key => pending key + if (chunkId, pointer, closing) = key then 1 else 0)
        (if closing.terminal then retirePending { store with closures } chunkId pointer at_
          else tickBackoff { store with closures } chunkId pointer at_) := by
      split
      · exact kept_retirePending.balanced _ wrote
      · exact kept_tickBackoff.balanced _ wrote
    simpa using same

end Recording

end Blizzard.CloseAccounts
