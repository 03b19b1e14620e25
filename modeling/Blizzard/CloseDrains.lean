import Mathlib.Data.List.Dedup
import Blizzard.FairShare
import Blizzard.CloseBackoff

/-! # The close drain among the writes that feed it

Landing writes, groupings and any number of drain passes take their steps in any
order over the tenants' stores. A pass reads the due intents once and works them
off one by one: it attempts the close, records what it came to, announces it;
it may be cut off between any two of these. -/
namespace Blizzard.CloseDrains
open HubTables FactLoading FairShare UniqueRows FencedWrites CloseIntents CloseAccounts CloseBackoff

/-- What attempting one close came to, `noCloser` where no closer is bound. -/
inductive CloseAttempt
  | noCloser
  | closed
  | gone (reason : String)
  | failed (reason : String)
  | deferred (retryAfter : Instant)
  deriving DecidableEq, Repr

/-- The write a pass has in hand. -/
inductive Stage
  | recording (intent : PendingCloseIntent) (outcome : WorkItemCloseOutcome)
      (reason : Option String) (at_ : Instant)
  | deferring (intent : PendingCloseIntent) (at_ resumeAt : Instant)
  | announcing (event : EventRow)
  deriving DecidableEq, Repr

def CloseAttempt.stage (intent : PendingCloseIntent) (at_ : Instant) : CloseAttempt → Stage
  | noCloser => .recording intent .skipped (some noCloserReason) at_
  | closed => .recording intent .closed none at_
  | gone reason => .recording intent .gone (some reason) at_
  | failed reason => .recording intent .failed (some reason) at_
  | deferred retryAfter => .deferring intent at_ retryAfter

def outcomeValue : WorkItemCloseOutcome → String
  | .closed => "closed"
  | .gone => "gone"
  | .failed => "failed"
  | .skipped => "skipped"

/-- The event an outcome is announced with: its kind, message and detail. -/
def closeEvent (label : String) (outcome : WorkItemCloseOutcome) (reason : Option String) :
    EventKind × String × Option (List (String × Option String)) :=
  let shown := reason.getD "None"
  let detail := some [("outcome", some (outcomeValue outcome)), ("reason", reason)]
  match outcome with
  | .closed => (.workItemClosed, s!"closed {label}", none)
  | .skipped => (.workItemCloseSkipped, s!"skipped closing {label}: {shown}", detail)
  | .gone => (.workItemCloseFailed, s!"failed to close {label}: {shown}", detail)
  | .failed => (.workItemCloseFailed, s!"failed to close {label}: {shown}", detail)

/-- The announcement of a recorded outcome; a skip names its ref itself, by source and ref. -/
def announcement (intent : PendingCloseIntent) (outcome : WorkItemCloseOutcome)
    (reason : Option String) (at_ : Instant) (label : String) : EventRow :=
  let own := s!"{intent.ref.source}#{intent.ref.ref}"
  let skips := decide (outcome = .skipped)
  let (kind, message, detail) := closeEvent (if skips then own else label) outcome reason
  let pointer := [("source", some intent.ref.source), ("ref", some intent.ref.ref)]
  { kind, chunkId := intent.chunkId, message
    detail := if skips then detail.map (· ++ pointer) else detail
    recordedAt := at_, announces := (intent.chunkId, intent.ref, outcome) }

/-- The write in hand made, and what it leaves in hand: an outcome the store had not is announced. -/
def Stage.write (store : CloseStore) (label : String) : Stage → CloseStore × Option Stage
  | recording intent outcome reason at_ =>
    let (after, wrote) :=
      recordWorkItemClosure store intent.chunkId intent.ref outcome reason at_
    (after, if wrote then some (.announcing (announcement intent outcome reason at_ label)) else none)
  | deferring intent at_ resumeAt =>
    (recordCloseAttemptDeferred store intent.intentId at_ resumeAt, none)
  | announcing event => ({ store with events := store.events ++ [event] }, none)

/-- The announcement of the outcome is the write in hand. -/
def Stage.owes (key : ClosureKey) : Stage → Bool
  | announcing event => decide (event.announces = key)
  | _ => false

/-- One drain pass: what it read and has not reached, and the write it has in hand. -/
structure Pass where
  todo : List (TenantId × PendingCloseIntent)
  inHand : Option (TenantId × Stage) := none
  deriving DecidableEq, Repr

namespace Pass

/-- The next intent's close attempted; nothing of it is recorded yet. -/
def attempt (closing : CloseAttempt) (at_ : Instant) (pass : Pass) : Pass :=
  match pass.inHand, pass.todo with
  | none, (tenant, intent) :: rest => ⟨rest, some (tenant, closing.stage intent at_)⟩
  | _, _ => pass

/-- A fault in a tenant, or a tenant closed: the pass goes on with the others. -/
def abandon (tenant : TenantId) (pass : Pass) : Pass where
  todo := pass.todo.filter fun entry => decide (entry.1 ≠ tenant)
  inHand := pass.inHand.filter fun held => decide (held.1 ≠ tenant)

def crash (_ : Pass) : Pass := ⟨[], none⟩

/-- The pass still owes the announcement of the tenant's outcome. -/
def owes (tenant : TenantId) (key : ClosureKey) (pass : Pass) : Bool :=
  pass.inHand.any fun held => decide (held.1 = tenant) && held.2.owes key

end Pass

structure Hub where
  stores : TenantId → CloseStore := fun _ => {}
  passes : List Pass := []
  rotation : ℕ := 0

/-- The intents of one tenant due at the reading, in intent order. -/
def dueIntents (store : CloseStore) (now : Instant) : List PendingCloseIntent :=
  (pendingCloseIntents store).filter (·.isDue now)

namespace Hub
variable (hub : Hub)

def put (tenant : TenantId) (store : CloseStore) : Hub :=
  { hub with stores := Function.update hub.stores tenant store }

def due (open_ : List TenantId) (now : Instant) : Due PendingCloseIntent where
  tenants := open_.dedup.filter fun tenant => !(dueIntents (hub.stores tenant) now).isEmpty
  items := fun tenant => if tenant ∈ open_ then dueIntents (hub.stores tenant) now else []
  nodup := (List.nodup_dedup open_).filter _

/-- A hub-wide pass: every open tenant's fair share of the limit. -/
def sweep (open_ : List TenantId) (now : Instant) : Hub :=
  let due := hub.due open_ now
  let share := (fairShare due closeDrainPassLimit hub.rotation).getD fun _ => []
  let todo := (inTurn due hub.rotation).flatMap fun tenant => (share tenant).map (tenant, ·)
  { hub with passes := hub.passes ++ [{ todo }], rotation := hub.rotation + 1 }

/-- A pass over one tenant's own. -/
def sweepTenant (tenant : TenantId) (now : Instant) : Hub :=
  let todo := ((dueIntents (hub.stores tenant) now).take closeDrainPassLimit).map (tenant, ·)
  { hub with passes := hub.passes ++ [{ todo }] }

/-- The write a pass has in hand, made. -/
def write (place : ℕ) (label : String) : Hub :=
  match hub.passes[place]? with
  | none => hub
  | some pass =>
    match pass.inHand with
    | none => hub
    | some (tenant, stage) =>
      let (store, left) := stage.write (hub.stores tenant) label
      { hub.put tenant store with
        passes := hub.passes.set place { pass with inHand := left.map (tenant, ·) } }

end Hub

inductive Label
  | land (tenant : TenantId) (write : LandingWrite) (decision : CloseEnqueueDecision) (now : Instant)
  | mint (tenant : TenantId) (row : ChunkRow) (refs : List WorkRef)
  | group (tenant : TenantId) (survivor : ChunkId) (mergeIds : List ChunkId) (ids : ℕ → String)
      (now : Instant)
  | delete (tenant : TenantId) (chunkId : ChunkId) (by_ : String) (now : Instant)
  /-- Any other write of the chunk tables. -/
  | beside (tenant : TenantId) (tables : Tables)
  | sweep (open_ : List TenantId) (now : Instant)
  | sweepTenant (tenant : TenantId) (now : Instant)
  | attempt (pass : ℕ) (closing : CloseAttempt) (at_ : Instant)
  | write (pass : ℕ) (label : String)
  | abandon (pass : ℕ) (tenant : TenantId)
  | crash (pass : ℕ)

/-- The reading of a label that begins a pass. -/
def Label.reading : Label → Option Instant
  | sweep _ now => some now
  | sweepTenant _ now => some now
  | _ => none

/-- One atomic step; a refused one leaves the hub as it was. -/
def next (hub : Hub) : Label → Hub
  | .land tenant write decision now =>
    match land (hub.stores tenant) write decision now with
    | .error _ => hub
    | .ok (store, _) => hub.put tenant store
  | .mint tenant row refs =>
    match insertChunkRows (hub.stores tenant) row refs with
    | none => hub
    | some store => hub.put tenant store
  | .group tenant survivor mergeIds ids now =>
    hub.put tenant (group (hub.stores tenant) survivor mergeIds ids now).1
  | .delete tenant chunkId by_ now =>
    let store := hub.stores tenant
    hub.put tenant { store with
      tables := (DependencyEdges.deleteChunk store.tables chunkId by_ now).1 }
  | .beside tenant tables => hub.put tenant { hub.stores tenant with tables }
  | .sweep open_ now => hub.sweep open_ now
  | .sweepTenant tenant now => hub.sweepTenant tenant now
  | .attempt place closing at_ =>
    { hub with passes := hub.passes.modify place (Pass.attempt closing at_) }
  | .write place label => hub.write place label
  | .abandon place tenant => { hub with passes := hub.passes.modify place (Pass.abandon tenant) }
  | .crash place => { hub with passes := hub.passes.modify place Pass.crash }

/-- The hub after a run from its empty stores. -/
def ran (labels : List Label) : Hub := labels.foldl next {}

theorem ran_append (before after : List Label) :
    ran (before ++ after) = after.foldl next (ran before) := List.foldl_append

variable {hub : Hub} {label : Label} {tenant : TenantId} {key : ClosureKey} {place : ℕ}

/-! ## Announcements the passes still owe -/

/-- How many of the passes still owe the announcement. -/
def owed (passes : List Pass) (tenant : TenantId) (key : ClosureKey) : ℕ :=
  passes.countP (Pass.owes tenant key)

/-- What every reachable hub satisfies. -/
structure Lawful (hub : Hub) : Prop where
  settled : ∀ tenant, Settled (hub.stores tenant)
  balanced : ∀ tenant, Balanced (owed hub.passes tenant) (hub.stores tenant)

theorem Balanced.mono {store : CloseStore} {pending fewer : ClosureKey → ℕ}
    (balanced : Balanced pending store) (le : ∀ key, fewer key ≤ pending key) :
    Balanced fewer store := by
  intro key
  have bound := balanced key
  have less := le key
  omega

theorem owed_append (passes : List Pass) (todo : List (TenantId × PendingCloseIntent)) :
    owed (passes ++ [⟨todo, none⟩]) tenant key = owed passes tenant key := by
  rw [owed, owed, List.countP_append, List.countP_singleton]
  rfl

/-- A pass that owes no more than it did. -/
theorem owed_modify (passes : List Pass) (change : Pass → Pass)
    (less : ∀ pass, (change pass).owes tenant key = true → pass.owes tenant key = true) :
    owed (passes.modify place change) tenant key ≤ owed passes tenant key := by
  rw [owed, owed]
  induction passes generalizing place with
  | nil => simp
  | cons pass passes ih =>
    cases place with
    | zero =>
      rw [List.modify_zero_cons, List.countP_cons, List.countP_cons]
      have one := less pass
      split <;> split <;> simp_all
    | succ place =>
      rw [List.modify_succ_cons, List.countP_cons, List.countP_cons]
      exact Nat.add_le_add_right ih _

theorem owes_iff {pass : Pass} : pass.owes tenant key = true ↔
    ∃ stage, pass.inHand = some (tenant, stage) ∧ stage.owes key = true := by
  simp only [Pass.owes, Option.any_eq_true, Bool.and_eq_true, decide_eq_true_eq, Prod.exists]
  constructor
  · rintro ⟨own, stage, held, rfl, owes⟩
    exact ⟨stage, held, owes⟩
  · rintro ⟨stage, held, owes⟩
    exact ⟨tenant, stage, held, rfl, owes⟩

theorem owes_attempt {closing : CloseAttempt} {at_ : Instant} {pass : Pass}
    (owes : (pass.attempt closing at_).owes tenant key = true) : pass.owes tenant key = true := by
  rw [Pass.attempt] at owes
  split at owes
  · obtain ⟨stage, held, announces⟩ := owes_iff.mp owes
    cases closing <;> cases held <;> cases announces
  · exact owes

theorem owes_abandon {other : TenantId} {pass : Pass}
    (owes : (pass.abandon other).owes tenant key = true) : pass.owes tenant key = true := by
  obtain ⟨stage, held, announces⟩ := owes_iff.mp owes
  exact owes_iff.mpr ⟨stage, (Option.filter_eq_some_iff.mp held).1, announces⟩

theorem owes_crash {pass : Pass} (owes : pass.crash.owes tenant key = true) :
    pass.owes tenant key = true := by
  obtain ⟨stage, held, -⟩ := owes_iff.mp owes
  cases held

/-! ## One step -/

theorem put_same (hub : Hub) (tenant : TenantId) (store : CloseStore) :
    (hub.put tenant store).stores tenant = store := Function.update_self ..

theorem put_other {other : TenantId} (hub : Hub) (store : CloseStore) (apart : other ≠ tenant) :
    (hub.put tenant store).stores other = hub.stores other := Function.update_of_ne apart ..

/-- A write of one tenant's store keeps the hub lawful where it keeps that store's tables so. -/
theorem Lawful.put (lawful : Lawful hub) {store : CloseStore}
    (kept : Kept (hub.stores tenant) store) : Lawful (hub.put tenant store) where
  settled other := by
    by_cases same : other = tenant
    · subst same
      rw [put_same]
      exact kept.settled (lawful.settled other)
    · rw [put_other hub store same]
      exact lawful.settled other
  balanced other := by
    by_cases same : other = tenant
    · subst same
      rw [put_same]
      exact kept.balanced _ (lawful.balanced other)
    · rw [put_other hub store same]
      exact lawful.balanced other

/-- Steps of the passes that write nothing. -/
theorem Lawful.passes (lawful : Lawful hub) {passes : List Pass} {rotation : ℕ}
    (less : ∀ tenant key, owed passes tenant key ≤ owed hub.passes tenant key) :
    Lawful { hub with passes, rotation } :=
  ⟨lawful.settled, fun tenant => Balanced.mono (lawful.balanced tenant) (less tenant)⟩

theorem kept_group (store : CloseStore) (survivor : ChunkId) (mergeIds : List ChunkId)
    (ids : ℕ → String) (now : Instant) : Kept store (group store survivor mergeIds ids now).1 := by
  rw [group]
  split
  · exact kept_of_same rfl rfl rfl
  · exact .refl store

theorem kept_insertChunkRows {store after : CloseStore} {row : ChunkRow} {refs : List WorkRef}
    (minted : insertChunkRows store row refs = some after) : Kept store after := by
  rw [insertChunkRows] at minted
  split at minted
  · obtain rfl := Option.some.inj minted
    exact kept_of_same rfl rfl rfl
  · cases minted

/-- The announcements owed once one pass has something else in hand. -/
theorem owed_set {passes : List Pass} {pass : Pass} (found : passes[place]? = some pass)
    (after : Pass) (tenant : TenantId) (key : ClosureKey) :
    owed (passes.set place after) tenant key + (if pass.owes tenant key = true then 1 else 0) =
      owed passes tenant key + if after.owes tenant key = true then 1 else 0 := by
  obtain ⟨below, is⟩ := List.getElem?_eq_some_iff.mp found
  have set_ := List.countP_set (p := Pass.owes tenant key) (a := after) below
  rw [is] at set_
  rw [owed, owed, set_]
  have some_ : pass.owes tenant key = true → 0 < passes.countP (Pass.owes tenant key) :=
    fun owes => List.countP_pos_iff.mpr ⟨pass, List.mem_of_getElem? found, owes⟩
  split <;> split <;> simp_all

/-- The write in hand keeps its own tenant's store; what is owed there changes by its own
announcement. -/
theorem write_spec {store after : CloseStore} {stage : Stage} {left : Option Stage} {label : String}
    {pending later : ClosureKey → ℕ} (settled : Settled store) (balanced : Balanced pending store)
    (wrote : stage.write store label = (after, left))
    (change : ∀ key, later key + (if stage.owes key = true then 1 else 0) =
      pending key + if left.any (·.owes key) = true then 1 else 0) :
    Settled after ∧ Balanced later after ∧ Follows store after := by
  cases stage with
  | recording intent outcome reason at_ =>
    have parts : (recordWorkItemClosure store intent.chunkId intent.ref outcome reason at_).1 =
        after ∧ (if (recordWorkItemClosure store intent.chunkId intent.ref outcome reason at_).2 then
          some (.announcing (announcement intent outcome reason at_ label)) else none) = left :=
      Prod.mk.inj wrote
    obtain ⟨rfl, is⟩ := parts
    refine ⟨settled_record settled, ?_, follows_record⟩
    refine Balanced.mono (balanced_record balanced) fun key => ?_
    have same := change key
    rw [← is] at same
    generalize (recordWorkItemClosure store intent.chunkId intent.ref outcome reason at_).2 = new
      at same ⊢
    cases new with
    | false => simpa [Stage.owes] using same.le
    | true => simpa [Stage.owes, announcement] using same.le
  | deferring intent at_ resumeAt =>
    obtain ⟨rfl, rfl⟩ := Prod.mk.inj wrote
    refine ⟨settled, ?_, follows_of_same rfl rfl⟩
    refine Balanced.mono (balanced_of_same rfl rfl balanced) fun key => ?_
    exact (change key).le
  | announcing event =>
    obtain ⟨rfl, rfl⟩ := Prod.mk.inj wrote
    refine ⟨settled_of_same rfl rfl settled, fun key => ?_, follows_of_same rfl rfl⟩
    have same := change key
    have before := balanced key
    rw [announced_append]
    show announced store key + (if event.announces = key then 1 else 0) + later key ≤
      recorded store key
    simp only [Stage.owes, decide_eq_true_eq, Option.any_none, Bool.false_eq_true, if_false] at same
    omega

/-- What a write in hand makes of the hub. -/
theorem write_cases (hub : Hub) (place : ℕ) (label : String) : hub.write place label = hub ∨
    ∃ pass own stage after left, hub.passes[place]? = some pass ∧
      pass.inHand = some (own, stage) ∧ stage.write (hub.stores own) label = (after, left) ∧
      hub.write place label = { hub.put own after with
        passes := hub.passes.set place { pass with inHand := left.map (own, ·) } } := by
  rw [Hub.write]
  split
  · exact .inl rfl
  · rename_i pass found
    split
    · exact .inl rfl
    · rename_i own stage held
      exact .inr ⟨pass, own, stage, _, _, found, held, rfl, rfl⟩

/-- The write a pass has in hand: of the announcements owed, only its own comes or goes. -/
theorem lawful_write (lawful : Lawful hub) (place : ℕ) (label : String) :
    Lawful (hub.write place label) := by
  rcases write_cases hub place label with same | ⟨pass, own, stage, after, left, found, held, wrote, is⟩
  · rw [same]
    exact lawful
  · rw [is]
    have count := owed_set found { pass with inHand := left.map (own, ·) }
    have change : ∀ key, owed (hub.passes.set place { pass with inHand := left.map (own, ·) }) own
        key + (if stage.owes key = true then 1 else 0) =
        owed hub.passes own key + if left.any (·.owes key) = true then 1 else 0 := by
      intro key
      simpa [Pass.owes, held, Option.any_map, Function.comp_def] using count own key
    obtain ⟨settled, balanced, -⟩ :=
      write_spec (lawful.settled own) (lawful.balanced own) wrote change
    constructor
    · intro tenant
      by_cases own_ : tenant = own
      · subst own_
        exact (put_same hub tenant after).symm ▸ settled
      · exact (put_other hub after own_).symm ▸ lawful.settled tenant
    · intro tenant
      by_cases own_ : tenant = own
      · subst own_
        exact (put_same hub tenant after).symm ▸ balanced
      · have quiet : ∀ key, owed (hub.passes.set place { pass with inHand := left.map (own, ·) })
            tenant key ≤ owed hub.passes tenant key := by
          intro key
          have same := count tenant key
          cases left <;> simp [Pass.owes, held, Ne.symm own_] at same <;> exact same.le
        exact (put_other hub after own_).symm ▸ Balanced.mono (lawful.balanced tenant) quiet

theorem lawful_next (lawful : Lawful hub) (label : Label) : Lawful (next hub label) := by
  cases label with
  | land tenant write decision now =>
    rw [next]
    split
    · exact lawful
    · rename_i store outcome done
      exact lawful.put (land_spec (lawful.settled tenant) done).1
  | mint tenant row refs =>
    rw [next]
    split
    · exact lawful
    · rename_i store minted
      exact lawful.put (kept_insertChunkRows minted)
  | group tenant survivor mergeIds ids now => exact lawful.put (kept_group _ _ _ _ _)
  | delete tenant chunkId by_ now => exact lawful.put (kept_of_same rfl rfl rfl)
  | beside tenant tables => exact lawful.put (kept_of_same rfl rfl rfl)
  | sweep open_ now =>
    exact lawful.passes fun tenant key => (owed_append hub.passes _).le
  | sweepTenant tenant now =>
    exact lawful.passes fun tenant key => (owed_append hub.passes _).le
  | attempt place closing at_ =>
    exact lawful.passes fun tenant key => owed_modify hub.passes _ fun pass => owes_attempt
  | write place label => exact lawful_write lawful place label
  | abandon place other =>
    exact lawful.passes fun tenant key => owed_modify hub.passes _ fun pass => owes_abandon
  | crash place => exact lawful.passes fun tenant key => owed_modify hub.passes _ fun pass => owes_crash

theorem follows_put {store : CloseStore} (follows : Follows (hub.stores tenant) store)
    (other : TenantId) : Follows (hub.stores other) ((hub.put tenant store).stores other) := by
  by_cases same : other = tenant
  · subst same
    exact (put_same hub other store).symm ▸ follows
  · exact (put_other hub store same).symm ▸ .refl _

theorem follows_tables (store : CloseStore) (tables : Tables) :
    Follows store { store with tables } := follows_of_same rfl rfl

theorem follows_next (lawful : Lawful hub) (label : Label) (tenant : TenantId) :
    Follows (hub.stores tenant) ((next hub label).stores tenant) := by
  cases label with
  | land own write decision now =>
    rw [next]
    split
    · exact .refl _
    · rename_i store outcome done
      exact follows_put (land_spec (lawful.settled own) done).1.follows tenant
  | mint own row refs =>
    rw [next]
    split
    · exact .refl _
    · rename_i store minted
      exact follows_put (kept_insertChunkRows minted).follows tenant
  | group own survivor mergeIds ids now => exact follows_put (kept_group _ _ _ _ _).follows tenant
  | delete own chunkId by_ now => exact follows_put (follows_tables _ _) tenant
  | beside own tables => exact follows_put (follows_tables _ tables) tenant
  | write place label =>
    rcases write_cases hub place label with
      same | ⟨pass, own, stage, after, left, found, held, wrote, is⟩
    · rw [next, same]
      exact .refl _
    · rw [next, is]
      have follows : Follows (hub.stores own) after := by
        cases stage with
        | recording intent outcome reason at_ => exact (Prod.mk.inj wrote).1 ▸ follows_record
        | deferring intent at_ resumeAt =>
          exact (Prod.mk.inj wrote).1 ▸ follows_of_same rfl rfl
        | announcing event => exact (Prod.mk.inj wrote).1 ▸ follows_of_same rfl rfl
      exact follows_put follows tenant
  | _ => exact .refl _

/-! ## What a pass reads -/

theorem mem_pending_of_due {store : CloseStore} {now : Instant} {intent : PendingCloseIntent}
    (mem : intent ∈ dueIntents store now) :
    intent ∈ pendingCloseIntents store ∧ intent.isDue now = true := List.mem_filter.mp mem

theorem due_of_sweep {open_ : List TenantId} {now : Instant} {intent : PendingCloseIntent}
    (mem : (tenant, intent) ∈ (inTurn (hub.due open_ now) hub.rotation).flatMap fun tenant =>
      (((fairShare (hub.due open_ now) closeDrainPassLimit hub.rotation).getD fun _ => []) tenant).map
        (tenant, ·)) : intent ∈ dueIntents (hub.stores tenant) now := by
  obtain ⟨share, is, -, front, -⟩ := fairShare_fair (hub.due open_ now) closeDrainPassLimit
    hub.rotation
  rw [is] at mem
  obtain ⟨own, listed, mem⟩ := List.mem_flatMap.mp mem
  obtain ⟨taken, shared, same⟩ := List.mem_map.mp mem
  obtain ⟨rfl, rfl⟩ := Prod.mk.inj same
  have among := (front own ((inTurn_perm _ _).mem_iff.mp listed)).subset shared
  simp only [Hub.due] at among
  split at among
  · exact among
  · cases among

section Todo
variable {pass : Pass} {entry : TenantId × PendingCloseIntent}

/-- A pass of the list as it was, with no work added. -/
def Shortened (passes : List Pass) (place : ℕ) (pass : Pass) : Prop :=
  ∃ before, passes[place]? = some before ∧ ∀ entry ∈ pass.todo, entry ∈ before.todo

theorem shortened_of_modify {change : Pass → Pass} {at_ : ℕ}
    (less : ∀ pass, ∀ entry ∈ (change pass).todo, entry ∈ pass.todo)
    (found : (hub.passes.modify at_ change)[place]? = some pass) :
    Shortened hub.passes place pass := by
  rw [List.getElem?_modify] at found
  obtain ⟨before, is, rfl⟩ := Option.map_eq_some_iff.mp found
  refine ⟨before, is, fun entry mem => ?_⟩
  split at mem
  · exact less before entry mem
  · exact mem

theorem todo_attempt {closing : CloseAttempt} {at_ : Instant} (pass : Pass)
    (entry : TenantId × PendingCloseIntent) (mem : entry ∈ (pass.attempt closing at_).todo) :
    entry ∈ pass.todo := by
  rw [Pass.attempt] at mem
  split at mem
  · rename_i todo
    rw [todo]
    exact List.mem_cons_of_mem _ mem
  · exact mem

/-- A pass just begun is the last, with what was due at its reading. -/
theorem todo_begun {todo : List (TenantId × PendingCloseIntent)}
    (found : (hub.passes ++ [⟨todo, none⟩])[place]? = some pass) :
    Shortened hub.passes place pass ∨ hub.passes.length = place ∧ pass.todo = todo := by
  rcases Nat.lt_or_ge place hub.passes.length with earlier | later
  · rw [List.getElem?_append_left earlier] at found
    exact .inl ⟨pass, found, fun _ mem => mem⟩
  · rw [List.getElem?_append_right later, List.getElem?_singleton] at found
    split at found
    · obtain rfl := Option.some.inj found
      exact .inr ⟨by omega, rfl⟩
    · cases found

/-- A pass's work list after a step: what it had, or less; a new pass's is what was due when it
read. -/
theorem todo_next {label : Label} (found : (next hub label).passes[place]? = some pass) :
    Shortened hub.passes place pass ∨ hub.passes.length = place ∧
      ∃ now, label.reading = some now ∧ ∀ entry ∈ pass.todo,
        entry.2 ∈ dueIntents (hub.stores entry.1) now := by
  cases label with
  | land own write decision now =>
    rw [next] at found
    split at found <;> exact .inl ⟨pass, found, fun _ mem => mem⟩
  | mint own row refs =>
    rw [next] at found
    split at found <;> exact .inl ⟨pass, found, fun _ mem => mem⟩
  | sweep open_ now =>
    refine (todo_begun found).imp id ?_
    rintro ⟨last, todo⟩
    refine ⟨last, now, rfl, fun entry mem => ?_⟩
    rw [todo] at mem
    exact due_of_sweep mem
  | sweepTenant own now =>
    refine (todo_begun found).imp id ?_
    rintro ⟨last, todo⟩
    refine ⟨last, now, rfl, fun entry mem => ?_⟩
    rw [todo] at mem
    obtain ⟨intent, among, rfl⟩ := List.mem_map.mp mem
    exact List.mem_of_mem_take among
  | attempt at_ closing reading => exact .inl (shortened_of_modify todo_attempt found)
  | abandon at_ own =>
    exact .inl (shortened_of_modify (fun pass entry mem => (List.mem_filter.mp mem).1) found)
  | crash at_ => exact .inl (shortened_of_modify (fun pass entry mem => by cases mem) found)
  | write at_ label =>
    rcases write_cases hub at_ label with
      same | ⟨before, own, stage, after, left, held, -, -, is⟩
    · rw [next, same] at found
      exact .inl ⟨pass, found, fun _ mem => mem⟩
    · rw [next, is] at found
      have found : (hub.passes.set at_ { before with inHand := left.map (own, ·) })[place]? =
        some pass := found
      rw [List.getElem?_set] at found
      split at found
      · rename_i same
        split at found
        · obtain rfl := Option.some.inj found
          exact .inl ⟨before, same ▸ held, fun _ mem => mem⟩
        · cases found
      · exact .inl ⟨pass, found, fun _ mem => mem⟩
  | _ => exact .inl ⟨pass, found, fun _ mem => mem⟩

end Todo

/-! ## Runs -/

theorem lawful_foldl (lawful : Lawful hub) (labels : List Label) :
    Lawful (labels.foldl next hub) ∧
      ∀ tenant, Follows (hub.stores tenant) ((labels.foldl next hub).stores tenant) := by
  induction labels generalizing hub with
  | nil => exact ⟨lawful, fun _ => .refl _⟩
  | cons label labels ih =>
    obtain ⟨kept, follows⟩ := ih (lawful_next lawful label)
    exact ⟨kept, fun tenant => (follows_next lawful label tenant).trans (follows tenant)⟩

theorem lawful_ran (labels : List Label) : Lawful (ran labels) := by
  refine (lawful_foldl ⟨?_, ?_⟩ labels).1
  · rintro tenant closure mem
    cases mem
  · intro tenant key
    exact Nat.le_refl 0

/-- A later state of a run keeps what an earlier one has. -/
theorem follows_ran (before after : List Label) (tenant : TenantId) :
    Follows ((ran before).stores tenant) ((ran (before ++ after)).stores tenant) := by
  rw [ran_append]
  exact (lawful_foldl (lawful_ran before) after).2 tenant

/-- The pass begun at that place read the intent as pending and due. -/
def ReadDue (labels : List Label) (place : ℕ) (entry : TenantId × PendingCloseIntent) : Prop :=
  ∃ before label later now, labels = before ++ label :: later ∧ label.reading = some now ∧
    (ran before).passes.length = place ∧
    entry.2 ∈ pendingCloseIntents ((ran before).stores entry.1) ∧ entry.2.isDue now = true

theorem ReadDue.append {labels : List Label} {entry : TenantId × PendingCloseIntent}
    (read : ReadDue labels place entry) (more : List Label) :
    ReadDue (labels ++ more) place entry := by
  obtain ⟨before, label, later, now, rfl, rest⟩ := read
  exact ⟨before, label, later ++ more, now, by simp, rest⟩

theorem todo_read {labels : List Label} {pass : Pass} {entry : TenantId × PendingCloseIntent}
    (found : (ran labels).passes[place]? = some pass) (mem : entry ∈ pass.todo) :
    ReadDue labels place entry := by
  induction labels using List.reverseRecOn generalizing pass with
  | nil => cases found
  | append_singleton labels label ih =>
    rw [ran_append] at found
    rcases todo_next found with ⟨before, held, less⟩ | ⟨last, now, reading, due⟩
    · exact (ih held (less entry mem)).append [label]
    · obtain ⟨pending, is⟩ := mem_pending_of_due (due entry mem)
      exact ⟨labels, label, [], now, rfl, reading, last, pending, is⟩

/-! ## The close intents of every run -/

/-- What holds of a run's end and of what it passed on the way. -/
structure CloseRules (labels : List Label) : Prop where
  /-- A recorded landing of a live chunk leaves an intent or a terminal closure of each of its refs,
  and it stays. -/
  accounts : ∀ before tenant write decision now after store, labels =
    before ++ .land tenant write decision now :: after →
    land ((ran before).stores tenant) write decision now = .ok (store, .recorded) →
    write.lands = true →
    isEphemeralId ((ran before).stores tenant).tables write.chunkId = false →
    ∀ ref ∈ workRefsOf ((ran before).stores tenant) write.chunkId,
      Accounted store write.chunkId ref ∧ Accounted ((ran labels).stores tenant) write.chunkId ref
  single : ∀ tenant (i j : ℕ) row other, ((ran labels).stores tenant).intents.rows[i]? = some row →
    ((ran labels).stores tenant).intents.rows[j]? = some other → row.key = other.key → i = j
  retires : ∀ before after tenant (i : ℕ) row, labels = before ++ after →
    ((ran before).stores tenant).intents.rows[i]? = some row → row.retiredAt ≠ none →
      ((ran labels).stores tenant).intents.rows[i]? = some row
  records : ∀ tenant key, recorded ((ran labels).stores tenant) key ≤ 1
  announces : ∀ tenant key,
    announced ((ran labels).stores tenant) key ≤ recorded ((ran labels).stores tenant) key
  settles : ∀ tenant, Settled ((ran labels).stores tenant)
  fails : ∀ tenant chunkId pointer reason at_ intentId row,
    pendingIntentId ((ran labels).stores tenant) chunkId pointer = some intentId →
    Lengthened (pendingIntent ((ran labels).stores tenant) row intentId)
      (pendingIntent (recordWorkItemClosure ((ran labels).stores tenant) chunkId pointer .failed
        reason at_).1 row intentId) at_
  defers : ∀ tenant intentId row at_ resumeAt,
    Deferred (pendingIntent ((ran labels).stores tenant) row intentId)
      (pendingIntent (recordCloseAttemptDeferred ((ran labels).stores tenant) intentId at_ resumeAt)
        row intentId) resumeAt (NewestAt ((ran labels).stores tenant) intentId at_)
  /-- What a pass attempts was pending and due when that pass read. -/
  attempts : ∀ before (place : ℕ) closing at_ after pass entry rest, labels =
    before ++ .attempt place closing at_ :: after → (ran before).passes[place]? = some pass →
    pass.inHand = none → pass.todo = entry :: rest → ReadDue before place entry

end Blizzard.CloseDrains
