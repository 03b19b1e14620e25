import Blizzard.TakeoverStore
import Blizzard.TransitionRuns

/-! # Epochs of one chunk under a tick and operator requests

The mints of a runner's tick and the takeovers of its operators each read the
chunk's epochs in one step and write in a later one. The log keeps every lease
and fence epoch in commit order; an operation in flight remembers how much of the
log and of the takeovers it had seen. -/
namespace Blizzard.TakeoverEpochs
open HubTables (ChunkId Instant)
open RunnerLeases TakeoverStore TransitionRuns

inductive Committed
  | lease (epoch : ℤ)
  | fence (epoch : ℤ)
  deriving DecidableEq, Repr

def Committed.epoch : Committed → ℤ
  | .lease epoch => epoch
  | .fence epoch => epoch

/-- An operation that has read and not yet written. -/
inductive Pending
  | mint (latest hubFloor : ℤ) (seen : ℕ)
  | takeover (admission : TakeoverAdmission) (seen seenTakeovers : ℕ)
  | ending (takeoverId : String)

structure Desk where
  store : Store
  pending : List Pending := []
  log : List Committed := []

/-- The facts of an open's scope that other tables hold. -/
structure ScopeFacts where
  bindings : List String
  referenceSession : Option String
  requeuePending : Bool
  activeParked : Bool
  submissionPending : Bool

variable (chunkId : ChunkId)

def resolvedTakeoverOpenScope (store : Store) (facts : ScopeFacts) : TakeoverOpenScope :=
  { openTakeover := openTakeoverForChunk store chunkId, bindings := facts.bindings,
    activeLease := activeLeaseForChunk store chunkId, referenceSession := facts.referenceSession,
    latestEpoch := latestEpoch store chunkId, requeuePending := facts.requeuePending,
    activeParked := facts.activeParked, submissionPending := facts.submissionPending }

inductive Event
  | readLatest (hubFloor : ℤ)
  | recordMint (index : ℕ) (leaseId nodeId : String) (retriesMax : ℕ)
  | readScope (facts : ScopeFacts) (force : Bool)
  | recordTakeover (index : ℕ) (takeoverId : String) (openedAt : Instant)
  | readCloseScope (takeoverId : String)
  | recordTakeoverEnd (index : ℕ)
  | closeLease (closure : ClosureRow)
  | lose (index : ℕ)

/-- An id no row of the store carries. -/
def FreshLease (store : Store) (leaseId : String) : Prop :=
  ∀ l ∈ store.rows.leases, l.leaseId ≠ leaseId

def FreshTakeover (store : Store) (takeoverId : String) : Prop :=
  (∀ t ∈ store.takeovers, t.takeoverId ≠ takeoverId) ∧ takeoverId ∉ store.takeoverEnds

instance (store : Store) (leaseId : String) : Decidable (FreshLease store leaseId) :=
  inferInstanceAs (Decidable (∀ l ∈ store.rows.leases, l.leaseId ≠ leaseId))

instance (store : Store) (takeoverId : String) : Decidable (FreshTakeover store takeoverId) :=
  inferInstanceAs (Decidable ((∀ t ∈ store.takeovers, t.takeoverId ≠ takeoverId) ∧ _))

def commitMint (desk : Desk) (index : ℕ) (leaseId nodeId : String) (retriesMax : ℕ) (epoch : ℤ) :
    Desk :=
  { store := { desk.store with
      rows := insertLease desk.store.rows ⟨leaseId, chunkId, epoch⟩
        ⟨leaseId, chunkId, nodeId, retriesMax⟩ },
    pending := desk.pending.eraseIdx index, log := desk.log ++ [.lease epoch] }

def commitTakeover (desk : Desk) (index : ℕ) (takeoverId : String) (openedAt : Instant)
    (admission : TakeoverAdmission) : Desk :=
  { store := recordTakeover desk.store
      ⟨takeoverId, chunkId, admission.fenceEpoch, admission.holdEpoch, openedAt⟩,
    pending := desk.pending.eraseIdx index,
    log := desk.log ++ (admission.fenceEpoch.map .fence).toList }

def step (desk : Desk) : Event → Desk
  | .readLatest hubFloor =>
    { desk with pending := desk.pending ++
        [.mint (latestEpoch desk.store chunkId) hubFloor desk.log.length] }
  | .recordMint index leaseId nodeId retriesMax =>
    match desk.pending[index]? with
    | some (.mint latest hubFloor _) =>
      if FreshLease desk.store leaseId then
        commitMint chunkId desk index leaseId nodeId retriesMax (nextLeaseEpoch latest hubFloor)
      else desk
    | _ => desk
  | .readScope facts force =>
    match admitTakeover (resolvedTakeoverOpenScope chunkId desk.store facts) force with
    | .error _ => desk
    | .ok admission =>
      { desk with pending := desk.pending ++
          [.takeover admission desk.log.length desk.store.takeovers.length] }
  | .recordTakeover index takeoverId openedAt =>
    match desk.pending[index]? with
    | some (.takeover admission _ _) =>
      if FreshTakeover desk.store takeoverId then
        commitTakeover chunkId desk index takeoverId openedAt admission
      else desk
    | _ => desk
  | .readCloseScope takeoverId =>
    match takeoverClosing (openTakeoverForChunk desk.store chunkId) takeoverId with
    | .ok (some record) => { desk with pending := desk.pending ++ [.ending record.takeoverId] }
    | _ => desk
  | .recordTakeoverEnd index =>
    match desk.pending[index]? with
    | some (.ending takeoverId) =>
      { desk with store := recordTakeoverEnd desk.store takeoverId,
                  pending := desk.pending.eraseIdx index }
    | _ => desk
  | .closeLease closure =>
    { desk with store := { desk.store with rows := recordClosure desk.store.rows closure } }
  -- a crash, or a takeover whose recorded owner cannot be resolved
  | .lose index => { desk with pending := desk.pending.eraseIdx index }

/-- The epochs of the chunk fence what they should. -/
structure Lawful (desk : Desk) : Prop where
  distinct : (desk.log.map (·.epoch)).Nodup
  rising : (desk.log.map (·.epoch)).Pairwise (· < ·)
  oneOpen : (openTakeovers desk.store chunkId).length ≤ 1
  fenced : ∀ before fence after_, desk.log = before ++ .fence fence :: after_ →
    ∀ epoch, .lease epoch ∈ after_ → fence < epoch

/-- No epoch above those a mint knows of was committed since its read. -/
def UndisturbedMint (desk : Desk) (leaseId : String) : Option Pending → Prop
  | some (.mint latest hubFloor seen) => FreshLease desk.store leaseId →
    ∀ c ∈ desk.log.drop seen, c.epoch ≤ max latest hubFloor
  | _ => True

/-- No epoch a fence would have to top was committed since the scope was read, and every takeover
opened since has ended. -/
def UndisturbedOpen (desk : Desk) (takeoverId : String) : Option Pending → Prop
  | some (.takeover admission seen seenTakeovers) => FreshTakeover desk.store takeoverId →
    (admission.fenceEpoch.isSome → ∀ c ∈ desk.log.drop seen, c.epoch ≤ admission.holdEpoch) ∧
    ∀ t ∈ desk.store.takeovers.drop seenTakeovers, t.chunkId = chunkId →
      t.takeoverId ∈ desk.store.takeoverEnds
  | _ => True

/-- Nothing this write depends on was committed since its read. -/
def Undisturbed (desk : Desk) : Event → Prop
  | .recordMint index leaseId _ _ => UndisturbedMint desk leaseId desk.pending[index]?
  | .recordTakeover index takeoverId _ =>
    UndisturbedOpen chunkId desk takeoverId desk.pending[index]?
  | _ => True

instance decidableUndisturbedMint (desk : Desk) (leaseId : String) :
    (p : Option Pending) → Decidable (UndisturbedMint desk leaseId p)
  | some (.mint _ _ _) => inferInstanceAs (Decidable (_ → ∀ c ∈ desk.log.drop _, _))
  | some (.takeover _ _ _) => isTrue trivial
  | some (.ending _) => isTrue trivial
  | none => isTrue trivial

instance decidableUndisturbedOpen (desk : Desk) (takeoverId : String) :
    (p : Option Pending) → Decidable (UndisturbedOpen chunkId desk takeoverId p)
  | some (.mint _ _ _) => isTrue trivial
  | some (.takeover _ _ _) => inferInstanceAs (Decidable (_ → (_ → ∀ c ∈ desk.log.drop _, _) ∧
      ∀ t ∈ desk.store.takeovers.drop _, _))
  | some (.ending _) => isTrue trivial
  | none => isTrue trivial

instance decidableUndisturbed (desk : Desk) :
    (event : Event) → Decidable (Undisturbed chunkId desk event)
  | .recordMint index leaseId _ _ =>
    decidableUndisturbedMint desk leaseId desk.pending[index]?
  | .recordTakeover index takeoverId _ =>
    decidableUndisturbedOpen chunkId desk takeoverId desk.pending[index]?
  | .readLatest _ => isTrue trivial
  | .readScope _ _ => isTrue trivial
  | .readCloseScope _ => isTrue trivial
  | .recordTakeoverEnd _ => isTrue trivial
  | .closeLease _ => isTrue trivial
  | .lose _ => isTrue trivial

variable {chunkId} {desk : Desk}

/-! ## What an operation in flight knows -/

/-- The epoch stands in the chunk's tables. -/
def Held (chunkId : ChunkId) (store : Store) : Committed → Prop
  | .lease epoch => ∃ l ∈ store.rows.leases, l.chunkId = chunkId ∧ l.epoch = epoch
  | .fence epoch => ∃ t ∈ store.takeovers, t.chunkId = chunkId ∧ t.fenceEpoch = some epoch

theorem Held.le_latestEpoch {store : Store} {c : Committed} (h : Held chunkId store c) :
    c.epoch ≤ latestEpoch store chunkId := by
  cases c with
  | lease epoch =>
    obtain ⟨l, inside, chunk, rfl⟩ := h
    exact lease_le_latestEpoch inside chunk
  | fence epoch =>
    obtain ⟨t, inside, chunk, fenced⟩ := h
    exact fence_le_latestEpoch inside chunk fenced

/-- The read an operation in flight made: an upper bound of the log it had seen, and for an open
that every takeover it had seen was over. -/
def Knows (chunkId : ChunkId) (store : Store) (log : List Committed) : Pending → Prop
  | .mint latest _ seen => seen ≤ log.length ∧ ∀ c ∈ log.take seen, c.epoch ≤ latest
  | .takeover admission seen seenTakeovers =>
    (seen ≤ log.length ∧ ∀ c ∈ log.take seen, c.epoch ≤ admission.holdEpoch) ∧
    (seenTakeovers ≤ store.takeovers.length ∧
      ∀ t ∈ store.takeovers.take seenTakeovers, t.chunkId = chunkId →
        t.takeoverId ∈ store.takeoverEnds) ∧
    (admission.fenceEpoch = none ∨ admission.fenceEpoch = some (admission.holdEpoch + 1))
  | .ending _ => True

/-- The tables only gain rows. -/
structure Grows (store store' : Store) : Prop where
  leases : store.rows.leases ⊆ store'.rows.leases
  takeovers : store.takeovers <+: store'.takeovers
  ends : store.takeoverEnds ⊆ store'.takeoverEnds

theorem Grows.refl (store : Store) : Grows store store :=
  ⟨fun _ inside => inside, List.prefix_refl _, fun _ inside => inside⟩

theorem Held.grow {store store' : Store} {c : Committed} (h : Held chunkId store c)
    (grows : Grows store store') : Held chunkId store' c := by
  cases c with
  | lease epoch =>
    obtain ⟨l, inside, chunk, same⟩ := h
    exact ⟨l, grows.leases inside, chunk, same⟩
  | fence epoch =>
    obtain ⟨t, inside, chunk, fenced⟩ := h
    exact ⟨t, grows.takeovers.subset inside, chunk, fenced⟩

theorem mem_take_of_grown {α : Type} {xs ys : List α} {seen : ℕ} (grows : xs <+: ys)
    (covers : seen ≤ xs.length) {x : α} (inside : x ∈ ys.take seen) : x ∈ xs.take seen := by
  obtain ⟨more, rfl⟩ := grows
  rw [List.take_append_of_le_length covers] at inside
  exact inside

theorem Knows.grow {store store' : Store} {log log' : List Committed} {p : Pending}
    (h : Knows chunkId store log p) (grows : Grows store store') (longer : log <+: log') :
    Knows chunkId store' log' p := by
  cases p with
  | mint latest hubFloor seen =>
    obtain ⟨covers, below⟩ := h
    refine ⟨le_trans covers longer.length_le, ?_⟩
    intro c inside
    exact below c (mem_take_of_grown longer covers inside)
  | takeover admission seen seenTakeovers =>
    obtain ⟨⟨covers, below⟩, ⟨covers', over_⟩, fence⟩ := h
    refine ⟨⟨le_trans covers longer.length_le, ?_⟩,
      ⟨le_trans covers' grows.takeovers.length_le, ?_⟩, fence⟩
    · intro c inside
      exact below c (mem_take_of_grown longer covers inside)
    · intro t inside chunk
      exact grows.ends (over_ t (mem_take_of_grown grows.takeovers covers' inside) chunk)
  | ending takeoverId => trivial

/-! ## The invariant -/

structure Kept (chunkId : ChunkId) (desk : Desk) : Prop where
  held : ∀ c ∈ desk.log, Held chunkId desk.store c
  knows : ∀ p ∈ desk.pending, Knows chunkId desk.store desk.log p

/-- A step keeps the invariant when its tables and log only grow, what it logs stands in the
tables, and what it starts knows what it read. -/
theorem Kept.grow (h : Kept chunkId desk) {desk' : Desk} (grows : Grows desk.store desk'.store)
    {more : List Committed} (longer : desk'.log = desk.log ++ more)
    (logged : ∀ c ∈ more, Held chunkId desk'.store c)
    (started : ∀ p ∈ desk'.pending, p ∈ desk.pending ∨ Knows chunkId desk'.store desk'.log p) :
    Kept chunkId desk' := by
  constructor
  case held =>
    intro c inside
    rw [longer] at inside
    rcases List.mem_append.mp inside with old | new
    · exact (h.held c old).grow grows
    · exact logged c new
  case knows =>
    intro p inside
    rcases started p inside with old | new
    · exact (h.knows p old).grow grows ⟨more, longer.symm⟩
    · exact new

theorem Kept.drops (h : Kept chunkId desk) (index : ℕ) :
    Kept chunkId { desk with pending := desk.pending.eraseIdx index } :=
  h.grow (Grows.refl _) (List.append_nil _).symm (fun _ none_ => absurd none_ List.not_mem_nil)
    fun _ inside => .inl (List.mem_of_mem_eraseIdx inside)

theorem Kept.starts (h : Kept chunkId desk) {p : Pending}
    (knows : Knows chunkId desk.store desk.log p) :
    Kept chunkId { desk with pending := desk.pending ++ [p] } := by
  refine h.grow (Grows.refl _) (List.append_nil _).symm
    (fun _ none_ => absurd none_ List.not_mem_nil) ?_
  intro other inside
  rcases List.mem_append.mp inside with old | new
  · exact .inl old
  · rw [List.mem_singleton.mp new]
    exact .inr knows

theorem Kept.commitMint (h : Kept chunkId desk) (index : ℕ) (leaseId nodeId : String)
    (retriesMax : ℕ) (epoch : ℤ) :
    Kept chunkId (commitMint chunkId desk index leaseId nodeId retriesMax epoch) := by
  refine h.grow ⟨?_, List.prefix_refl _, fun _ inside => inside⟩ rfl ?_ ?_
  · exact fun _ inside => List.mem_append_left _ inside
  · intro c new
    rw [List.mem_singleton.mp new]
    exact ⟨_, List.mem_append_right _ (List.mem_singleton.mpr rfl), rfl, rfl⟩
  · exact fun p inside => .inl (List.mem_of_mem_eraseIdx inside)

theorem Kept.commitTakeover (h : Kept chunkId desk) (index : ℕ) (takeoverId : String)
    (openedAt : Instant) (admission : TakeoverAdmission) :
    Kept chunkId (commitTakeover chunkId desk index takeoverId openedAt admission) := by
  refine h.grow ⟨fun _ inside => inside, List.prefix_append _ _, fun _ inside => inside⟩ rfl ?_ ?_
  · intro c new
    cases fenced : admission.fenceEpoch with
    | none => simp [fenced] at new
    | some fence =>
      simp [fenced] at new
      subst new
      exact ⟨_, List.mem_append_right _ (List.mem_singleton.mpr rfl), rfl, fenced⟩
  · exact fun p inside => .inl (List.mem_of_mem_eraseIdx inside)

theorem knows_admission (h : Kept chunkId desk) {facts : ScopeFacts} {force : Bool}
    {admission : TakeoverAdmission}
    (admitted : admitTakeover (resolvedTakeoverOpenScope chunkId desk.store facts) force =
      .ok admission) :
    Knows chunkId desk.store desk.log
      (.takeover admission desk.log.length desk.store.takeovers.length) := by
  obtain ⟨free, hold, fence⟩ := admitTakeover_ok admitted
  have latest : admission.holdEpoch = latestEpoch desk.store chunkId := hold
  refine ⟨⟨le_refl _, ?_⟩, ⟨le_refl _, ?_⟩, ?_⟩
  · intro c inside
    rw [latest]
    exact (h.held c (List.mem_of_mem_take inside)).le_latestEpoch
  · intro t inside chunk
    by_contra unended
    have open_ := mem_openTakeovers.mpr ⟨List.mem_of_mem_take inside, chunk, unended⟩
    rw [openTakeoverForChunk_eq_none.mp free] at open_
    cases open_
  · rw [latest]
    exact fence

theorem Kept.step (h : Kept chunkId desk) (event : Event) :
    Kept chunkId (step chunkId desk event) := by
  cases event with
  | readLatest hubFloor =>
    refine h.starts ⟨le_refl _, ?_⟩
    intro c inside
    exact (h.held c (List.mem_of_mem_take inside)).le_latestEpoch
  | recordMint index leaseId nodeId retriesMax =>
    simp only [TakeoverEpochs.step]
    split
    · split
      · exact h.commitMint ..
      · exact h
    · exact h
  | readScope facts force =>
    simp only [TakeoverEpochs.step]
    split
    · exact h
    next admitted => exact h.starts (knows_admission h admitted)
  | recordTakeover index takeoverId openedAt =>
    simp only [TakeoverEpochs.step]
    split
    · split
      · exact h.commitTakeover ..
      · exact h
    · exact h
  | readCloseScope takeoverId =>
    simp only [TakeoverEpochs.step]
    split
    · exact h.starts trivial
    · exact h
  | recordTakeoverEnd index =>
    simp only [TakeoverEpochs.step]
    split
    · refine h.grow ⟨fun _ inside => inside, List.prefix_refl _, ?_⟩ (List.append_nil _).symm
        (fun _ none_ => absurd none_ List.not_mem_nil)
        fun p inside => .inl (List.mem_of_mem_eraseIdx inside)
      exact fun _ inside => List.mem_append_left _ inside
    · exact h
  | closeLease closure =>
    exact h.grow ⟨fun _ inside => inside, List.prefix_refl _, fun _ inside => inside⟩
      (List.append_nil _).symm (fun _ none_ => absurd none_ List.not_mem_nil) fun _ inside => .inl inside
  | lose index => exact h.drops index

/-! ## Lawful steps -/

/-- Rising epochs are distinct, and leave every fence below the leases after it. -/
theorem lawful_of_rising (rising : (desk.log.map (·.epoch)).Pairwise (· < ·))
    (oneOpen : (openTakeovers desk.store chunkId).length ≤ 1) : Lawful chunkId desk where
  distinct := rising.imp fun less same => absurd less (by rw [same]; exact lt_irrefl _)
  rising := rising
  oneOpen := oneOpen
  fenced before fence after_ split_ epoch inside := by
    rw [split_, List.map_append, List.pairwise_append, List.map_cons, List.pairwise_cons] at rising
    exact rising.2.1.1 epoch (List.mem_map_of_mem (f := (·.epoch)) inside)

/-- The log stays rising under an epoch above all of it, and under no other. -/
theorem rising_append {log : List Committed} {c : Committed}
    (rising : (log.map (·.epoch)).Pairwise (· < ·)) :
    ((log ++ [c]).map (·.epoch)).Pairwise (· < ·) ↔ ∀ other ∈ log, other.epoch < c.epoch := by
  rw [List.map_append, List.pairwise_append]
  constructor
  · rintro ⟨-, -, above⟩ other inside
    exact above other.epoch (List.mem_map_of_mem (f := (·.epoch)) inside) c.epoch (by simp)
  · intro above
    refine ⟨rising, by simp, ?_⟩
    intro epoch inside epoch' new
    obtain ⟨other, listed, rfl⟩ := List.mem_map.mp inside
    rw [List.map_singleton, List.mem_singleton] at new
    rw [new]
    exact above other listed

theorem mem_take_or_drop {α : Type} {xs : List α} (seen : ℕ) {x : α} (inside : x ∈ xs) :
    x ∈ xs.take seen ∨ x ∈ xs.drop seen := by
  rw [← List.take_append_drop seen xs] at inside
  exact List.mem_append.mp inside

/-- A write is above the whole log when it is above what was committed since its read. -/
theorem above_log {log : List Committed} {seen : ℕ} {bound epoch : ℤ}
    (known : ∀ c ∈ log.take seen, c.epoch ≤ bound) (next : bound < epoch) :
    (∀ c ∈ log, c.epoch < epoch) ↔ ∀ c ∈ log.drop seen, c.epoch < epoch := by
  constructor
  · exact fun above c inside => above c (List.mem_of_mem_drop inside)
  · intro above c inside
    rcases mem_take_or_drop seen inside with old | new
    · exact lt_of_le_of_lt (known c old) next
    · exact above c new

theorem openTakeovers_commitTakeover {index : ℕ} {takeoverId : String} {openedAt : Instant}
    {admission : TakeoverAdmission} (fresh : FreshTakeover desk.store takeoverId) :
    openTakeovers (commitTakeover chunkId desk index takeoverId openedAt admission).store chunkId =
      openTakeovers desk.store chunkId ++
        [⟨takeoverId, chunkId, admission.fenceEpoch, admission.holdEpoch, openedAt⟩] := by
  simp only [openTakeovers, commitTakeover, recordTakeover]
  rw [List.filter_append]
  refine congrArg _ (List.filter_eq_self.mpr ?_)
  intro t new
  rw [List.mem_singleton.mp new]
  exact decide_eq_true ⟨rfl, fresh.2⟩

/-- No takeover of the chunk is open exactly when those opened since a read have ended. -/
theorem noneOpen_iff {store : Store} {seenTakeovers : ℕ}
    (known : ∀ t ∈ store.takeovers.take seenTakeovers, t.chunkId = chunkId →
      t.takeoverId ∈ store.takeoverEnds) :
    openTakeovers store chunkId = [] ↔ ∀ t ∈ store.takeovers.drop seenTakeovers,
      t.chunkId = chunkId → t.takeoverId ∈ store.takeoverEnds := by
  rw [List.eq_nil_iff_forall_not_mem]
  constructor
  · intro none_ t inside chunk
    by_contra unended
    exact none_ t (mem_openTakeovers.mpr ⟨List.mem_of_mem_drop inside, chunk, unended⟩)
  · intro ended t open_
    obtain ⟨inside, chunk, unended⟩ := mem_openTakeovers.mp open_
    rcases mem_take_or_drop seenTakeovers inside with old | new
    · exact unended (known t old chunk)
    · exact unended (ended t new chunk)

/-- A mint keeps the chunk lawful when what was committed since its read stays below it, and only
then. -/
theorem lawful_commitMint_iff (lawful : Lawful chunkId desk) {index seen : ℕ} {latest hubFloor : ℤ}
    (knows : ∀ c ∈ desk.log.take seen, c.epoch ≤ latest) (leaseId nodeId : String) (retriesMax : ℕ) :
    Lawful chunkId (commitMint chunkId desk index leaseId nodeId retriesMax
        (nextLeaseEpoch latest hubFloor)) ↔
      ∀ c ∈ desk.log.drop seen, c.epoch ≤ max latest hubFloor := by
  have next : latest < nextLeaseEpoch latest hubFloor :=
    Int.lt_add_one_of_le (le_max_left latest hubFloor)
  have above := above_log knows next
  have appended := rising_append (c := .lease (nextLeaseEpoch latest hubFloor)) lawful.rising
  constructor
  · intro after_ c inside
    exact Int.le_of_lt_add_one (above.mp (appended.mp after_.rising) c inside)
  · intro below
    refine lawful_of_rising (appended.mpr (above.mpr ?_)) lawful.oneOpen
    exact fun c inside => Int.lt_add_one_of_le (below c inside)

/-- The same for a takeover, which must find no other one open. -/
theorem lawful_commitTakeover_iff (lawful : Lawful chunkId desk) {index seen seenTakeovers : ℕ}
    {admission : TakeoverAdmission} {takeoverId : String}
    (knows : Knows chunkId desk.store desk.log (.takeover admission seen seenTakeovers))
    (fresh : FreshTakeover desk.store takeoverId) (openedAt : Instant) :
    Lawful chunkId (commitTakeover chunkId desk index takeoverId openedAt admission) ↔
      (admission.fenceEpoch.isSome → ∀ c ∈ desk.log.drop seen, c.epoch ≤ admission.holdEpoch) ∧
      ∀ t ∈ desk.store.takeovers.drop seenTakeovers, t.chunkId = chunkId →
        t.takeoverId ∈ desk.store.takeoverEnds := by
  obtain ⟨⟨-, below⟩, ⟨-, ended⟩, fence⟩ := knows
  have opened : (openTakeovers (commitTakeover chunkId desk index takeoverId openedAt
      admission).store chunkId).length ≤ 1 ↔ openTakeovers desk.store chunkId = [] := by
    rw [openTakeovers_commitTakeover fresh, List.length_append, List.length_singleton,
      ← List.length_eq_zero_iff]
    omega
  rw [← noneOpen_iff ended, ← opened]
  rcases fence with none_ | fence
  · have log : (commitTakeover chunkId desk index takeoverId openedAt admission).log = desk.log := by
      simp [commitTakeover, none_]
    constructor
    · intro after_
      refine ⟨?_, after_.oneOpen⟩
      rw [none_]
      intro absent
      cases absent
    · rintro ⟨-, oneOpen⟩
      exact lawful_of_rising (by rw [log]; exact lawful.rising) oneOpen
  · have log : (commitTakeover chunkId desk index takeoverId openedAt admission).log =
        desk.log ++ [.fence (admission.holdEpoch + 1)] := by
      simp [commitTakeover, fence]
    have above := above_log below (Int.lt_add_one_of_le (le_refl admission.holdEpoch))
    have appended := rising_append (c := .fence (admission.holdEpoch + 1)) lawful.rising
    constructor
    · intro after_
      refine ⟨?_, after_.oneOpen⟩
      intro _ c inside
      have rising := after_.rising
      rw [log] at rising
      exact Int.le_of_lt_add_one (above.mp (appended.mp rising) c inside)
    · rintro ⟨undisturbed, oneOpen⟩
      refine lawful_of_rising ?_ oneOpen
      rw [log]
      refine appended.mpr (above.mpr ?_)
      exact fun c inside => Int.lt_add_one_of_le (undisturbed (by rw [fence]; rfl) c inside)

/-- A step that commits no epoch and opens no takeover. -/
theorem Lawful.quiet (lawful : Lawful chunkId desk) {desk' : Desk} (log : desk'.log = desk.log)
    (takeovers : desk'.store.takeovers = desk.store.takeovers)
    (ends : desk.store.takeoverEnds ⊆ desk'.store.takeoverEnds) : Lawful chunkId desk' := by
  refine lawful_of_rising (by rw [log]; exact lawful.rising) (le_trans ?_ lawful.oneOpen)
  rw [openTakeovers, openTakeovers, takeovers]
  refine (List.monotone_filter_right _ ?_).length_le
  intro t open_
  obtain ⟨chunk, unended⟩ := of_decide_eq_true open_
  exact decide_eq_true ⟨chunk, fun ended => unended (ends ended)⟩

theorem lawful_step_iff (h : Kept chunkId desk) (lawful : Lawful chunkId desk) (event : Event) :
    Lawful chunkId (step chunkId desk event) ↔ Undisturbed chunkId desk event := by
  have still : Lawful chunkId desk ↔ True := iff_true_intro lawful
  cases event with
  | readLatest hubFloor => exact iff_true_intro (lawful.quiet rfl rfl fun _ inside => inside)
  | recordMint index leaseId nodeId retriesMax =>
    simp only [step, Undisturbed, UndisturbedMint, UndisturbedOpen]
    cases found : desk.pending[index]? with
    | none => exact still
    | some p =>
      cases p with
      | mint latest hubFloor seen =>
        have knows := h.knows _ (List.mem_of_getElem? found)
        by_cases fresh : FreshLease desk.store leaseId
        · simp only [fresh, if_true, true_implies]
          exact lawful_commitMint_iff lawful knows.2 leaseId nodeId retriesMax
        · simp only [fresh, if_false, false_implies]
          exact still
      | takeover => exact still
      | ending => exact still
  | readScope facts force =>
    simp only [step, Undisturbed]
    split
    · exact still
    · exact iff_true_intro (lawful.quiet rfl rfl fun _ inside => inside)
  | recordTakeover index takeoverId openedAt =>
    simp only [step, Undisturbed, UndisturbedMint, UndisturbedOpen]
    cases found : desk.pending[index]? with
    | none => exact still
    | some p =>
      cases p with
      | mint => exact still
      | takeover admission seen seenTakeovers =>
        have knows := h.knows _ (List.mem_of_getElem? found)
        by_cases fresh : FreshTakeover desk.store takeoverId
        · simp only [fresh, if_true, true_implies]
          exact lawful_commitTakeover_iff lawful knows fresh openedAt
        · simp only [fresh, if_false, false_implies]
          exact still
      | ending => exact still
  | readCloseScope takeoverId =>
    simp only [step, Undisturbed]
    split
    · exact iff_true_intro (lawful.quiet rfl rfl fun _ inside => inside)
    · exact still
  | recordTakeoverEnd index =>
    simp only [step, Undisturbed]
    split
    · refine iff_true_intro (lawful.quiet rfl rfl ?_)
      exact fun _ inside => List.mem_append_left _ inside
    · exact still
  | closeLease closure => exact iff_true_intro (lawful.quiet rfl rfl fun _ inside => inside)
  | lose index => exact iff_true_intro (lawful.quiet rfl rfl fun _ inside => inside)

/-- A chunk this runner has never held. -/
theorem kept_start (store : Store) : Kept chunkId ⟨store, [], []⟩ :=
  ⟨fun _ none_ => absurd none_ List.not_mem_nil, fun _ none_ => absurd none_ List.not_mem_nil⟩

theorem lawful_start {store : Store} (noTakeovers : ∀ t ∈ store.takeovers, t.chunkId ≠ chunkId) :
    Lawful chunkId ⟨store, [], []⟩ := by
  refine lawful_of_rising List.Pairwise.nil ?_
  have none_ : openTakeovers store chunkId = [] := by
    rw [List.eq_nil_iff_forall_not_mem]
    intro t open_
    obtain ⟨inside, chunk, -⟩ := mem_openTakeovers.mp open_
    exact noTakeovers t inside chunk
  rw [none_]
  exact Nat.zero_le 1

/-- Over every interleaving the epochs stay lawful exactly when no write is disturbed: epochs
distinct and rising, one takeover open at most, no lease at or below a fence committed before it. -/
theorem epochs_lawful_iff {store : Store} (noTakeovers : ∀ t ∈ store.takeovers, t.chunkId ≠ chunkId)
    (events : List Event) :
    Throughout (Lawful chunkId) (step chunkId) ⟨store, [], []⟩ events ↔
      Meeting (Undisturbed chunkId) (step chunkId) ⟨store, [], []⟩ events := by
  have start : Kept chunkId ⟨store, [], []⟩ ∧ Lawful chunkId ⟨store, [], []⟩ :=
    ⟨kept_start store, lawful_start noTakeovers⟩
  have kept : ∀ desk event, Kept chunkId desk ∧ Lawful chunkId desk →
      Undisturbed chunkId desk event →
      Kept chunkId (step chunkId desk event) ∧ Lawful chunkId (step chunkId desk event) := by
    rintro desk event ⟨h, lawful⟩ undisturbed
    exact ⟨h.step event, (lawful_step_iff h lawful event).mpr undisturbed⟩
  constructor
  · refine fun lawful => lawful.meeting ?_ kept start
    rintro desk event ⟨h, before⟩ after_
    exact (lawful_step_iff h before event).mp after_
  · exact fun undisturbed => undisturbed.throughout (fun _ h => h.2) kept start

/-- A mint, a forced takeover of its lease, the takeover's end and the next mint, one by one. -/
theorem epochs_lawful_iff_serial :
    Throughout (Lawful "ch_1") (step "ch_1") ⟨{}, [], []⟩
      [.readLatest 3, .recordMint 0 "ls_1" "nd_a" 1,
        .readScope ⟨["/w"], some "se_1", false, false, false⟩ true, .recordTakeover 0 "tk_1" 5,
        .readCloseScope "tk_1", .recordTakeoverEnd 0, .readLatest 3, .recordMint 0 "ls_2" "nd_a" 1] :=
  (epochs_lawful_iff (by decide) _).mpr (by decide +kernel)

/-- The scope of a forced takeover, read while the lease of epoch 1 is live; the lease closes and
its retry is minted at 2; then the takeover is recorded, its fence at 2 as well. -/
def overtakenFence : List Event :=
  [.readLatest 0, .recordMint 0 "ls_1" "nd_a" 1,
    .readScope ⟨["/w"], some "se_1", false, false, false⟩ true,
    .closeLease ⟨"ls_1", "ch_1", "nd_a", .failed⟩, .readLatest 0, .recordMint 1 "ls_2" "nd_a" 1,
    .recordTakeover 0 "tk_1" 5]

/-- Two requests that read the chunk before either had recorded its takeover. -/
def twoRequests : List Event :=
  [.readLatest 0, .recordMint 0 "ls_1" "nd_a" 1,
    .readScope ⟨["/w"], some "se_1", false, true, false⟩ false,
    .readScope ⟨["/w"], some "se_1", false, true, false⟩ false,
    .recordTakeover 0 "tk_1" 5, .recordTakeover 0 "tk_2" 5]

/-- The fence and the retry share an epoch, and two takeovers of one chunk are open at once. -/
theorem epochs_clash :
    (overtakenFence.foldl (step "ch_1") ⟨{}, [], []⟩).log =
        [.lease 1, .lease 2, .fence 2] ∧
      (openTakeovers (twoRequests.foldl (step "ch_1") ⟨{}, [], []⟩).store "ch_1").length = 2 ∧
      ¬ Lawful "ch_1" (overtakenFence.foldl (step "ch_1") ⟨{}, [], []⟩) ∧
      ¬ Lawful "ch_1" (twoRequests.foldl (step "ch_1") ⟨{}, [], []⟩) := by
  have log : (overtakenFence.foldl (step "ch_1") ⟨{}, [], []⟩).log =
      [.lease 1, .lease 2, .fence 2] := by decide +kernel
  have two : (openTakeovers (twoRequests.foldl (step "ch_1") ⟨{}, [], []⟩).store
      "ch_1").length = 2 := by decide +kernel
  refine ⟨log, two, ?_, ?_⟩
  · intro lawful
    have distinct := lawful.distinct
    rw [log] at distinct
    exact absurd distinct (by decide)
  · intro lawful
    have oneOpen := lawful.oneOpen
    rw [two] at oneOpen
    exact absurd oneOpen (by decide)

end Blizzard.TakeoverEpochs
