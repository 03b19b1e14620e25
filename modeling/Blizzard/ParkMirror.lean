import Blizzard.FactSequence
import Blizzard.TransitionRuns

/-! # The checker beside the store

A park the checker calls open is one no resume's instant reaches; the store keeps a
park open until a resume is appended after it. The two answer alike along a run just
as long as the clock orders each park and resume of an open lease the way they were
appended. The held bindings are judged by number on both sides. -/
namespace Blizzard.ParkMirror
open HubTables FactSequence TransitionRuns

/-- A write of a runner of the host. A lease's rows are written by the runner that minted it;
`other` is a lease mint or a requeue, which takes a number of the same counter. -/
inductive FactWrite
  | bind (runnerId : RunnerId) (binding : EnvBinding)
  | release (runnerId : RunnerId) (release : BindingRelease)
  | park (park : PausePark)
  | resume (resume : PauseParkResume)
  | close (leaseId : String) (closedAt : Instant)
  | other (runnerId : RunnerId)
  deriving DecidableEq, Repr

/-- The host's tables after one write. -/
def written (minter : String → RunnerId) (store : HostStore) : FactWrite → HostStore
  | .bind runnerId binding => recordBinding store runnerId binding
  | .release runnerId release => recordRelease store runnerId release
  | .park park => recordPausePark store (minter park.leaseId) park
  | .resume resume => recordPauseParkResume store (minter resume.leaseId) resume
  | .close leaseId closedAt => recordClosure store (minter leaseId) leaseId closedAt
  | .other runnerId => store.advanceCounter runnerId

/-- What a check reports of a park. -/
def told (row : Sequenced PausePark) : String × Instant := (row.values.leaseId, row.values.parkedAt)

/-- The checker answers the parks the stores keep open. -/
def ParksMirrored (store : HostStore) : Prop :=
  openPauseParks store = (keptParks store).map told

/-- The checker answers the bindings the stores keep held. -/
def BindingsMirrored (store : HostStore) : Prop :=
  heldBindings store = (keptBindings store).map fun row =>
    (row.values.chunkId, row.values.environmentId, row.values.workspaceId)

def closedLease (store : HostStore) (leaseId : String) : Prop :=
  leaseId ∈ store.leaseClosures.map (·.leaseId)

instance : Decidable (closedLease store leaseId) :=
  inferInstanceAs (Decidable (_ ∈ _))

/-- The clock orders the write after what was appended before it: a park of an open lease reads
later than every resume of the lease, and a resume no earlier than any park of the lease that no
resume was appended after. -/
def ClockOrdered (store : HostStore) : FactWrite → Prop
  | .park park => closedLease store park.leaseId ∨ ∀ row ∈ store.pauseParkResumes,
      row.values.leaseId = park.leaseId → row.values.resumedAt < park.parkedAt
  | .resume resume => closedLease store resume.leaseId ∨ ∀ row ∈ store.pauseParks,
      row.values.leaseId = resume.leaseId →
      (∀ earlier ∈ store.pauseParkResumes, earlier.values.leaseId = resume.leaseId →
        earlier.seq ≤ row.seq) → row.values.parkedAt ≤ resume.resumedAt
  | _ => True

/-! ## Bindings -/

/-- The two read one predicate, whatever was written. -/
theorem bindings_mirrored (store : HostStore) : BindingsMirrored store := by
  have same : ∀ row : Sequenced EnvBinding, heldBinding store row.runnerId row =
      !store.bindingReleases.any fun release =>
        decide (release.values.chunkId = row.values.chunkId) &&
          decide (release.values.environmentId = row.values.environmentId) &&
          decide (release.runnerId = row.runnerId) && decide (row.seq < release.seq) := by
    intro row
    rw [heldBinding]
    congr 2
    funext release
    generalize decide (release.runnerId = row.runnerId) = runner
    cases runner <;> simp
  rw [BindingsMirrored, heldBindings, keptBindings]
  simp only [same]

/-! ## What every run keeps -/

/-- Every row of a lease is its minter's, and none is numbered past its runner's counter. -/
structure Standing (minter : String → RunnerId) (store : HostStore) : Prop where
  parks : ∀ row ∈ store.pauseParks, row.runnerId = minter row.values.leaseId ∧
    row.seq ≤ store.factCounters row.runnerId
  resumes : ∀ row ∈ store.pauseParkResumes, row.runnerId = minter row.values.leaseId ∧
    row.seq ≤ store.factCounters row.runnerId
  closures : ∀ row ∈ store.leaseClosures, row.runnerId = minter row.leaseId

variable {minter : String → RunnerId} {store : HostStore}

theorem factCounters_advance (store : HostStore) (runnerId other : RunnerId) :
    store.factCounters other ≤ (store.advanceCounter runnerId).factCounters other := by
  by_cases own : other = runnerId
  · subst own
    simp [HostStore.advanceCounter, HostStore.nextSeq]
  · simp [HostStore.advanceCounter, own]

theorem nextSeq_eq_counter (store : HostStore) (runnerId : RunnerId) :
    store.nextSeq runnerId = (store.advanceCounter runnerId).factCounters runnerId := by
  simp [HostStore.advanceCounter]

theorem Standing.advance (standing : Standing minter store) (runnerId : RunnerId) :
    Standing minter (store.advanceCounter runnerId) where
  parks row mem :=
    ⟨(standing.parks row mem).1, Nat.le_trans (standing.parks row mem).2 (factCounters_advance _ _ _)⟩
  resumes row mem :=
    ⟨(standing.resumes row mem).1, Nat.le_trans (standing.resumes row mem).2 (factCounters_advance _ _ _)⟩
  closures := standing.closures

theorem Standing.kept (standing : Standing minter store) (write : FactWrite) :
    Standing minter (written minter store write) := by
  cases write with
  | bind runnerId binding =>
    have advanced := standing.advance runnerId
    exact ⟨advanced.parks, advanced.resumes, advanced.closures⟩
  | release runnerId release =>
    have advanced := standing.advance runnerId
    exact ⟨advanced.parks, advanced.resumes, advanced.closures⟩
  | other runnerId => exact standing.advance runnerId
  | park park =>
    have advanced := standing.advance (minter park.leaseId)
    refine ⟨?_, advanced.resumes, advanced.closures⟩
    intro row mem
    rcases List.mem_append.mp mem with old | new
    · exact advanced.parks row old
    · rw [List.mem_singleton.mp new]
      exact ⟨rfl, Nat.le_of_eq (nextSeq_eq_counter store _)⟩
  | resume resume =>
    have advanced := standing.advance (minter resume.leaseId)
    refine ⟨advanced.parks, ?_, advanced.closures⟩
    intro row mem
    rcases List.mem_append.mp mem with old | new
    · exact advanced.resumes row old
    · rw [List.mem_singleton.mp new]
      exact ⟨rfl, Nat.le_of_eq (nextSeq_eq_counter store _)⟩
  | close leaseId closedAt =>
    refine ⟨standing.parks, standing.resumes, ?_⟩
    intro row mem
    rcases List.mem_append.mp mem with old | new
    · exact standing.closures row old
    · rw [List.mem_singleton.mp new]

/-! ## Openness on both sides -/

/-- The store keeps a park open while its lease is open and no resume of it came after. -/
theorem Standing.openPausePark_iff (standing : Standing minter store)
    {row : Sequenced PausePark} (own : row.runnerId = minter row.values.leaseId) :
    openPausePark store row.runnerId row = true ↔ ¬ closedLease store row.values.leaseId ∧
      ∀ resume ∈ store.pauseParkResumes, resume.values.leaseId = row.values.leaseId →
        resume.seq ≤ row.seq := by
  have closed : pauseParkLeaseUnclosed store row.runnerId row = true ↔
      ¬ closedLease store row.values.leaseId := by
    simp only [pauseParkLeaseUnclosed, closedLease, Bool.not_eq_true', List.any_eq_false,
      Bool.and_eq_true, decide_eq_true_eq, List.mem_map, not_exists, not_and]
    constructor
    · intro unclosed closure mem named
      exact unclosed closure mem (by rw [standing.closures closure mem, named, own]) named
    · intro unclosed closure mem _ named
      exact unclosed closure mem named
  have resumed : unresumedPausePark store row.runnerId row = true ↔
      ∀ resume ∈ store.pauseParkResumes, resume.values.leaseId = row.values.leaseId →
        resume.seq ≤ row.seq := by
    simp only [unresumedPausePark, Bool.not_eq_true', List.any_eq_false, Bool.and_eq_true,
      decide_eq_true_eq, not_and, Nat.not_lt]
    constructor
    · intro unresumed resume mem named
      exact unresumed resume mem ⟨by rw [(standing.resumes resume mem).1, named, own], named⟩
    · intro unresumed resume mem named
      exact unresumed resume mem named.2
  rw [openPausePark, Bool.and_eq_true, closed, resumed, and_comm]

/-- The checker's test of a reported park. -/
def reachesNone (store : HostStore) (park : String × Instant) : Bool :=
  decide (park.1 ∉ store.leaseClosures.map (·.leaseId)) &&
    !(resumesOf store park.1).any fun resumedAt => decide (park.2 ≤ resumedAt)

theorem openPauseParks_eq (store : HostStore) :
    openPauseParks store = (store.pauseParks.map told).filter (reachesNone store) := rfl

theorem reachesNone_iff {park : String × Instant} : reachesNone store park = true ↔
    ¬ closedLease store park.1 ∧ ∀ resume ∈ store.pauseParkResumes,
      resume.values.leaseId = park.1 → resume.values.resumedAt < park.2 := by
  simp only [reachesNone, resumesOf, closedLease, Bool.and_eq_true, decide_eq_true_eq,
    Bool.not_eq_true', List.any_eq_false, List.forall_mem_map, List.mem_filter, and_imp, Int.not_le]

theorem closedLease_close {leaseId other : String} {runnerId : RunnerId} {closedAt : Instant} :
    closedLease (recordClosure store runnerId leaseId closedAt) other ↔
      closedLease store other ∨ other = leaseId := by
  simp [closedLease, recordClosure]

theorem forall_resumes_resume {runnerId : RunnerId} {resume : PauseParkResume}
    {P : Sequenced PauseParkResume → Prop} :
    (∀ row ∈ (recordPauseParkResume store runnerId resume).pauseParkResumes, P row) ↔
      (∀ row ∈ store.pauseParkResumes, P row) ∧ P (store.factRow runnerId resume) := by
  simp [recordPauseParkResume, or_imp, forall_and]

/-! ### A park -/

/-- The stores keep the parks they kept, and the new one where its lease is open. -/
theorem Standing.kept_park (standing : Standing minter store) (park : PausePark) :
    (keptParks (written minter store (.park park))).map told = (keptParks store).map told ++
      if closedLease store park.leaseId then [] else [(park.leaseId, park.parkedAt)] := by
  let row := store.factRow (minter park.leaseId) park
  have split : keptParks (written minter store (.park park)) = keptParks store ++
      [row].filter fun row => openPausePark store row.runnerId row :=
    List.filter_append ..
  have fresh : openPausePark store row.runnerId row = true ↔ ¬ closedLease store park.leaseId := by
    rw [standing.openPausePark_iff (rfl : row.runnerId = minter row.values.leaseId)]
    refine ⟨And.left, fun unclosed => ⟨unclosed, ?_⟩⟩
    intro resume mem named
    obtain ⟨own, numbered⟩ := standing.resumes resume mem
    rw [own, named] at numbered
    exact Nat.le_succ_of_le numbered
  rw [split, List.map_append]
  congr 1
  by_cases closed : closedLease store park.leaseId
  · have dropped : [row].filter (fun row => openPausePark store row.runnerId row) = [] :=
      List.filter_cons_of_neg fun open_ => fresh.mp open_ closed
    rw [if_pos closed, dropped]
    rfl
  · have kept : [row].filter (fun row => openPausePark store row.runnerId row) = [row] :=
      List.filter_cons_of_pos (fresh.mpr closed)
    rw [if_neg closed, kept]
    rfl

/-- The checker answers what it answered, and the new park where no instant reaches it. -/
theorem mirror_park (store : HostStore) (park : PausePark) :
    openPauseParks (written minter store (.park park)) = openPauseParks store ++
      [(park.leaseId, park.parkedAt)].filter (reachesNone store) := by
  have rows : (written minter store (.park park)).pauseParks.map told =
      store.pauseParks.map told ++ [(park.leaseId, park.parkedAt)] := List.map_append
  have test : reachesNone (written minter store (.park park)) = reachesNone store := rfl
  rw [openPauseParks_eq, openPauseParks_eq, rows, test, List.filter_append]

/-! ### A resume -/

/-- Every park of the resumed lease is closed in its store. -/
theorem Standing.kept_resume (standing : Standing minter store) (resume : PauseParkResume) :
    (keptParks (written minter store (.resume resume))).map told =
      ((keptParks store).map told).filter fun park => decide (park.1 ≠ resume.leaseId) := by
  have next := standing.kept (.resume resume)
  have rows : keptParks (written minter store (.resume resume)) =
      (keptParks store).filter fun row => decide (row.values.leaseId ≠ resume.leaseId) := by
    rw [keptParks, keptParks, List.filter_filter]
    refine List.filter_congr fun row mem => ?_
    obtain ⟨own, numbered⟩ := standing.parks row mem
    rw [Bool.eq_iff_iff, Bool.and_eq_true, decide_eq_true_eq, next.openPausePark_iff own,
      standing.openPausePark_iff own]
    simp only [written, forall_resumes_resume]
    constructor
    · intro ⟨unclosed, unresumed, newest⟩
      refine ⟨?_, unclosed, unresumed⟩
      intro named
      have past : store.nextSeq (minter resume.leaseId) ≤ row.seq := newest named.symm
      rw [← named, ← own] at past
      exact absurd (Nat.le_trans past numbered) (Nat.not_succ_le_self _)
    · intro ⟨apart, unclosed, unresumed⟩
      exact ⟨unclosed, unresumed, fun named => absurd named.symm apart⟩
  rw [rows, List.filter_map]
  rfl

/-- The checker drops the parks of the lease the resume's instant reaches. -/
theorem mirror_resume (store : HostStore) (resume : PauseParkResume) :
    openPauseParks (written minter store (.resume resume)) = (openPauseParks store).filter fun park =>
      decide (park.1 = resume.leaseId → resume.resumedAt < park.2) := by
  rw [openPauseParks_eq, openPauseParks_eq, List.filter_filter]
  refine List.filter_congr fun park _ => ?_
  rw [Bool.eq_iff_iff, Bool.and_eq_true, decide_eq_true_eq, reachesNone_iff, reachesNone_iff]
  simp only [written, forall_resumes_resume]
  constructor
  · intro ⟨unclosed, unreached, new⟩
    exact ⟨fun named => new named.symm, unclosed, unreached⟩
  · intro ⟨new, unclosed, unreached⟩
    exact ⟨unclosed, unreached, fun named => new named.symm⟩

/-! ### A closure -/

theorem Standing.kept_close (standing : Standing minter store) (leaseId : String)
    (closedAt : Instant) :
    (keptParks (written minter store (.close leaseId closedAt))).map told =
      ((keptParks store).map told).filter fun park => decide (park.1 ≠ leaseId) := by
  have next := standing.kept (.close leaseId closedAt)
  have rows : keptParks (written minter store (.close leaseId closedAt)) =
      (keptParks store).filter fun row => decide (row.values.leaseId ≠ leaseId) := by
    rw [keptParks, keptParks, List.filter_filter]
    refine List.filter_congr fun row mem => ?_
    have own := (standing.parks row mem).1
    rw [Bool.eq_iff_iff, Bool.and_eq_true, decide_eq_true_eq, next.openPausePark_iff own,
      standing.openPausePark_iff own]
    simp only [written, closedLease_close, not_or]
    tauto
  rw [rows, List.filter_map]
  rfl

theorem mirror_close (store : HostStore) (leaseId : String) (closedAt : Instant) :
    openPauseParks (written minter store (.close leaseId closedAt)) =
      (openPauseParks store).filter fun park => decide (park.1 ≠ leaseId) := by
  rw [openPauseParks_eq, openPauseParks_eq, List.filter_filter]
  refine List.filter_congr fun park _ => ?_
  rw [Bool.eq_iff_iff, Bool.and_eq_true, decide_eq_true_eq, reachesNone_iff, reachesNone_iff]
  simp only [written, closedLease_close, not_or]
  tauto

/-! ## One write and a run -/

/-- A write the clock orders keeps the two answers alike. -/
theorem Standing.mirrored (standing : Standing minter store) {write : FactWrite}
    (mirrored : ParksMirrored store) (ordered : ClockOrdered store write) :
    ParksMirrored (written minter store write) := by
  cases write with
  | bind runnerId binding => exact mirrored
  | release runnerId release => exact mirrored
  | other runnerId => exact mirrored
  | close leaseId closedAt =>
    rw [ParksMirrored, mirror_close, standing.kept_close, mirrored]
  | park park =>
    rw [ParksMirrored, mirror_park, standing.kept_park, mirrored]
    congr 1
    by_cases closed : closedLease store park.leaseId
    · rw [if_pos closed]
      exact List.filter_cons_of_neg fun reached => (reachesNone_iff.mp reached).1 closed
    · rw [if_neg closed]
      exact List.filter_cons_of_pos
        (reachesNone_iff.mpr ⟨closed, ordered.resolve_left closed⟩)
  | resume resume =>
    rw [ParksMirrored, mirror_resume, standing.kept_resume, mirrored]
    refine List.filter_congr fun park mem => ?_
    obtain ⟨row, kept, rfl⟩ := List.mem_map.mp mem
    obtain ⟨appended, open_⟩ := List.mem_filter.mp kept
    obtain ⟨unclosed, unresumed⟩ :=
      (standing.openPausePark_iff (standing.parks row appended).1).mp open_
    rw [decide_eq_decide]
    constructor
    · intro passed named
      have parked : row.values.leaseId = resume.leaseId := named
      rw [parked] at unclosed unresumed
      have reached := ordered.resolve_left unclosed row appended parked unresumed
      exact absurd (passed named) (Int.not_lt.mpr reached)
    · intro apart named
      exact absurd named apart

/-- Answers that stay alike over a write show that the clock ordered it. -/
theorem Standing.ordered (standing : Standing minter store) {write : FactWrite}
    (before : ParksMirrored store) (mirrored : ParksMirrored (written minter store write)) :
    ClockOrdered store write := by
  cases write with
  | bind runnerId binding => trivial
  | release runnerId release => trivial
  | other runnerId => trivial
  | close leaseId closedAt => trivial
  | park park =>
    by_cases closed : closedLease store park.leaseId
    · exact .inl closed
    · rw [ParksMirrored, mirror_park, standing.kept_park, before, if_neg closed] at mirrored
      have kept := List.append_cancel_left mirrored
      have mem : (park.leaseId, park.parkedAt) ∈
          [(park.leaseId, park.parkedAt)].filter (reachesNone store) := by
        rw [kept]
        exact List.mem_singleton_self _
      exact .inr (reachesNone_iff.mp (List.mem_filter.mp mem).2).2
  | resume resume =>
    by_cases closed : closedLease store resume.leaseId
    · exact .inl closed
    · refine .inr fun row appended named unresumed => ?_
      rw [ParksMirrored, mirror_resume, standing.kept_resume, before] at mirrored
      rw [← named] at closed unresumed
      have open_ := (standing.openPausePark_iff (standing.parks row appended).1).mpr
        ⟨closed, unresumed⟩
      have told_ : told row ∈ (keptParks store).map told :=
        List.mem_map_of_mem (List.mem_filter.mpr ⟨appended, open_⟩)
      -- A park still ahead of the resume's instant would stay with the checker alone.
      refine Int.not_lt.mp fun ahead => ?_
      have stays : told row ∈ ((keptParks store).map told).filter fun park =>
          decide (park.1 = resume.leaseId → resume.resumedAt < park.2) :=
        List.mem_filter.mpr ⟨told_, decide_eq_true fun _ => ahead⟩
      rw [mirrored] at stays
      exact absurd named (of_decide_eq_true (List.mem_filter.mp stays).2)

/-- Along a run the checker answers the parks the stores keep open exactly as long as the clock
orders every park and resume of an open lease as they were appended; it answers the held bindings
in every run. -/
theorem parks_mirrored_iff_clock_ordered (minter : String → RunnerId) (writes : List FactWrite) :
    (Throughout ParksMirrored (written minter) {} writes ↔
      Meeting ClockOrdered (written minter) {} writes) ∧
    Throughout BindingsMirrored (written minter) {} writes := by
  have start : Standing minter {} ∧ ParksMirrored {} := by
    refine ⟨⟨?_, ?_, ?_⟩, rfl⟩ <;> simp
  have kept : ∀ store write, Standing minter store ∧ ParksMirrored store →
      ClockOrdered store write →
      Standing minter (written minter store write) ∧ ParksMirrored (written minter store write) :=
    fun _ write kept ordered => ⟨kept.1.kept write, kept.1.mirrored kept.2 ordered⟩
  refine ⟨⟨?_, ?_⟩, Throughout.of_all bindings_mirrored _ _⟩
  · exact Throughout.meeting (fun _ _ stood next => stood.1.ordered stood.2 next) kept start
  · exact Meeting.throughout (fun _ stood => stood.2) kept start

/-- A park, its resume and a second park all read at one instant: the store keeps the second open,
and the checker calls both closed. -/
theorem second_park_unseen : ¬ Throughout ParksMirrored (written fun _ => "rn_1") {}
    [.park ⟨"ls_1", "ch_1", 5⟩, .resume ⟨"ls_1", 5⟩, .park ⟨"ls_1", "ch_1", 5⟩] := by
  intro mirrored
  have last : openPauseParks _ = _ := mirrored.last
  revert last
  decide

end Blizzard.ParkMirror
