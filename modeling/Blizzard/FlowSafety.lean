import Blizzard.FlowLines

/-! # What every write keeps of a flow line

Keys and references of the tables, one open turn for a submission and for each flow it holds, the
generations of a visit, and a fact on each flow for each turn ended and each submission closed. -/
namespace Blizzard.FlowSafety
open HubTables FlowLines

variable {t t' : FlowTables}

/-! ## The invariant -/

/-- The facts of a kind on a flow for a submission: their outcomes and instants. -/
def told (t : FlowTables) (kind : FlowChangeKind) (submissionId flowId : String) :
    List (Option String × Option Instant) :=
  (t.facts.filter fun f => f.kind = kind ∧ f.submissionId = submissionId ∧ f.flowId = flowId).map
    fun f => (f.outcome, some f.at_)

/-- How and when a submission's ended turns ended. -/
def ended (t : FlowTables) (submissionId : String) : List (Option String × Option Instant) :=
  (t.turns.filter fun turn => turn.submissionId = submissionId ∧ turn.endedAt ≠ none).map
    fun turn => (turn.outcome, turn.endedAt)

def closedWith (t : FlowTables) (submissionId : String) : List (Option String × Option Instant) :=
  (t.closures.filter (·.submissionId = submissionId)).map fun c => (some c.outcome, some c.closedAt)

def SameVisit (a b : SubmissionRow) : Prop :=
  a.chunkId = b.chunkId ∧ a.nodeId = b.nodeId ∧ a.epoch = b.epoch

/-- A flow that two submissions hold. -/
def Shares (t : FlowTables) (a b : String) : Prop :=
  ∃ flowId, ⟨a, flowId⟩ ∈ t.held ∧ ⟨b, flowId⟩ ∈ t.held

/-- The primary keys and the references of the tables. -/
structure Keyed (t : FlowTables) : Prop where
  ids : (t.submissions.map (·.submissionId)).Nodup
  flowIds : (t.flows.map (·.flowId)).Nodup
  held : t.held.Nodup
  closures : (t.closures.map (·.submissionId)).Nodup
  turnIds : (t.turns.map (·.turnId)).Nodup
  heldFlow : ∀ h ∈ t.held, h.flowId ∈ t.flows.map (·.flowId)
  heldBy : ∀ h ∈ t.held, h.submissionId ∈ t.submissions.map (·.submissionId)
  closureOf : ∀ c ∈ t.closures, c.submissionId ∈ t.submissions.map (·.submissionId)
  turnOf : ∀ turn ∈ t.turns, turn.submissionId ∈ t.submissions.map (·.submissionId)

/-- Two open turns of one submission, or of two that share a flow, are one turn. -/
def OneTurn (t : FlowTables) : Prop :=
  ∀ a ∈ t.turns, ∀ b ∈ t.turns, a.endedAt = none → b.endedAt = none →
    a.submissionId = b.submissionId ∨ Shares t a.submissionId b.submissionId → a = b

/-- Each ended turn and each closure is told once on each flow its submission holds. -/
structure Told (t : FlowTables) : Prop where
  ended : ∀ s f, (told t .turnEnded s f).Perm (if ⟨s, f⟩ ∈ t.held then ended t s else [])
  closed : ∀ s f, (told t .withdrawn s f).Perm (if ⟨s, f⟩ ∈ t.held then closedWith t s else [])

/-- A visit's submissions have distinct generations, each earlier one closed `superseded`. -/
def Generations (t : FlowTables) : Prop :=
  ∀ a ∈ t.submissions, ∀ b ∈ t.submissions, SameVisit a b → a = b ∨
    a.generation < b.generation ∧ t.closedUnder a.submissionId = some turnSuperseded ∨
    b.generation < a.generation ∧ t.closedUnder b.submissionId = some turnSuperseded

structure LineInvariant (t : FlowTables) : Prop where
  keyed : Keyed t
  turnsOpen : ∀ turn ∈ t.turns, turn.endedAt = none → t.isOpen turn.submissionId
  arrivals : t.submissions.Pairwise fun a b => a.arrival < b.arrival
  oneTurn : OneTurn t
  told : Told t
  generations : Generations t

theorem lineInvariant_empty : LineInvariant {} where
  keyed :=
    { ids := List.nodup_nil
      flowIds := List.nodup_nil
      held := List.nodup_nil
      closures := List.nodup_nil
      turnIds := List.nodup_nil
      heldFlow := fun _ inside => nomatch inside
      heldBy := fun _ inside => nomatch inside
      closureOf := fun _ inside => nomatch inside
      turnOf := fun _ inside => nomatch inside }
  turnsOpen := fun _ inside => nomatch inside
  arrivals := List.Pairwise.nil
  oneTurn := fun _ inside => nomatch inside
  told :=
    { ended := fun s f => by simp [FlowSafety.told]
      closed := fun s f => by simp [FlowSafety.told] }
  generations := fun _ inside => nomatch inside

/-! ## Facts -/

theorem told_eq_of_facts (same : t'.facts = t.facts) (kind : FlowChangeKind) (s f : String) :
    told t' kind s f = told t kind s f := by
  rw [told, told, same]

/-- Writing one fact for each of several flows tells it once on each of them. -/
theorem told_writeFacts {flows : List FlowRow} (distinct : (flows.map (·.flowId)).Nodup)
    (submissionId : String) (chunkId : ChunkId) (kind : FlowChangeKind)
    (outcome revision : Option String) (at_ : Instant) (other : FlowChangeKind) (s f : String) :
    told (t.writeFacts flows submissionId chunkId kind outcome revision at_) other s f =
      told t other s f ++
        if other = kind ∧ s = submissionId ∧ f ∈ flows.map (·.flowId) then [(outcome, some at_)]
        else [] := by
  rw [told, FlowTables.writeFacts, List.filter_append, List.map_append, told]
  congr 1
  rw [List.filter_map, List.map_map]
  split
  next all =>
    obtain ⟨rfl, rfl, inside⟩ := all
    have one : (flows.filter fun flow => flow.flowId = f).length = 1 := by
      have counted := List.count_eq_one_of_mem distinct inside
      rw [List.count, List.countP_map, List.countP_eq_length_filter] at counted
      rw [← counted]
      congr 1
    obtain ⟨flow, single⟩ := List.length_eq_one_iff.mp one
    have kept : (flows.filter ((fun f' : FlowFactRow => decide (f'.kind = other ∧
        f'.submissionId = s ∧ f'.flowId = f)) ∘ fun flow : FlowRow =>
          ⟨flow.flowId, s, chunkId, other, outcome, revision, at_⟩)) = [flow] := by
      rw [← single]
      apply List.filter_congr
      intro flow _
      simp
    rw [kept]
    rfl
  next none_ =>
    rw [List.map_eq_nil_iff, List.filter_eq_nil_iff]
    intro flow inside holds
    rw [Function.comp_apply, decide_eq_true_iff] at holds
    obtain ⟨rfl, rfl, rfl⟩ := holds
    exact none_ ⟨rfl, rfl, List.mem_map_of_mem inside⟩

/-- The flows a submission holds are named by its held rows, each once. -/
theorem flowsHeld_perm (keyed : Keyed t) (submissionId : String) :
    ((t.flowsHeld submissionId).map (·.flowId)).Perm
      ((t.held.filter (·.submissionId = submissionId)).map (·.flowId)) := by
  rw [FlowTables.flowsHeld]
  refine ((List.perm_insertionSort _ _).map _).trans ?_
  rw [List.map_flatMap, ← List.flatMap_pure_eq_map]
  apply List.Perm.of_eq
  apply List.flatMap_congr
  intro h inside
  have stored := (List.mem_filter.mp inside).1
  have counted := List.count_eq_one_of_mem keyed.flowIds (keyed.heldFlow h stored)
  have filtered : (t.flows.filter fun flow => flow.flowId = h.flowId).map (·.flowId) =
      (t.flows.map (·.flowId)).filter (· = h.flowId) := by
    rw [List.filter_map]
    rfl
  have one : (t.flows.map (·.flowId)).filter (· = h.flowId) = [h.flowId] := by
    rw [← List.replicate_one, ← counted, ← List.filter_beq]
    apply List.filter_congr
    intro f _
    rw [beq_eq_decide]
  rw [filtered, one]
  rfl

theorem mem_flowsHeld (keyed : Keyed t) {submissionId flowId : String} :
    flowId ∈ (t.flowsHeld submissionId).map (·.flowId) ↔ ⟨submissionId, flowId⟩ ∈ t.held := by
  rw [(flowsHeld_perm keyed submissionId).mem_iff, List.mem_map]
  constructor
  · rintro ⟨⟨s, f⟩, inside, rfl⟩
    obtain ⟨stored, own⟩ := List.mem_filter.mp inside
    rw [decide_eq_true_iff] at own
    rw [← own]
    exact stored
  · intro stored
    exact ⟨_, List.mem_filter.mpr ⟨stored, decide_eq_true rfl⟩, rfl⟩

theorem flowsHeld_nodup (keyed : Keyed t) (submissionId : String) :
    ((t.flowsHeld submissionId).map (·.flowId)).Nodup := by
  rw [(flowsHeld_perm keyed submissionId).nodup_iff]
  apply List.Nodup.map_on
  · rintro ⟨s, f⟩ hx ⟨s', f'⟩ hy same
    have own := (List.mem_filter.mp hx).2
    have own' := (List.mem_filter.mp hy).2
    rw [decide_eq_true_iff] at own own'
    dsimp only at own own' same
    rw [own, own', same]
  · exact keyed.held.filter _

theorem not_told (inv : LineInvariant t) {kind : FlowChangeKind} {s : String}
    (neither : kind = .turnEnded ∨ kind = .withdrawn)
    (fresh : s ∉ t.submissions.map (·.submissionId)) (f : String) : told t kind s f = [] := by
  have unheld : (⟨s, f⟩ : HeldRow) ∉ t.held := fun stored => fresh (inv.keyed.heldBy _ stored)
  rcases neither with rfl | rfl
  · have perm := inv.told.ended s f
    rw [if_neg unheld] at perm
    exact List.perm_nil.mp perm
  · have perm := inv.told.closed s f
    rw [if_neg unheld] at perm
    exact List.perm_nil.mp perm

/-! ## Submitting -/

/-- Making the flows of several resources only adds flows, and answers stored ones. -/
theorem flowsFor_spec {mint : String → String} {at_ : Instant} {resources : List FlowResource} :
    ∀ {t t' : FlowTables} {flows : List FlowRow},
      flowsFor mint at_ t resources = some (t', flows) → (t.flows.map (·.flowId)).Nodup →
      ∃ made, t' = { t with flows := t.flows ++ made } ∧ (t'.flows.map (·.flowId)).Nodup ∧
        ∀ flow ∈ flows, flow ∈ t'.flows := by
  induction resources with
  | nil =>
    intro t t' flows made keyed
    cases made
    exact ⟨[], by rw [List.append_nil], keyed, fun _ inside => nomatch inside⟩
  | cons r rest ih =>
    intro t t' flows made keyed
    rw [flowsFor, Option.bind_eq_bind, Option.bind_eq_some_iff] at made
    obtain ⟨⟨first, flow⟩, one, made⟩ := made
    rw [Option.bind_eq_bind, Option.bind_eq_some_iff] at made
    obtain ⟨⟨last, others⟩, more, answer⟩ := made
    cases answer
    rw [FlowTables.flowFor] at one
    split at one
    next row found =>
      cases one
      obtain ⟨made, rfl, nodup, stored⟩ := ih more keyed
      refine ⟨made, rfl, nodup, ?_⟩
      intro other inside
      rcases List.mem_cons.mp inside with rfl | inside
      · exact List.mem_append_left _ (List.mem_of_find?_eq_some found)
      · exact stored other inside
    next missing =>
      dsimp only at one
      split at one
      next => cases one
      next fresh =>
        cases one
        have nodup : ((t.flows ++ [(⟨mint r.resource, r, at_⟩ : FlowRow)]).map (·.flowId)).Nodup := by
          rw [List.map_append, List.nodup_append_comm]
          refine List.nodup_cons.mpr (And.intro ?_ keyed)
          intro inside
          obtain ⟨row, stored, same⟩ := List.mem_map.mp inside
          exact fresh (List.any_eq_true.mpr ⟨row, stored, decide_eq_true same⟩)
        obtain ⟨made, rfl, nodup, stored⟩ := ih more nodup
        refine ⟨⟨mint r.resource, r, at_⟩ :: made, ?_, nodup, ?_⟩
        · rw [List.append_assoc]
          rfl
        · intro other inside
          rcases List.mem_cons.mp inside with rfl | inside
          · apply List.mem_append_left
            exact List.mem_append_right _ (List.mem_singleton_self _)
          · exact stored other inside

/-- What a submit writes: one submission after every arrival, with the flows it holds. -/
theorem submitVisit_spec {submissionId : String} {mint : String → String} {chunkId : ChunkId}
    {nodeId : String} {epoch : ℤ} {resources : List FlowResource} {at_ : Instant}
    (keyed : (t.flows.map (·.flowId)).Nodup)
    (wrote : t.submitVisit submissionId mint chunkId nodeId epoch resources at_ = some t') :
    ∃ generation arrival flows made,
      t.generation chunkId nodeId epoch = some generation ∧
      submissionId ∉ t.submissions.map (·.submissionId) ∧
      (∀ s ∈ t.submissions, s.arrival < arrival) ∧
      (flows.map FlowRow.flowId).Nodup ∧ (∀ flow ∈ flows, flow ∈ t.flows ++ made) ∧
      ((t.flows ++ made).map FlowRow.flowId).Nodup ∧
      t' = FlowTables.writeFacts { t with
          flows := t.flows ++ made
          submissions := t.submissions ++
            [⟨submissionId, chunkId, nodeId, epoch, generation, arrival, at_⟩]
          held := t.held ++ flows.map fun flow => ⟨submissionId, flow.flowId⟩ }
        flows submissionId chunkId .submitted none none at_ := by
  rw [FlowTables.submitVisit, Option.bind_eq_bind, Option.bind_eq_some_iff] at wrote
  obtain ⟨generation, read, wrote⟩ := wrote
  rw [FlowTables.submit] at wrote
  split at wrote
  next => cases wrote
  next =>
    split at wrote
    next => cases wrote
    next fresh =>
      obtain ⟨⟨grown, flows⟩, made, wrote⟩ := Option.bind_eq_some_iff.mp wrote
      dsimp only at wrote
      split at wrote
      next distinct =>
        cases wrote
        obtain ⟨added, rfl, nodup, stored⟩ := flowsFor_spec made keyed
        refine ⟨generation, _, flows, added, read, ?_, ?_, distinct, stored, nodup, rfl⟩
        · intro inside
          obtain ⟨row, stored, same⟩ := List.mem_map.mp inside
          exact fresh (List.any_eq_true.mpr ⟨row, stored, decide_eq_true same⟩)
        · intro s inside
          have listed := List.mem_map_of_mem (f := fun s => s.arrival) inside
          cases newest : (t.submissions.map (·.arrival)).max? with
          | none =>
            rw [List.max?_eq_none_iff] at newest
            rw [newest] at listed
            cases listed
          | some top =>
            have below := (List.max?_eq_some_iff.mp newest).2 _ listed
            exact Nat.lt_succ_of_le below
      next => cases wrote

/-- A generation read for a visit follows every submission the visit has. -/
theorem generation_follows (generations : Generations t) {chunkId : ChunkId} {nodeId : String}
    {epoch : ℤ} {generation : ℕ} (read : t.generation chunkId nodeId epoch = some generation)
    {s : SubmissionRow} (stored : s ∈ t.visit chunkId nodeId epoch) :
    s.generation < generation ∧ t.closedUnder s.submissionId = some turnSuperseded := by
  rw [FlowTables.generation, FlowTables.submissionForVisit] at read
  split at read
  next none_ =>
    rw [List.argmax_eq_none] at none_
    rw [none_] at stored
    cases stored
  next latest found =>
    split at read
    next closed =>
      cases read
      have newest := List.le_of_mem_argmax stored found
      have mem := List.argmax_mem found
      obtain ⟨inside, visits⟩ := List.mem_filter.mp stored
      obtain ⟨latestIn, latestVisits⟩ := List.mem_filter.mp mem
      rw [decide_eq_true_iff] at visits latestVisits
      have same : SameVisit s latest :=
        ⟨visits.1.trans latestVisits.1.symm, visits.2.1.trans latestVisits.2.1.symm,
          visits.2.2.trans latestVisits.2.2.symm⟩
      rcases generations s inside latest latestIn same with rfl | ⟨before, superseded⟩ | ⟨after, -⟩
      · exact ⟨Nat.lt_succ_self _, closed⟩
      · exact ⟨Nat.lt_succ_of_lt before, superseded⟩
      · exact absurd newest (Nat.not_le_of_lt after)
    next => cases read

theorem submitVisit_keeps {submissionId : String} {mint : String → String} {chunkId : ChunkId}
    {nodeId : String} {epoch : ℤ} {resources : List FlowResource} {at_ : Instant}
    (inv : LineInvariant t)
    (wrote : t.submitVisit submissionId mint chunkId nodeId epoch resources at_ = some t') :
    LineInvariant t' := by
  obtain ⟨generation, arrival, flows, made, read, fresh, newest, distinct, stored, nodup, rfl⟩ :=
    submitVisit_spec inv.keyed.flowIds wrote
  have old : ∀ h ∈ t.held, h.submissionId ≠ submissionId := by
    intro h inside same
    exact fresh (same ▸ inv.keyed.heldBy h inside)
  have heldBefore : ∀ s f, s ≠ submissionId → ((⟨s, f⟩ : HeldRow) ∈ t.held ++
      flows.map (fun flow => ⟨submissionId, flow.flowId⟩) ↔ (⟨s, f⟩ : HeldRow) ∈ t.held) := by
    intro s f other
    rw [List.mem_append, List.mem_map]
    constructor
    · rintro (before | ⟨flow, -, same⟩)
      · exact before
      · cases same
        exact absurd rfl other
    · exact Or.inl
  have turnsOld : ∀ turn ∈ t.turns, turn.submissionId ≠ submissionId := by
    intro turn inside same
    exact fresh (same ▸ inv.keyed.turnOf turn inside)
  refine ⟨?_, inv.turnsOpen, ?_, ?_, ⟨?_, ?_⟩, ?_⟩
  · refine ⟨?_, nodup, ?_, inv.keyed.closures, inv.keyed.turnIds, ?_, ?_, ?_, ?_⟩
    · show ((t.submissions ++ _).map (·.submissionId)).Nodup
      rw [List.map_append, List.nodup_append_comm]
      exact List.nodup_cons.mpr ⟨fresh, inv.keyed.ids⟩
    · refine List.nodup_append.mpr ⟨inv.keyed.held, ?_, ?_⟩
      · have paired : (flows.map fun flow => (⟨submissionId, flow.flowId⟩ : HeldRow)) =
            (flows.map (·.flowId)).map fun f => ⟨submissionId, f⟩ := by
          rw [List.map_map]
          rfl
        rw [paired]
        refine List.Nodup.map ?_ distinct
        intro f f' same
        cases same
        rfl
      · intro h before h' after same
        obtain ⟨flow, -, rfl⟩ := List.mem_map.mp after
        exact old h before (same ▸ rfl)
    · intro h inside
      rcases List.mem_append.mp inside with before | after
      · obtain ⟨flow, listed, same⟩ := List.mem_map.mp (inv.keyed.heldFlow h before)
        exact List.mem_map.mpr ⟨flow, List.mem_append_left _ listed, same⟩
      · obtain ⟨flow, listed, rfl⟩ := List.mem_map.mp after
        exact List.mem_map_of_mem (stored flow listed)
    · intro h inside
      show h.submissionId ∈ (t.submissions ++ _).map (·.submissionId)
      rw [List.map_append]
      rcases List.mem_append.mp inside with before | after
      · exact List.mem_append_left _ (inv.keyed.heldBy h before)
      · obtain ⟨flow, -, rfl⟩ := List.mem_map.mp after
        exact List.mem_append_right _ (List.mem_singleton_self _)
    · intro c inside
      show c.submissionId ∈ (t.submissions ++ _).map (·.submissionId)
      rw [List.map_append]
      exact List.mem_append_left _ (inv.keyed.closureOf c inside)
    · intro turn inside
      show turn.submissionId ∈ (t.submissions ++ _).map (·.submissionId)
      rw [List.map_append]
      exact List.mem_append_left _ (inv.keyed.turnOf turn inside)
  · show (t.submissions ++ _).Pairwise _
    refine List.pairwise_append.mpr ⟨inv.arrivals, List.pairwise_singleton _ _, ?_⟩
    intro s inside s' single
    rw [List.mem_singleton.mp single]
    exact newest s inside
  · intro a ha b hb openA openB shared
    refine inv.oneTurn a ha b hb openA openB (shared.imp_right ?_)
    rintro ⟨flowId, holdsA, holdsB⟩
    exact ⟨flowId, (heldBefore _ _ (turnsOld a ha)).mp holdsA,
      (heldBefore _ _ (turnsOld b hb)).mp holdsB⟩
  · intro s f
    rw [told_writeFacts distinct, if_neg (fun all => nomatch all.1), List.append_nil]
    show (told t .turnEnded s f).Perm (if _ ∈ t.held ++ _ then FlowSafety.ended t s else [])
    by_cases own : s = submissionId
    · subst own
      have unturned : FlowSafety.ended t s = [] := by
        rw [FlowSafety.ended, List.map_eq_nil_iff, List.filter_eq_nil_iff]
        intro turn inside holds
        rw [decide_eq_true_iff] at holds
        exact turnsOld turn inside holds.1
      rw [not_told inv (.inl rfl) fresh, unturned, ite_self]
    · rw [if_congr (heldBefore s f own) rfl rfl]
      exact inv.told.ended s f
  · intro s f
    rw [told_writeFacts distinct, if_neg (fun all => nomatch all.1), List.append_nil]
    show (told t .withdrawn s f).Perm (if _ ∈ t.held ++ _ then closedWith t s else [])
    by_cases own : s = submissionId
    · subst own
      have unclosed : closedWith t s = [] := by
        rw [closedWith, List.map_eq_nil_iff, List.filter_eq_nil_iff]
        intro c inside holds
        rw [decide_eq_true_iff] at holds
        exact fresh (holds ▸ inv.keyed.closureOf c inside)
      rw [not_told inv (.inr rfl) fresh, unclosed, ite_self]
    · rw [if_congr (heldBefore s f own) rfl rfl]
      exact inv.told.closed s f
  · intro a ha b hb same
    have visits : ∀ s ∈ t.submissions, ∀ n : SubmissionRow,
        n = ⟨submissionId, chunkId, nodeId, epoch, generation, arrival, at_⟩ → SameVisit s n →
          s.generation < n.generation ∧ t.closedUnder s.submissionId = some turnSuperseded := by
      intro s inside n new same
      subst new
      apply generation_follows inv.generations read
      exact List.mem_filter.mpr ⟨inside, decide_eq_true same⟩
    rcases List.mem_append.mp ha with beforeA | afterA
    · rcases List.mem_append.mp hb with beforeB | afterB
      · exact inv.generations a beforeA b beforeB same
      · exact .inr (.inl (visits a beforeA b (List.mem_singleton.mp afterB) same))
    · rcases List.mem_append.mp hb with beforeB | afterB
      · have turned : SameVisit b a := ⟨same.1.symm, same.2.1.symm, same.2.2.symm⟩
        exact .inr (.inr (visits b beforeB a (List.mem_singleton.mp afterA) turned))
      · exact .inl ((List.mem_singleton.mp afterA).trans (List.mem_singleton.mp afterB).symm)

/-! ## Closing -/

theorem closeSubmission_spec {submissionId outcome : String} {at_ : Instant}
    (wrote : t.closeSubmission submissionId outcome at_ = some t') :
    ∃ submission ∈ t.submissions, submission.submissionId = submissionId ∧
      t.isOpen submissionId ∧
      t' = FlowTables.writeFacts
        { t with closures := t.closures ++ [⟨submissionId, outcome, at_⟩] }
        (t.flowsHeld submissionId) submissionId submission.chunkId .withdrawn (some outcome) none
        at_ := by
  rw [FlowTables.closeSubmission, Option.bind_eq_bind, Option.bind_eq_some_iff] at wrote
  obtain ⟨submission, found, wrote⟩ := wrote
  split at wrote
  next open_ =>
    cases wrote
    have own := List.find?_some found
    exact ⟨submission, List.mem_of_find?_eq_some found, of_decide_eq_true own, open_, rfl⟩
  next => cases wrote

theorem isOpen_iff {submissionId : String} :
    t.isOpen submissionId ↔ submissionId ∉ t.closures.map (·.submissionId) := by
  rw [FlowTables.isOpen, Bool.not_eq_true', List.any_eq_false, List.mem_map]
  constructor
  · rintro none_ ⟨c, inside, same⟩
    exact none_ c inside (decide_eq_true same)
  · intro none_ c inside same
    exact none_ ⟨c, inside, of_decide_eq_true same⟩

/-- A closed submission stays closed under the outcome it has. -/
theorem closedUnder_append {more : List ClosureRow} {submissionId outcome : String}
    (closed : t.closedUnder submissionId = some outcome) :
    FlowTables.closedUnder { t with closures := t.closures ++ more } submissionId =
      some outcome := by
  obtain ⟨c, found, rfl⟩ := Option.map_eq_some_iff.mp closed
  rw [FlowTables.closedUnder, List.find?_append, found]
  rfl

theorem generations_append {more : List ClosureRow} (generations : Generations t) :
    Generations { t with closures := t.closures ++ more } := by
  intro a ha b hb same
  rcases generations a ha b hb same with eq | ⟨before, closed⟩ | ⟨after, closed⟩
  · exact .inl eq
  · exact .inr (.inl ⟨before, closedUnder_append closed⟩)
  · exact .inr (.inr ⟨after, closedUnder_append closed⟩)

/-- Closing a submission that has no open turn. -/
theorem closeSubmission_keeps {submissionId outcome : String} {at_ : Instant}
    (inv : LineInvariant t) (idle : t.hasOpenTurn submissionId = false)
    (wrote : t.closeSubmission submissionId outcome at_ = some t') : LineInvariant t' := by
  obtain ⟨submission, inside, own, open_, rfl⟩ := closeSubmission_spec wrote
  have distinct := flowsHeld_nodup inv.keyed submissionId
  refine ⟨{ inv.keyed with closures := ?_, closureOf := ?_ }, ?_, inv.arrivals, inv.oneTurn,
    ⟨?_, ?_⟩, generations_append inv.generations⟩
  · show ((t.closures ++ _).map (·.submissionId)).Nodup
    rw [List.map_append, List.nodup_append_comm]
    exact List.nodup_cons.mpr ⟨isOpen_iff.mp open_, inv.keyed.closures⟩
  · intro c listed
    rcases List.mem_append.mp listed with before | after
    · exact inv.keyed.closureOf c before
    · rw [List.mem_singleton.mp after]
      exact List.mem_map.mpr ⟨submission, inside, own⟩
  · intro turn listed running
    have busy : turn.submissionId ≠ submissionId := by
      intro same
      rw [FlowTables.hasOpenTurn, List.any_eq_false] at idle
      exact idle turn listed (decide_eq_true ⟨same, running⟩)
    apply isOpen_iff.mpr
    show turn.submissionId ∉ (t.closures ++ _).map (·.submissionId)
    rw [List.map_append, List.mem_append, not_or]
    exact ⟨isOpen_iff.mp (inv.turnsOpen turn listed running), List.mem_singleton.not.mpr busy⟩
  · intro s f
    rw [told_writeFacts distinct, if_neg (fun all => nomatch all.1), List.append_nil]
    exact inv.told.ended s f
  · intro s f
    rw [told_writeFacts distinct]
    have closing : closedWith { t with closures := t.closures ++ [⟨submissionId, outcome, at_⟩] } s =
        closedWith t s ++ if s = submissionId then [(some outcome, some at_)] else [] := by
      rw [closedWith, List.filter_append, List.map_append, closedWith]
      split
      next same => simp [same]
      next other => simp [Ne.symm other]
    show (told t .withdrawn s f ++ _).Perm (if ⟨s, f⟩ ∈ t.held then
      closedWith { t with closures := t.closures ++ [⟨submissionId, outcome, at_⟩] } s else [])
    rw [closing]
    by_cases holds : (⟨s, f⟩ : HeldRow) ∈ t.held
    · have before := inv.told.closed s f
      rw [if_pos holds] at before ⊢
      apply before.append
      apply List.Perm.of_eq
      apply if_congr _ rfl rfl
      constructor
      · exact fun all => all.2.1
      · rintro rfl
        exact ⟨rfl, rfl, (mem_flowsHeld inv.keyed).mpr holds⟩
    · have before := inv.told.closed s f
      rw [if_neg holds] at before ⊢
      rw [if_neg, List.append_nil]
      · exact before
      · rintro ⟨-, rfl, listed⟩
        exact holds ((mem_flowsHeld inv.keyed).mp listed)

/-! ## Turns -/

theorem hasOpenTurn_eq_false {submissionId : String} : t.hasOpenTurn submissionId = false ↔
    ∀ turn ∈ t.turns, turn.endedAt = none → turn.submissionId ≠ submissionId := by
  rw [FlowTables.hasOpenTurn, List.any_eq_false]
  constructor
  · intro none_ turn inside running same
    exact none_ turn inside (decide_eq_true ⟨same, running⟩)
  · intro none_ turn inside holds
    obtain ⟨same, running⟩ := of_decide_eq_true holds
    exact none_ turn inside running same

/-- What a turn's start finds and writes. -/
theorem takeTurn_spec {turnId submissionId : String} {passedOver : List String}
    {candidates : List LandingTerms} {at_ : Instant}
    (wrote : t.takeTurn turnId submissionId passedOver candidates at_ = some t') :
    ∃ submission ∈ t.submissions, submission.submissionId = submissionId ∧
      t.isOpen submissionId ∧ t.hasOpenTurn submissionId = false ∧
      (∀ flow ∈ t.flowsHeld submissionId, t.busy (t.flowsHeld submissionId) = false ∧
        ∀ s ∈ t.aheadOn (t.flowsHeld submissionId) submission.arrival, s ∈ passedOver) ∧
      turnId ∉ t.turns.map (·.turnId) ∧
      t' = FlowTables.takeTerms (FlowTables.writeFacts
          { t with turns := t.turns ++ [{ turnId, submissionId, startedAt := at_ }] }
          (t.flowsHeld submissionId) submissionId submission.chunkId .turnStarted none none at_)
        submission (t.flowsHeld submissionId) candidates := by
  rw [FlowTables.takeTurn, Option.bind_eq_bind, Option.bind_eq_some_iff] at wrote
  obtain ⟨submission, found, wrote⟩ := wrote
  dsimp only at wrote
  split at wrote
  next => cases wrote
  next free =>
    split at wrote
    next => cases wrote
    next clear =>
      split at wrote
      next => cases wrote
      next fresh =>
        cases wrote
        rw [not_or] at free
        have own := List.find?_some found
        refine ⟨submission, List.mem_of_find?_eq_some found, of_decide_eq_true own, ?_, ?_, ?_, ?_,
          rfl⟩
        · simpa using free.1
        · simpa using free.2
        · intro flow listed
          rw [not_and, not_or, not_not] at clear
          have all := clear (List.ne_nil_of_mem listed)
          exact ⟨Bool.eq_false_iff.mpr all.1, all.2⟩
        · intro inside
          obtain ⟨row, stored, same⟩ := List.mem_map.mp inside
          exact fresh (List.any_eq_true.mpr ⟨row, stored, decide_eq_true same⟩)

theorem takeTurn_keeps {turnId submissionId : String} {passedOver : List String}
    {candidates : List LandingTerms} {at_ : Instant} (inv : LineInvariant t)
    (wrote : t.takeTurn turnId submissionId passedOver candidates at_ = some t') :
    LineInvariant t' := by
  obtain ⟨submission, inside, own, open_, idle, clear, fresh, rfl⟩ := takeTurn_spec wrote
  have distinct := flowsHeld_nodup inv.keyed submissionId
  have alone : ∀ b ∈ t.turns, b.endedAt = none → ¬Shares t b.submissionId submissionId := by
    rintro b hb running ⟨flowId, other, holds⟩
    have listed := (mem_flowsHeld inv.keyed).mpr holds
    obtain ⟨flow, stored, -⟩ := List.mem_map.mp listed
    have quiet := (clear flow stored).1
    rw [FlowTables.busy, List.any_eq_false] at quiet
    exact quiet b hb (decide_eq_true ⟨running, _, other, rfl, listed⟩)
  refine ⟨{ inv.keyed with turnIds := ?_, turnOf := ?_ }, ?_, inv.arrivals, ?_, ⟨?_, ?_⟩,
    inv.generations⟩
  · show ((t.turns ++ _).map (·.turnId)).Nodup
    rw [List.map_append, List.nodup_append_comm]
    exact List.nodup_cons.mpr ⟨fresh, inv.keyed.turnIds⟩
  · intro turn listed
    rcases List.mem_append.mp listed with before | after
    · exact inv.keyed.turnOf turn before
    · rw [List.mem_singleton.mp after]
      exact List.mem_map.mpr ⟨submission, inside, own⟩
  · intro turn listed running
    rcases List.mem_append.mp listed with before | after
    · exact inv.turnsOpen turn before running
    · rw [List.mem_singleton.mp after]
      exact open_
  · intro a ha b hb openA openB shared
    have idle := hasOpenTurn_eq_false.mp idle
    rcases List.mem_append.mp ha with beforeA | afterA
    · rcases List.mem_append.mp hb with beforeB | afterB
      · exact inv.oneTurn a beforeA b beforeB openA openB shared
      · rw [List.mem_singleton.mp afterB] at shared
        rcases shared with same | shared
        · exact absurd same (idle a beforeA openA)
        · exact absurd shared (alone a beforeA openA)
    · rcases List.mem_append.mp hb with beforeB | afterB
      · rw [List.mem_singleton.mp afterA] at shared
        rcases shared with same | ⟨flowId, holds, other⟩
        · exact absurd same.symm (idle b beforeB openB)
        · exact absurd ⟨flowId, other, holds⟩ (alone b beforeB openB)
      · exact (List.mem_singleton.mp afterA).trans (List.mem_singleton.mp afterB).symm
  · intro s f
    show (told (FlowTables.writeFacts _ _ _ _ _ _ _ _) .turnEnded s f).Perm _
    rw [told_writeFacts distinct, if_neg (fun all => nomatch all.1), List.append_nil]
    have same : FlowSafety.ended { t with turns := t.turns ++
        [{ turnId, submissionId, startedAt := at_ }] } s = FlowSafety.ended t s := by
      simp [FlowSafety.ended]
    show (told t .turnEnded s f).Perm (if ⟨s, f⟩ ∈ t.held then FlowSafety.ended
      { t with turns := t.turns ++ [{ turnId, submissionId, startedAt := at_ }] } s else [])
    rw [same]
    exact inv.told.ended s f
  · intro s f
    show (told (FlowTables.writeFacts _ _ _ _ _ _ _ _) .withdrawn s f).Perm _
    rw [told_writeFacts distinct, if_neg (fun all => nomatch all.1), List.append_nil]
    exact inv.told.closed s f

/-- A turn after it ended, and every other turn as it was. -/
def endedAs (turnId outcome : String) (at_ : Instant) (turn : TurnRow) : TurnRow :=
  if turn.turnId = turnId then { turn with endedAt := some at_, outcome := some outcome } else turn

theorem endTurn_spec {turnId outcome submissionId : String} {at_ : Instant}
    (wrote : t.endTurn turnId outcome at_ = some (t', submissionId)) :
    ∃ turn ∈ t.turns, turn.turnId = turnId ∧ turn.endedAt = none ∧
      turn.submissionId = submissionId ∧ ∃ submission : SubmissionRow,
        t' = FlowTables.writeFacts { t with turns := t.turns.map (endedAs turnId outcome at_) }
          (t.flowsHeld submissionId) submissionId submission.chunkId .turnEnded (some outcome) none
          at_ := by
  rw [FlowTables.endTurn, Option.bind_eq_bind, Option.bind_eq_some_iff] at wrote
  obtain ⟨turn, found, wrote⟩ := wrote
  rw [Option.bind_eq_bind, Option.bind_eq_some_iff] at wrote
  obtain ⟨submission, -, wrote⟩ := wrote
  cases wrote
  have chosen := List.find?_some found
  have own := of_decide_eq_true chosen
  exact ⟨turn, List.mem_of_find?_eq_some found, own.1, own.2, rfl, submission, rfl⟩

/-- An open turn among those left by a turn's end was one, and is another. -/
theorem open_of_endedAs {turnId outcome : String} {at_ : Instant} {turn : TurnRow}
    (inside : turn ∈ t.turns.map (endedAs turnId outcome at_)) (running : turn.endedAt = none) :
    turn ∈ t.turns ∧ turn.turnId ≠ turnId := by
  obtain ⟨before, stored, rfl⟩ := List.mem_map.mp inside
  rw [endedAs] at running ⊢
  split at running
  next => cases running
  next other =>
    rw [if_neg other]
    exact ⟨stored, other⟩

theorem endedAs_turnId (turnId outcome : String) (at_ : Instant) (turn : TurnRow) :
    (endedAs turnId outcome at_ turn).turnId = turn.turnId := by
  rw [endedAs]
  split <;> rfl

theorem map_endedAs {turnId : String} (outcome : String) (at_ : Instant) {turns : List TurnRow}
    (others : ∀ turn ∈ turns, turn.turnId ≠ turnId) :
    turns.map (endedAs turnId outcome at_) = turns := by
  calc turns.map (endedAs turnId outcome at_) = turns.map id := by
        apply List.map_congr_left
        intro turn inside
        rw [endedAs, if_neg (others turn inside), id]
    _ = turns := List.map_id _

theorem endedAs_submissionId (turnId outcome : String) (at_ : Instant) (turn : TurnRow) :
    (endedAs turnId outcome at_ turn).submissionId = turn.submissionId := by
  rw [endedAs]
  split <;> rfl

/-- Ending an open turn adds its end to those of its submission. -/
theorem ended_endTurn (keyed : Keyed t) {outcome : String} {at_ : Instant} {turn : TurnRow}
    (stored : turn ∈ t.turns) (running : turn.endedAt = none) (s : String) :
    (ended { t with turns := t.turns.map (endedAs turn.turnId outcome at_) } s).Perm
      (ended t s ++ if s = turn.submissionId then [(some outcome, some at_)] else []) := by
  obtain ⟨before, after, split_⟩ := List.append_of_mem stored
  have ids := keyed.turnIds
  rw [split_, List.map_append, List.map_cons, List.nodup_append] at ids
  obtain ⟨-, second, apart⟩ := ids
  have keepBefore : before.map (endedAs turn.turnId outcome at_) = before := by
    apply map_endedAs
    intro other inside
    exact apart _ (List.mem_map_of_mem inside) _ List.mem_cons_self
  have keepAfter : after.map (endedAs turn.turnId outcome at_) = after := by
    apply map_endedAs
    intro other inside same
    exact (List.nodup_cons.mp second).1 (same ▸ List.mem_map_of_mem inside)
  rw [ended, ended, split_, List.map_append, List.map_cons, keepBefore, keepAfter, endedAs,
    if_pos rfl, List.filter_append, List.filter_append, List.filter_cons, List.filter_cons,
    List.map_append, List.map_append]
  have untold : ¬decide (turn.submissionId = s ∧ turn.endedAt ≠ none) = true := by
    simp [running]
  rw [if_neg untold, List.append_assoc]
  apply List.Perm.append_left
  by_cases own : s = turn.submissionId
  · have told : decide (turn.submissionId = s ∧ some at_ ≠ none) = true := by
      simp [own]
    rw [if_pos told, if_pos own]
    exact (List.perm_append_singleton _ _).symm
  · have told : ¬decide (turn.submissionId = s ∧ some at_ ≠ none) = true := by
      simp [Ne.symm own]
    rw [if_neg told, if_neg own, List.append_nil]

theorem endTurn_keeps {turnId outcome submissionId : String} {at_ : Instant}
    (inv : LineInvariant t) (wrote : t.endTurn turnId outcome at_ = some (t', submissionId)) :
    LineInvariant t' ∧ t'.hasOpenTurn submissionId = false := by
  obtain ⟨turn, stored, rfl, running, rfl, submission, rfl⟩ := endTurn_spec wrote
  have distinct := flowsHeld_nodup inv.keyed turn.submissionId
  refine ⟨⟨{ inv.keyed with turnIds := ?_, turnOf := ?_ }, ?_, inv.arrivals, ?_, ⟨?_, ?_⟩,
    inv.generations⟩, ?_⟩
  · show ((t.turns.map (endedAs turn.turnId outcome at_)).map (·.turnId)).Nodup
    rw [List.map_map]
    have same : (fun turn : TurnRow => turn.turnId) ∘ endedAs turn.turnId outcome at_ =
        fun turn => turn.turnId := by
      funext other
      exact endedAs_turnId _ _ _ _
    rw [same]
    exact inv.keyed.turnIds
  · intro other inside
    obtain ⟨before, listed, rfl⟩ := List.mem_map.mp inside
    rw [endedAs_submissionId]
    exact inv.keyed.turnOf before listed
  · intro other inside still
    exact inv.turnsOpen other (open_of_endedAs inside still).1 still
  · intro a ha b hb openA openB shared
    exact inv.oneTurn a (open_of_endedAs ha openA).1 b (open_of_endedAs hb openB).1 openA openB
      shared
  · intro s f
    rw [told_writeFacts distinct]
    have adds := @ended_endTurn _ inv.keyed outcome at_ _ stored running s
    have before := inv.told.ended s f
    show (told t .turnEnded s f ++ _).Perm (if ⟨s, f⟩ ∈ t.held then
      FlowSafety.ended { t with turns := t.turns.map (endedAs turn.turnId outcome at_) } s else [])
    by_cases holds : (⟨s, f⟩ : HeldRow) ∈ t.held
    · rw [if_pos holds] at before ⊢
      refine (before.append (List.Perm.of_eq ?_)).trans adds.symm
      apply if_congr _ rfl rfl
      constructor
      · exact fun all => all.2.1
      · rintro rfl
        exact ⟨rfl, rfl, (mem_flowsHeld inv.keyed).mpr holds⟩
    · rw [if_neg holds] at before ⊢
      rw [if_neg, List.append_nil]
      · exact before
      · rintro ⟨-, rfl, listed⟩
        exact holds ((mem_flowsHeld inv.keyed).mp listed)
  · intro s f
    rw [told_writeFacts distinct, if_neg (fun all => nomatch all.1), List.append_nil]
    exact inv.told.closed s f
  · apply hasOpenTurn_eq_false.mpr
    intro other inside still same
    obtain ⟨listed, differs⟩ := open_of_endedAs inside still
    exact differs (congrArg _ (inv.oneTurn other listed turn stored still running (.inl same)))

/-! ## Any write -/

theorem close_keeps {submissionId : String} {outcome : Withdrawal} {at_ : Instant}
    (inv : LineInvariant t) (wrote : t.close submissionId outcome at_ = some t') :
    LineInvariant t' := by
  rw [FlowTables.close] at wrote
  split at wrote
  next => cases wrote
  next idle => exact closeSubmission_keeps inv (Bool.eq_false_iff.mpr idle) wrote

theorem endTurnLocked_keeps {turnId outcome : String} {closure : Option String} {at_ : Instant}
    (inv : LineInvariant t) (wrote : t.endTurnLocked turnId outcome closure at_ = some t') :
    LineInvariant t' := by
  rw [FlowTables.endTurnLocked, Option.bind_eq_bind, Option.bind_eq_some_iff] at wrote
  obtain ⟨⟨mid, submissionId⟩, first, wrote⟩ := wrote
  obtain ⟨kept, idle⟩ := endTurn_keeps inv first
  cases closure with
  | none =>
    cases wrote
    exact kept
  | some closure =>
    cases wrote
    cases closing : mid.closeSubmission submissionId closure at_ with
    | none => exact kept
    | some closed => exact closeSubmission_keeps kept idle closing

theorem closeSubmission_turns {submissionId outcome : String} {at_ : Instant}
    (wrote : t.closeSubmission submissionId outcome at_ = some t') : t'.turns = t.turns := by
  obtain ⟨_, -, -, -, rfl⟩ := closeSubmission_spec wrote
  rfl

theorem withdraw_keeps {outcome : String} {at_ : Instant} {waiting : List SubmissionRow} :
    ∀ {t : FlowTables}, LineInvariant t →
      (∀ s ∈ waiting, t.hasOpenTurn s.submissionId = false) →
      LineInvariant (waiting.foldl
        (fun t s => (t.closeSubmission s.submissionId outcome at_).getD t) t) := by
  induction waiting with
  | nil => exact fun inv _ => inv
  | cons s rest ih =>
    intro t inv idle
    have others : ∀ r ∈ rest, t.hasOpenTurn r.submissionId = false :=
      fun r inside => idle r (List.mem_cons_of_mem _ inside)
    rw [List.foldl_cons]
    cases closing : t.closeSubmission s.submissionId outcome at_ with
    | none => exact ih inv others
    | some closed =>
      apply ih (closeSubmission_keeps inv (idle s List.mem_cons_self) closing)
      intro r inside
      rw [FlowTables.hasOpenTurn, closeSubmission_turns closing]
      exact others r inside

theorem withdrawWaiting_keeps (inv : LineInvariant t) (chunkId : ChunkId) (outcome : Withdrawal)
    (at_ : Instant) : LineInvariant (t.withdrawWaiting chunkId outcome at_) := by
  apply withdraw_keeps inv
  intro s inside
  rw [List.mem_insertionSort] at inside
  have waits := of_decide_eq_true (List.mem_filter.mp inside).2
  exact Bool.eq_false_iff.mpr waits.2.2

theorem recordLanding_keeps (inv : LineInvariant t) (flow : FlowRow) (submissionId : String)
    (chunkId : ChunkId) (wrote : Bool) (revision : String) (at_ : Instant) :
    LineInvariant (t.recordLanding flow submissionId chunkId wrote revision at_) := by
  rw [FlowTables.recordLanding]
  split
  next =>
    have distinct : ([flow].map (·.flowId)).Nodup := List.nodup_singleton _
    refine ⟨{ inv.keyed with }, inv.turnsOpen, inv.arrivals, inv.oneTurn, ⟨?_, ?_⟩,
      inv.generations⟩
    · intro s f
      rw [told_writeFacts distinct, if_neg (fun all => nomatch all.1), List.append_nil]
      exact inv.told.ended s f
    · intro s f
      rw [told_writeFacts distinct, if_neg (fun all => nomatch all.1), List.append_nil]
      exact inv.told.closed s f
  next => exact inv

theorem getD_keeps {wrote : Option FlowTables} (inv : LineInvariant t)
    (keeps : ∀ t', wrote = some t' → LineInvariant t') : LineInvariant (wrote.getD t) := by
  cases wrote with
  | none => exact inv
  | some t' => exact keeps t' rfl

theorem lineInvariant_step (inv : LineInvariant t) (write : Write) :
    LineInvariant (t.step write) := by
  cases write with
  | submit => exact getD_keeps inv fun _ wrote => submitVisit_keeps inv wrote
  | close => exact getD_keeps inv fun _ wrote => close_keeps inv wrote
  | takeTurn => exact getD_keeps inv fun _ wrote => takeTurn_keeps inv wrote
  | endTurn => exact getD_keeps inv fun _ wrote => endTurnLocked_keeps inv wrote
  | interrupt => exact getD_keeps inv fun _ wrote => endTurnLocked_keeps inv wrote
  | withdraw chunkId outcome at_ => exact withdrawWaiting_keeps inv chunkId outcome at_
  | land flow submissionId chunkId wrote revision at_ =>
    exact recordLanding_keeps inv flow submissionId chunkId wrote revision at_

theorem lineInvariant_run {writes : List Write} :
    ∀ {t : FlowTables}, LineInvariant t → LineInvariant (t.run writes) := by
  induction writes with
  | nil => exact fun inv => inv
  | cons write rest ih => exact fun inv => ih (lineInvariant_step inv write)

end Blizzard.FlowSafety
