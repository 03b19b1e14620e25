import Blizzard.DerivationSweeps

/-! # The tenants' halves of a derivation pass

One step of a tenant's half marks only candidates, and a half that converged dropped
every stale segment and answered every candidate. A sweep's share accounts for each
due tenant that is open once. -/
namespace Blizzard.DerivationSweeps
open DerivationCorpus

/-! ## One tenant's half -/

/-- The half answers for the candidates it is through with, and holds the stale segments. -/
structure HalfStanding (extractorVersion : String) (read : Corpus) (stale : List String)
    (half : Half) : Prop where
  stale_eq : half.stale = stale
  answered : half.outcomes.map (·.1) ++ half.candidates = read.candidateSegmentIds extractorVersion

/-- What one step of a half does to the tenant and how it may end. -/
structure ConvergeStep (extractorVersion : String) (read : Corpus) (stale : List String)
    (corpus : Corpus) (moved : Corpus × Progress) : Prop where
  isOpen : moved.1.isOpen = corpus.isOpen
  marked : ∀ id ∈ moved.1.markedIds,
    id ∈ corpus.markedIds ∨ id ∈ read.candidateSegmentIds extractorVersion
  running : ∀ half, moved.2 = .running half → HalfStanding extractorVersion read stale half
  converged : ∀ outcomes, moved.2 = .converged outcomes →
    outcomes.map (·.1) = read.candidateSegmentIds extractorVersion ∧
      ∀ id ∈ stale, id ∉ moved.1.markedIds
  closed : moved.2 = .closed → ¬ corpus.isOpen

variable {extractorVersion : String} {read derived corpus : Corpus} {stale : List String}

theorem mem_staleIds {id : String} :
    id ∈ staleIds read derived ↔ id ∈ derived.derivedSegmentIds ∧ id ∉ read.visibleSegmentIds := by
  simp [staleIds]

/-- A candidate is not stale. -/
theorem candidate_not_stale {id : String} (h : id ∈ read.candidateSegmentIds extractorVersion) :
    id ∉ staleIds read derived := by
  intro stale
  exact (mem_staleIds.mp stale).2 (Corpus.candidateSegmentIds_subset extractorVersion h)

theorem refusal_cases (corpus : Corpus) (answer : Answer) :
    refusal corpus answer = .unconverged ∨ refusal corpus answer = .closed ∧ ¬ corpus.isOpen := by
  cases answer with
  | closed => cases h : corpus.isOpen <;> simp [refusal, h]
  | _ => exact .inl rfl

theorem refusal_step (answer : Answer) :
    ConvergeStep extractorVersion read stale corpus (corpus, refusal corpus answer) := by
  refine ⟨rfl, fun _ mem => .inl mem, ?_, ?_, ?_⟩
  · intro half h
    rcases refusal_cases corpus answer with ends | ⟨ends, -⟩ <;> simp [ends] at h
  · intro outcomes h
    rcases refusal_cases corpus answer with ends | ⟨ends, -⟩ <;> simp [ends] at h
  · intro h
    rcases refusal_cases corpus answer with ends | ⟨-, notOpen⟩
    · simp [ends] at h
    · exact notOpen

theorem openHalf_step (answer : Answer) :
    ConvergeStep extractorVersion read stale corpus
      (corpus, openHalf extractorVersion read stale corpus answer) := by
  simp only [openHalf]
  split
  case isTrue nothing_ =>
    obtain ⟨unread, rfl⟩ := nothing_
    refine ⟨rfl, fun _ mem => .inl mem, by simp, ?_, by simp⟩
    intro outcomes h
    cases h
    refine ⟨?_, by simp⟩
    simp [Corpus.candidateSegmentIds, Option.isNone_iff_eq_none.mp unread]
  case isFalse =>
    split
    case isTrue => exact refusal_step answer
    case isFalse =>
      refine ⟨rfl, fun _ mem => .inl mem, ?_, by simp, by simp⟩
      intro half h
      cases h
      exact ⟨rfl, by simp⟩

/-- A candidate answered moves from the head of the list to the outcomes. -/
theorem HalfStanding.answer {half : Half} {segmentId : String} {rest : List String}
    (standing : HalfStanding extractorVersion read stale half)
    (head : half.candidates = segmentId :: rest) (outcome : Outcome) :
    HalfStanding extractorVersion read stale
      ⟨rest, half.stale, half.outcomes ++ [(segmentId, outcome)]⟩ := by
  refine ⟨standing.stale_eq, ?_⟩
  rw [← standing.answered, head]
  simp

theorem HalfStanding.mem_candidates {half : Half} {segmentId : String} {rest : List String}
    (standing : HalfStanding extractorVersion read stale half)
    (head : half.candidates = segmentId :: rest) :
    segmentId ∈ read.candidateSegmentIds extractorVersion := by
  rw [← standing.answered, head]
  simp

/-- A candidate that is not derived leaves the tenant as it was. -/
theorem HalfStanding.pass_over {half : Half} {segmentId : String} {rest : List String}
    (standing : HalfStanding extractorVersion read stale half)
    (head : half.candidates = segmentId :: rest) (outcome : Outcome) :
    ConvergeStep extractorVersion read stale corpus
      (corpus, .running ⟨rest, half.stale, half.outcomes ++ [(segmentId, outcome)]⟩) := by
  refine ⟨rfl, fun _ mem => .inl mem, ?_, by simp, by simp⟩
  intro next h
  cases h
  exact standing.answer head outcome

theorem advanceHalf_step {half : Half} (answer : Answer)
    (standing : HalfStanding extractorVersion read stale half) :
    ConvergeStep extractorVersion read stale corpus
      (advanceHalf extractorVersion half corpus answer) := by
  cases head : half.candidates with
  | cons segmentId rest =>
    cases answer with
    | served fingerprint =>
      simp only [advanceHalf, head]
      refine ⟨rfl, ?_, ?_, by simp, by simp⟩
      · intro id mem
        rcases Corpus.mem_markedIds_replace mem with old | rfl
        · exact .inl old
        · exact .inr (standing.mem_candidates head)
      · intro next h
        cases h
        exact standing.answer head .derived
    | nothing => simpa only [advanceHalf, head] using standing.pass_over head .skipped
    | raised => simpa only [advanceHalf, head] using standing.pass_over head .failed
    | closed => simpa only [advanceHalf, head] using standing.pass_over head .failed
  | nil =>
    simp only [advanceHalf, head]
    split
    case isTrue => exact refusal_step answer
    case isFalse =>
      refine ⟨rfl, fun _ mem => .inl (Corpus.mem_markedIds_drop.mp mem).1, by simp, ?_, by simp⟩
      intro outcomes h
      cases h
      refine ⟨by simpa [head] using standing.answered, ?_⟩
      intro id mem left
      rw [standing.stale_eq] at left
      exact (Corpus.mem_markedIds_drop.mp left).2 mem

theorem converge_step {half : Option Half} (corpus : Corpus) (answer : Answer)
    (standing : ∀ h ∈ half, HalfStanding extractorVersion read stale h) :
    ConvergeStep extractorVersion read stale corpus
      (converge extractorVersion read stale half corpus answer) := by
  cases half with
  | none => exact openHalf_step answer
  | some half => exact advanceHalf_step answer (standing half rfl)

/-- A tenant's step marks only candidates and opens nothing. -/
theorem ConvergeStep.update {world : World} {tenant : TenantId} {moved : Corpus × Progress}
    (step : ConvergeStep extractorVersion read stale (world tenant) moved) (other : TenantId) :
    ((Function.update world tenant moved.1 other).isOpen → (world other).isOpen) ∧
      ∀ id ∈ (Function.update world tenant moved.1 other).markedIds,
        id ∈ (world other).markedIds ∨
          other = tenant ∧ id ∈ read.candidateSegmentIds extractorVersion := by
  by_cases same : other = tenant
  · subst same
    simp only [Function.update_self]
    constructor
    · rw [step.isOpen]
      exact id
    · intro id mem
      rcases step.marked id mem with old | candidate
      · exact .inl old
      · exact .inr ⟨trivial, candidate⟩
  · simp only [Function.update_of_ne same]
    exact ⟨id, fun _ mem => .inl mem⟩

/-! ## The due tenants' halves -/

/-- The due tenants still to do, and those that ended unconverged or converged. -/
def Share.accounted (share : Share) : List TenantId :=
  share.todo ++ share.unconverged ++ share.converged.map (·.1)

/-- The stale segments a due tenant's half drops. -/
def Share.dropped (share : Share) (tenant : TenantId) : List String :=
  staleIds (share.candidacy.world tenant) (share.derived.world tenant)

/-- Every due tenant that is open is accounted for once, and a converged one answered every
candidate and carries no stale row. -/
structure ShareStanding (extractorVersion : String) (world : World) (share : Share) : Prop where
  nodup : share.accounted.Nodup
  within : share.accounted ⊆ share.due
  covers : ∀ tenant ∈ share.due, (world tenant).isOpen → tenant ∈ share.accounted
  half : ∀ tenant ∈ share.todo.head?, ∀ half ∈ share.half,
    HalfStanding extractorVersion (share.candidacy.world tenant) (share.dropped tenant) half
  answered : ∀ converged ∈ share.converged, converged.2.map (·.1) =
    (share.candidacy.world converged.1).candidateSegmentIds extractorVersion
  cleared : ∀ converged ∈ share.converged, ∀ id ∈ share.dropped converged.1,
    id ∉ (world converged.1).markedIds

theorem Share.opened_standing {due : List TenantId} (nodup : due.Nodup)
    (candidacy derived : Snapshot) (world : World) :
    ShareStanding extractorVersion world (.opened due candidacy derived) := by
  have accounted : (Share.opened due candidacy derived).accounted = due := by
    simp [Share.accounted, Share.opened]
  constructor
  · rwa [accounted]
  · rw [accounted]
    exact fun _ mem => mem
  · intro tenant mem _
    rwa [accounted]
  · intro tenant _ half mem
    simp [Share.opened] at mem
  · intro converged mem
    simp [Share.opened] at mem
  · intro converged mem
    simp [Share.opened] at mem

/-- Tenants may close and lose rows under the share, and be marked for candidates. -/
theorem ShareStanding.mono {world changed : World} {share : Share}
    (standing : ShareStanding extractorVersion world share)
    (opens : ∀ tenant, (changed tenant).isOpen → (world tenant).isOpen)
    (marks : ∀ tenant, ∀ id ∈ (changed tenant).markedIds, id ∈ (world tenant).markedIds ∨
      id ∈ (share.candidacy.world tenant).candidateSegmentIds extractorVersion) :
    ShareStanding extractorVersion changed share := by
  refine { standing with covers := ?_, cleared := ?_ }
  · intro tenant mem isOpen
    exact standing.covers tenant mem (opens tenant isOpen)
  · intro converged mem id stale left
    rcases marks converged.1 id left with old | candidate
    · exact standing.cleared converged mem id stale old
    · exact candidate_not_stale candidate stale

@[simp] theorem Share.take_due (share : Share) (tenant : TenantId) (rest : List TenantId)
    (progress : Progress) : (share.take tenant rest progress).due = share.due := by
  cases progress <;> rfl

@[simp] theorem Share.take_candidacy (share : Share) (tenant : TenantId) (rest : List TenantId)
    (progress : Progress) : (share.take tenant rest progress).candidacy = share.candidacy := by
  cases progress <;> rfl

@[simp] theorem Share.take_derived (share : Share) (tenant : TenantId) (rest : List TenantId)
    (progress : Progress) : (share.take tenant rest progress).derived = share.derived := by
  cases progress <;> rfl

/-- The head of what is to do takes its step. -/
theorem ShareStanding.take {world : World} {share : Share} {tenant : TenantId}
    {rest : List TenantId} {moved : Corpus × Progress}
    (standing : ShareStanding extractorVersion world share) (head : share.todo = tenant :: rest)
    (step : ConvergeStep extractorVersion (share.candidacy.world tenant) (share.dropped tenant)
      corpus moved) (now : world tenant = moved.1) :
    ShareStanding extractorVersion world (share.take tenant rest moved.2) := by
  have nodup := standing.nodup
  have within := standing.within
  have covers := standing.covers
  simp only [Share.accounted, head] at nodup within covers
  cases ends : moved.2 with
  | running half =>
    refine { standing with half := ?_ }
    intro first first_eq next next_eq
    simp only [Share.take, head, List.head?_cons, Option.mem_some_iff] at first_eq next_eq
    subst first_eq next_eq
    exact step.running half ends
  | converged outcomes =>
    obtain ⟨answered, cleared⟩ := step.converged outcomes ends
    have settled : (share.take tenant rest (.converged outcomes)).accounted.Perm
        (tenant :: rest ++ share.unconverged ++ share.converged.map (·.1)) := by
      simp only [Share.accounted, Share.take, List.map_append, List.map_cons, List.map_nil]
      rw [← List.append_assoc]
      exact List.perm_append_singleton _ _
    constructor
    · exact settled.nodup_iff.mpr nodup
    · exact fun _ mem => within (settled.subset mem)
    · exact fun other mem isOpen => settled.symm.subset (covers other mem isOpen)
    · intro _ _ half mem
      simp [Share.take] at mem
    · intro converged mem
      rcases List.mem_append.mp mem with old | new
      · exact standing.answered converged old
      · obtain rfl := List.mem_singleton.mp new
        exact answered
    · intro converged mem id stale
      rcases List.mem_append.mp mem with old | new
      · exact standing.cleared converged old id stale
      · obtain rfl := List.mem_singleton.mp new
        rw [now]
        exact cleared id stale
  | unconverged =>
    have settled : (share.take tenant rest .unconverged).accounted.Perm
        (tenant :: rest ++ share.unconverged ++ share.converged.map (·.1)) := by
      simp only [Share.accounted, Share.take]
      refine List.Perm.append_right _ ?_
      rw [← List.append_assoc]
      exact List.perm_append_singleton _ _
    refine { standing with nodup := ?_, within := ?_, covers := ?_, half := ?_ }
    · exact settled.nodup_iff.mpr nodup
    · exact fun _ mem => within (settled.subset mem)
    · exact fun other mem isOpen => settled.symm.subset (covers other mem isOpen)
    · intro _ _ half mem
      simp [Share.take] at mem
  | closed =>
    have kept : (share.take tenant rest .closed).accounted =
        rest ++ share.unconverged ++ share.converged.map (·.1) := rfl
    refine { standing with nodup := ?_, within := ?_, covers := ?_, half := ?_ }
    · rw [kept]
      exact (List.nodup_cons.mp nodup).2
    · rw [kept]
      exact fun _ mem => within (List.mem_cons_of_mem _ mem)
    · intro other mem isOpen
      rw [kept]
      rcases List.mem_cons.mp (covers other mem isOpen) with rfl | later
      · rw [now, step.isOpen] at isOpen
        exact absurd isOpen (step.closed ends)
      · exact later
    · intro _ _ half mem
      simp [Share.take] at mem

end Blizzard.DerivationSweeps
