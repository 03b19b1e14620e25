import Blizzard.FindingReads

/-! # The finding reads agree with the fold

Over any facts the SQL newest fact is the fold's, so the summaries, the state predicates and the
keyset pages say what `liveness_of` says of each finding. -/
namespace Blizzard.FindingAgreement
open HubTables FindingLiveness KeysetPaging FindingReads

/-! ## The newest row -/

theorem isNewer_irrefl (row : StoredFact) : isNewer row row = false := by simp [isNewer]

theorem isNewer_asymm {a b : StoredFact} (h : isNewer a b = true) : isNewer b a = false := by
  simp only [isNewer, Bool.or_eq_true, Bool.and_eq_true, decide_eq_true_eq] at h
  simp only [isNewer, Bool.or_eq_false_iff, Bool.and_eq_false_iff, decide_eq_false_iff_not]
  rcases h with hlater | ⟨htie, hid⟩
  · exact ⟨not_lt.mpr hlater.le, .inl (ne_of_lt hlater)⟩
  · refine ⟨?_, .inr (by omega)⟩
    rw [htie]
    exact lt_irrefl _

/-- `newest` comes after every other row. -/
def IsNewest (rows : List StoredFact) (newest : StoredFact) : Prop :=
  newest ∈ rows ∧ ∀ other ∈ rows, other = newest ∨ isNewer newest other = true

theorem IsNewest.unbeaten {rows : List StoredFact} {newest row : StoredFact}
    (h : IsNewest rows newest) (hrow : row ∈ rows) :
    rows.any (fun other => isNewer other row) = false ↔ row = newest := by
  constructor
  · intro hnone
    rcases h.2 row hrow with hsame | hbeaten
    · exact hsame
    · have hkept := List.any_eq_false.mp hnone newest h.1
      exact absurd hbeaten hkept
  · rintro rfl
    apply List.any_eq_false.mpr
    intro other hother
    rcases h.2 other hother with rfl | hbeaten
    · simp [isNewer_irrefl]
    · simp [isNewer_asymm hbeaten]

/-- The fold over rows in id order finds the row that comes after every other. -/
theorem newestFact_isNewest {rows : List StoredFact} (ordered : rows.Pairwise fun a b => a.id < b.id)
    {fact : FactRow} (h : newestFact (rows.map (·.fact)) = some fact) :
    ∃ newest, IsNewest rows newest ∧ newest.fact = fact := by
  induction rows using List.reverseRecOn generalizing fact with
  | nil => cases h
  | append_singleton rows row ih =>
    rw [List.pairwise_append] at ordered
    obtain ⟨hbefore, -, hcross⟩ := ordered
    rw [List.map_append, List.map_singleton, newestFact_append] at h
    cases hold : newestFact (rows.map (·.fact)) with
    | none =>
      have hempty : rows = [] := by
        cases rows with
        | nil => rfl
        | cons first rest => cases hold
      subst hempty
      rw [hold] at h
      exact ⟨row, ⟨by simp, by simp⟩, Option.some.inj h⟩
    | some old =>
      obtain ⟨newest, ⟨hmem, hbest⟩, hfact⟩ := ih hbefore hold
      have hlater : newest.id < row.id := hcross newest hmem row (by simp)
      rw [hold] at h
      simp only [Option.elim_some, newer, Option.some.injEq, ← hfact] at h
      split at h
      · next hle =>
        have hnew : ∀ other ∈ rows, isNewer row other = true := by
          intro other hother
          have hid : other.id < row.id := hcross other hother row (by simp)
          have hrec : other.fact.recordedAt ≤ row.fact.recordedAt := by
            rcases hbest other hother with rfl | hbeaten
            · exact hle
            · simp only [isNewer, Bool.or_eq_true, Bool.and_eq_true, decide_eq_true_eq] at hbeaten
              rcases hbeaten with hlt | ⟨htie, -⟩
              · exact hlt.le.trans hle
              · exact htie.symm.le.trans hle
          rcases lt_or_eq_of_le hrec with hlt | htie
          · simp [isNewer, hlt]
          · simp [isNewer, htie, hid]
        refine ⟨row, ⟨by simp, ?_⟩, h⟩
        intro other hother
        rcases List.mem_append.mp hother with hother | hother
        · exact .inr (hnew other hother)
        · exact .inl (List.mem_singleton.mp hother)
      · next hgt =>
        refine ⟨newest, ⟨by simp [hmem], ?_⟩, h⟩
        intro other hother
        rcases List.mem_append.mp hother with hother | hother
        · exact hbest other hother
        · rw [List.mem_singleton.mp hother]
          exact .inr (by simp [isNewer, not_le.mp hgt])

theorem newestFact_eq_none {facts : List FactRow} : newestFact facts = none ↔ facts = [] := by
  cases facts <;> simp [newestFact]

/-- The stored rows of one finding. -/
def rowsOf (facts : List FactRow) (findingId : String) : List StoredFact :=
  (storedFacts facts).filter fun row => row.fact.findingId = findingId

theorem storedFacts_ordered (facts : List FactRow) :
    (storedFacts facts).Pairwise fun a b => a.id < b.id := by
  have hids : (storedFacts facts).map (·.id) = List.range' 0 facts.length := by
    rw [storedFacts, List.map_map]
    exact List.zipIdx_map_snd 0 facts
  have hlt : (List.range' 0 facts.length).Pairwise (· < ·) := List.pairwise_lt_range'
  rw [← hids, List.pairwise_map] at hlt
  exact hlt

theorem storedFacts_fact (facts : List FactRow) : (storedFacts facts).map (·.fact) = facts := by
  rw [storedFacts, List.map_map]
  exact List.zipIdx_map_fst 0 facts

theorem rowsOf_fact (facts : List FactRow) (findingId : String) :
    (rowsOf facts findingId).map (·.fact) = factsOf facts findingId := by
  conv_rhs => rw [factsOf, ← storedFacts_fact facts, List.filter_map]
  rfl

theorem mem_rowsOf {facts : List FactRow} {findingId : String} {row : StoredFact} :
    row ∈ rowsOf facts findingId ↔ row ∈ storedFacts facts ∧ row.fact.findingId = findingId := by
  simp [rowsOf]

/-- A later fact of the finding exists exactly when one of its rows is newer. -/
theorem newerFactExists_eq {facts : List FactRow} {findingId : String} {row : StoredFact}
    (h : row ∈ rowsOf facts findingId) :
    newerFactExists (storedFacts facts) row
      = (rowsOf facts findingId).any fun other => isNewer other row := by
  have hid := (mem_rowsOf.mp h).2
  rw [rowsOf, List.any_filter]
  simp only [newerFactExists, hid]

/-- The one row of a finding that no later fact beats carries the fold's newest fact. -/
theorem unbeaten_row {facts : List FactRow} {findingId : String} {fact : FactRow}
    (h : newestFact (factsOf facts findingId) = some fact) :
    ∃ newest ∈ rowsOf facts findingId, newest.fact = fact ∧
      ∀ row ∈ rowsOf facts findingId,
        newerFactExists (storedFacts facts) row = false ↔ row = newest := by
  rw [← rowsOf_fact] at h
  obtain ⟨newest, hnewest, hfact⟩ :=
    newestFact_isNewest ((storedFacts_ordered facts).filter _) h
  refine ⟨newest, hnewest.1, hfact, ?_⟩
  intro row hrow
  rw [newerFactExists_eq hrow]
  exact hnewest.unbeaten hrow

/-! ## The state predicates -/

/-- The correlated `NOT EXISTS` reads the kind of the fold's newest fact. -/
theorem noNewestFactIn_eq (facts : List FactRow) (findingId : String) (kindsOk : FactKind → Bool) :
    noNewestFactIn (storedFacts facts) findingId kindsOk
      = !(newestFact (factsOf facts findingId)).any fun fact => kindsOk fact.kind := by
  unfold noNewestFactIn
  congr 1
  cases hnewest : newestFact (factsOf facts findingId) with
  | none =>
    have hempty := newestFact_eq_none.mp hnewest
    rw [← rowsOf_fact, List.map_eq_nil_iff] at hempty
    apply List.any_eq_false.mpr
    intro row hrow hkept
    simp only [Bool.and_eq_true, decide_eq_true_eq] at hkept
    have hmem : row ∈ rowsOf facts findingId := mem_rowsOf.mpr ⟨hrow, hkept.1.1⟩
    simp [hempty] at hmem
  | some fact =>
    obtain ⟨newest, hmem, hfact, hunbeaten⟩ := unbeaten_row hnewest
    rw [Option.any_some, Bool.eq_iff_iff]
    constructor
    · intro hany
      obtain ⟨row, hrow, hkept⟩ := List.any_eq_true.mp hany
      simp only [Bool.and_eq_true, decide_eq_true_eq, Bool.not_eq_true'] at hkept
      obtain ⟨⟨hid, hkind⟩, hnone⟩ := hkept
      have hsame := (hunbeaten row (mem_rowsOf.mpr ⟨hrow, hid⟩)).mp hnone
      rw [← hfact, ← hsame]
      exact hkind
    · intro hkind
      obtain ⟨hstored, hid⟩ := mem_rowsOf.mp hmem
      apply List.any_eq_true.mpr
      refine ⟨newest, hstored, ?_⟩
      simp only [Bool.and_eq_true, decide_eq_true_eq, Bool.not_eq_true']
      exact ⟨⟨hid, by rw [hfact]; exact hkind⟩, (hunbeaten newest hmem).mpr rfl⟩

theorem newestFactIsLive_eq (facts : List FactRow) (findingId : String) :
    newestFactIsLive (storedFacts facts) findingId = (derived facts findingId).live := by
  rw [newestFactIsLive, noNewestFactIn_eq, Liveness.live, derived_state]
  cases newestFact (factsOf facts findingId) with
  | none => rfl
  | some fact => cases hkind : fact.kind <;> simp [hkind, FactKind.state, liveKinds]

theorem newestFactIsNotExited_eq (facts : List FactRow) (findingId : String) :
    newestFactIsNotExited (storedFacts facts) findingId
      = !(load facts findingId).exited := by
  rw [newestFactIsNotExited, noNewestFactIn_eq, Finding.exited, load, derived_state]
  cases newestFact (factsOf facts findingId) with
  | none => rfl
  | some fact =>
    cases hkind : fact.kind <;> simp [hkind, FactKind.state, exitKinds, unexitedStates]

theorem newestFactIsOf_eq (facts : List FactRow) (findingId : String) (state : FindingState) :
    newestFactIsOf (storedFacts facts) findingId state
      = decide ((derived facts findingId).state = state) := by
  unfold newestFactIsOf
  split
  · next hlive =>
    rw [newestFactIsLive_eq, hlive]
    rfl
  · next hother =>
    rw [noNewestFactIn_eq, derived_state, Bool.not_not]
    cases newestFact (factsOf facts findingId) with
    | none => simp [Ne.symm hother]
    | some fact =>
      cases hkind : fact.kind <;> cases state <;>
        simp_all [FactKind.state, FactKind.text, FindingState.text]

/-! ## The summaries -/

theorem mapM_some {α β : Type} {f : α → Option β} {g : α → β} {xs : List α}
    (h : ∀ x ∈ xs, f x = some (g x)) : xs.mapM f = some (xs.map g) := by
  induction xs with
  | nil => rfl
  | cons x xs ih =>
    have hx := h x (by simp)
    have hxs := ih fun y hy => h y (by simp [hy])
    simp [List.mapM_cons, hx, hxs]

theorem flatten_idBatches (ids : List String) : (idBatches ids).flatten = ids := by
  fun_induction idBatches ids with
  | case1 => rfl
  | case2 ids _ ih => rw [List.flatten_cons, ih, List.take_append_drop]

theorem newestByFinding_eq {batch : List String} {findingId : String} {fact : FactRow}
    {facts : List FactRow} (asked : findingId ∈ batch)
    (h : newestFact (factsOf facts findingId) = some fact) :
    newestByFinding (storedFacts facts) batch findingId = some fact := by
  obtain ⟨newest, hmem, hfact, hunbeaten⟩ := unbeaten_row h
  obtain ⟨hstored, hid⟩ := mem_rowsOf.mp hmem
  unfold newestByFinding
  rw [List.findRev?_eq_find?_reverse]
  cases hfound : (newestRows (storedFacts facts) batch).reverse.find?
      fun f => decide (f.fact.findingId = findingId) with
  | none =>
    have hnone := List.find?_eq_none.mp hfound newest (by
      rw [List.mem_reverse, newestRows, List.mem_filter]
      refine ⟨hstored, ?_⟩
      simp only [Bool.and_eq_true, decide_eq_true_eq, Bool.not_eq_true']
      exact ⟨by rwa [hid], (hunbeaten newest hmem).mpr rfl⟩)
    simp [hid] at hnone
  | some row =>
    have hrow := List.mem_of_find?_eq_some hfound
    rw [List.mem_reverse, newestRows, List.mem_filter] at hrow
    obtain ⟨hrowStored, hkept⟩ := hrow
    simp only [Bool.and_eq_true, decide_eq_true_eq, Bool.not_eq_true'] at hkept
    have hrowId : row.fact.findingId = findingId := by simpa using List.find?_some hfound
    have hsame := (hunbeaten row (mem_rowsOf.mpr ⟨hrowStored, hrowId⟩)).mp hkept.2
    rw [Option.map_some, hsame, hfact]

/-- The `sum` of a conditional one is a count. -/
theorem sum_ite_eq_countP {α : Type} (p : α → Bool) (xs : List α) :
    (xs.map fun x => if p x then 1 else 0).sum = xs.countP p := by
  induction xs with
  | nil => rfl
  | cons x xs ih =>
    rw [List.map_cons, List.sum_cons, ih, List.countP_cons]
    omega

/-- The aggregates of a finding's rows are those of the fold. -/
theorem aggregateOf_eq (facts : List FactRow) (findingId : String) :
    aggregateOf findingId (rowsOf facts findingId) =
      { findingId
        firstObservedAt := (summarizeFacts (factsOf facts findingId)).firstObservedAt
        lastSeenAt := (summarizeFacts (factsOf facts findingId)).lastSeenAt
        observedCount := (summarizeFacts (factsOf facts findingId)).observedCount } := by
  have hseen : ((rowsOf facts findingId).filterMap fun f =>
      if f.fact.kind = .add || f.fact.kind = .observed then some f.fact.recordedAt else none)
      = ((factsOf facts findingId).filter fun f => f.kind = .add || f.kind = .observed).map
          (·.recordedAt) := by
    rw [← rowsOf_fact, List.filter_map, List.map_map, ← List.filterMap_eq_map,
      List.filterMap_filter]
    apply List.filterMap_congr
    intro row _
    simp
  have hcount : ((rowsOf facts findingId).map fun f =>
      if f.fact.kind = .observed then 1 else 0).sum
      = (factsOf facts findingId).countP fun f => f.kind = .observed := by
    rw [← rowsOf_fact, List.countP_map]
    simpa [Function.comp_def] using
      sum_ite_eq_countP (fun f : StoredFact => decide (f.fact.kind = .observed))
        (rowsOf facts findingId)
  simp only [aggregateOf, summarizeFacts, hseen, hcount]

/-- The group of an asked finding is its rows. -/
theorem group_eq {facts : List FactRow} {batch : List String} {findingId : String}
    (asked : findingId ∈ batch) :
    ((storedFacts facts).filter fun f => decide (f.fact.findingId ∈ batch)).filter
      (fun f => decide (f.fact.findingId = findingId)) = rowsOf facts findingId := by
  rw [List.filter_filter, rowsOf]
  apply List.filter_congr
  intro row _
  by_cases hid : row.fact.findingId = findingId
  · simp [hid, asked]
  · simp [hid]

/-- The findings of a batch that have a fact. -/
def grouped (facts : List FactRow) (batch : List String) : List String :=
  (((storedFacts facts).filter fun f => decide (f.fact.findingId ∈ batch)).map
    (·.fact.findingId)).dedup

theorem mem_grouped {facts : List FactRow} {batch : List String} {findingId : String} :
    findingId ∈ grouped facts batch ↔ findingId ∈ batch ∧ factsOf facts findingId ≠ [] := by
  rw [grouped, List.mem_dedup, List.mem_map]
  constructor
  · rintro ⟨row, hrow, rfl⟩
    obtain ⟨hstored, hasked⟩ := List.mem_filter.mp hrow
    refine ⟨of_decide_eq_true hasked, ?_⟩
    rw [← rowsOf_fact, ne_eq, List.map_eq_nil_iff]
    exact List.ne_nil_of_mem (mem_rowsOf.mpr ⟨hstored, rfl⟩)
  · rintro ⟨hasked, hfacts⟩
    rw [← rowsOf_fact, ne_eq, List.map_eq_nil_iff] at hfacts
    obtain ⟨row, hrow⟩ := List.exists_mem_of_ne_nil _ hfacts
    obtain ⟨hstored, hid⟩ := mem_rowsOf.mp hrow
    exact ⟨row, List.mem_filter.mpr ⟨hstored, by simpa [hid] using hasked⟩, hid⟩

/-- Every entry of a batch is its finding's fold. -/
theorem batchSummaries_eq (facts : List FactRow) (batch : List String) :
    batchSummaries (storedFacts facts) batch
      = some ((grouped facts batch).map fun id => (id, summarizeFacts (factsOf facts id))) := by
  have haggregates : aggregates (storedFacts facts) batch
      = (grouped facts batch).map fun id => aggregateOf id (rowsOf facts id) := by
    unfold aggregates grouped
    apply List.map_congr_left
    intro id hid
    have hasked : id ∈ batch := (mem_grouped.mp hid).1
    simp only [group_eq hasked]
  rw [batchSummaries, haggregates]
  rw [mapM_some (g := fun agg => (agg.findingId, summarizeFacts (factsOf facts agg.findingId)))]
  · rw [List.map_map]
    rfl
  · intro agg hagg
    obtain ⟨id, hid, rfl⟩ := List.mem_map.mp hagg
    obtain ⟨hasked, hfacts⟩ := mem_grouped.mp hid
    obtain ⟨fact, hfact⟩ := Option.ne_none_iff_exists'.mp (newestFact_eq_none.not.mpr hfacts)
    rw [aggregateOf_eq, newestByFinding_eq hasked hfact]
    simp [summarizeFacts, hfact]

/-- The summaries a bulk read returns are the folds of the findings it asked for. -/
theorem factSummaries_eq (facts : List FactRow) (ids : List String) :
    ∃ summaries, factSummaries (storedFacts facts) ids = some summaries ∧
      ids.map summaries = ids.map fun id => summarizeFacts (factsOf facts id) := by
  have hbatches := mapM_some fun batch (_ : batch ∈ idBatches ids) => batchSummaries_eq facts batch
  refine ⟨_, by rw [factSummaries, hbatches, Option.map_some], ?_⟩
  apply List.map_congr_left
  intro id hid
  simp only [List.findRev?_eq_find?_reverse]
  cases hfound : (((idBatches ids).map fun batch => (grouped facts batch).map fun id =>
      (id, summarizeFacts (factsOf facts id))).flatten).reverse.find?
        fun entry => decide (entry.1 = id) with
  | none =>
    -- A finding with no entry has no facts.
    have hempty : factsOf facts id = [] := by
      by_contra hfacts
      rw [← flatten_idBatches ids] at hid
      obtain ⟨batch, hbatch, hasked⟩ := List.mem_flatten.mp hid
      have hentry := List.find?_eq_none.mp hfound (id, summarizeFacts (factsOf facts id)) (by
        rw [List.mem_reverse, List.mem_flatten]
        refine ⟨_, List.mem_map_of_mem hbatch, ?_⟩
        exact List.mem_map_of_mem (f := fun id => (id, summarizeFacts (factsOf facts id)))
          (mem_grouped.mpr ⟨hasked, hfacts⟩))
      simp at hentry
    rw [hempty]
    rfl
  | some entry =>
    have hentry := List.mem_of_find?_eq_some hfound
    rw [List.mem_reverse, List.mem_flatten] at hentry
    obtain ⟨entries, hentries, hmem⟩ := hentry
    obtain ⟨batch, -, rfl⟩ := List.mem_map.mp hentries
    obtain ⟨other, -, rfl⟩ := List.mem_map.mp hmem
    have hkey : other = id := by simpa using List.find?_some hfound
    rw [Option.map_some, Option.getD_some, hkey]

/-! ## The pages -/

variable {κ : Type} [LinearOrder κ]

/-- A page of rows as the page of findings it stands for. -/
def toPage (facts : List FactRow) (ofKey : κ → String) (page : Page FindingRow κ) :
    FindingPage where
  findings := page.items.map (listed facts)
  nextCursor := page.next.map fun key => encodeFindingCursor (ofKey key)

/-- `toKey` reads an id as the key its direction orders by. -/
def Directs (descending : Bool) (toKey : String ≃ κ) : Prop :=
  ∀ a b : String, toKey a < toKey b ↔ if descending then b < a else a < b

theorem directs_ascending : Directs false (Equiv.refl String) := by simp [Directs]

theorem directs_descending : Directs true (OrderDual.toDual (α := String)) := by simp [Directs]

theorem matchesFacts_eq (facts : List FactRow) (filter : FindingFilter) (row : FindingRow) :
    (filter.matchesRow row && filter.matchesFacts (storedFacts facts) row.findingId)
      = filter.keeps (listed facts row) := by
  unfold FindingFilter.keeps FindingFilter.matchesFacts listed
  cases filter.state with
  | none => simp only [newestFactIsLive_eq]
  | some state => simp only [newestFactIsOf_eq]

/-- The rows a filter keeps, in id order. -/
def keptRows (table : FindingTable) (facts : List FactRow) (filter : FindingFilter)
    (descending : Bool) : List FindingRow :=
  (table.rows.insertionSort (inOrder descending)).filter fun row =>
    filter.keeps (listed facts row)

theorem unpaged_eq (table : FindingTable) (facts : List FactRow) (filter : FindingFilter)
    (descending : Bool) :
    unpaged table facts filter descending
      = (keptRows table facts filter descending).map (listed facts) :=
  List.filter_map ..

section
variable {descending : Bool} {toKey : String ≃ κ}

theorem inOrder_iff (directs : Directs descending toKey) (a b : FindingRow) :
    inOrder descending a b ↔ toKey a.findingId ≤ toKey b.findingId := by
  rw [← not_lt, directs]
  unfold inOrder
  cases descending <;> exact not_lt.symm

theorem sorted_rows (directs : Directs descending toKey) {rows : List FindingRow}
    (unique : (rows.map (·.findingId)).Nodup) :
    (rows.insertionSort (inOrder descending)).Pairwise fun a b =>
      toKey a.findingId < toKey b.findingId := by
  have : Std.Total (inOrder descending) :=
    ⟨fun a b => by simp only [inOrder_iff directs]; exact le_total _ _⟩
  have : IsTrans FindingRow (inOrder descending) :=
    ⟨fun a b c => by simp only [inOrder_iff directs]; exact le_trans⟩
  have hsorted := List.pairwise_insertionSort (inOrder descending) rows
  have hperm := List.perm_insertionSort (inOrder descending) rows
  have hnodup : ((rows.insertionSort (inOrder descending)).map (·.findingId)).Nodup :=
    (hperm.map _).nodup_iff.mpr unique
  rw [List.Nodup, List.pairwise_map] at hnodup
  apply (hsorted.and hnodup).imp
  rintro a b ⟨hle, hne⟩
  exact lt_of_le_of_ne ((inOrder_iff directs a b).mp hle) fun heq => hne (toKey.injective heq)

/-- Sorting the rows of a statement is filtering the sorted table. -/
theorem filter_insertionSort (directs : Directs descending toKey) {rows : List FindingRow}
    (unique : (rows.map (·.findingId)).Nodup) (p : FindingRow → Bool) :
    (rows.filter p).insertionSort (inOrder descending)
      = (rows.insertionSort (inOrder descending)).filter p := by
  have hunique : ((rows.filter p).map (·.findingId)).Nodup :=
    unique.sublist (List.filter_sublist.map _)
  have hleft := sorted_rows directs hunique
  have hright := (sorted_rows directs unique).filter p
  have hperm : ((rows.filter p).insertionSort (inOrder descending)).Perm
      ((rows.insertionSort (inOrder descending)).filter p) :=
    (List.perm_insertionSort _ _).trans ((List.perm_insertionSort _ _).symm.filter p)
  apply hperm.eq_of_pairwise _ hleft hright
  intro a b _ _ hab hba
  exact absurd hba (lt_asymm hab)

/-- The rows of a page's statement are the kept rows after its cursor. -/
theorem selectedRows_eq (directs : Directs descending toKey) (table : FindingTable)
    (facts : List FactRow) (filter : FindingFilter) (after : Option String) :
    selectedRows table (storedFacts facts) filter descending after
      = rowsAfter (fun row => toKey row.findingId) (keptRows table facts filter descending)
          (after.map toKey) := by
  rw [selectedRows, filter_insertionSort directs table.findingId_unique, rowsAfter, keptRows,
    List.filter_filter]
  apply List.filter_congr
  intro row _
  rw [← matchesFacts_eq]
  cases after with
  | none => simp
  | some last =>
    have hlt := directs last row.findingId
    cases descending <;> simp_all [Bool.and_comm, Bool.and_left_comm]

/-- A page from a cursor the reader was handed is the page of the kept rows. -/
theorem listPage_eq (directs : Directs descending toKey) (table : FindingTable)
    (facts : List FactRow) (filter : FindingFilter) (n : ℕ) (after : Option String) :
    listPage table (storedFacts facts) filter descending (after.map encodeFindingCursor) (n + 1)
      = .ok (toPage facts toKey.symm
          (page (fun row => toKey row.findingId) (keptRows table facts filter descending) (n + 1)
            (after.map toKey))) := by
  obtain ⟨summaries, hsummaries, hfold⟩ := factSummaries_eq facts
    ((((selectedRows table (storedFacts facts) filter descending after).take (n + 1 + 1)).take
      (n + 1)).map (·.findingId))
  have hlisted : ∀ row ∈ ((selectedRows table (storedFacts facts) filter descending after).take
      (n + 1 + 1)).take (n + 1), livenessOf (summaries row.findingId)
        = derived facts row.findingId := by
    intro row hrow
    have hsummary := List.map_inj_left.mp hfold row.findingId (List.mem_map_of_mem hrow)
    rw [hsummary]
    rfl
  have hpage : (((selectedRows table (storedFacts facts) filter descending after).take
      (n + 1 + 1)).take (n + 1)).map (fun row =>
        (⟨row, livenessOf (summaries row.findingId)⟩ : ListedFinding))
      = (((rowsAfter (fun row => toKey row.findingId) (keptRows table facts filter descending)
          (after.map toKey))).take (n + 1)).map (listed facts) := by
    rw [← selectedRows_eq directs, List.take_take, Nat.min_eq_left (Nat.le_succ _)]
    rw [List.take_take, Nat.min_eq_left (Nat.le_succ _)] at hlisted
    apply List.map_congr_left
    intro row hrow
    rw [hlisted row hrow]
    rfl
  have hmore : n + 1 < ((selectedRows table (storedFacts facts) filter descending after).take
      (n + 1 + 1)).length ↔ n + 1 < (rowsAfter (fun row => toKey row.findingId)
        (keptRows table facts filter descending) (after.map toKey)).length := by
    rw [← selectedRows_eq directs, List.length_take]
    omega
  have hread : readPage table (storedFacts facts) filter descending after (n + 1)
      = .ok (toPage facts toKey.symm (page (fun row => toKey row.findingId)
          (keptRows table facts filter descending) (n + 1) (after.map toKey))) := by
    simp only [readPage, hsummaries, hpage, toPage, page]
    by_cases h : n + 1 < (rowsAfter (fun row => toKey row.findingId)
      (keptRows table facts filter descending) (after.map toKey)).length
    · rw [if_pos (hmore.mpr h), if_pos h]
      simp only [List.getLast?_map, Option.map_map, Function.comp_def, listed,
        Equiv.symm_apply_apply]
    · rw [if_neg (hmore.not.mpr h), if_neg h]
      rfl
  unfold listPage
  rw [if_neg (by omega)]
  cases after <;> exact hread

/-- A reader that hands back the cursors reads the pages of the kept rows. -/
theorem pagesFrom_eq (directs : Directs descending toKey) (table : FindingTable)
    (facts : List FactRow) (filter : FindingFilter) (n fuel : ℕ) (after : Option String) :
    pagesFrom table (storedFacts facts) filter descending (n + 1) fuel
        (after.map encodeFindingCursor)
      = (follow (page (fun row => toKey row.findingId) (keptRows table facts filter descending)
          (n + 1)) fuel (after.map toKey)).map (List.map (toPage facts toKey.symm)) := by
  induction fuel generalizing after with
  | zero => rfl
  | succ fuel ih =>
    rw [pagesFrom, listPage_eq directs, follow]
    cases hnext : (page (fun row => toKey row.findingId) (keptRows table facts filter descending)
        (n + 1) (after.map toKey)).next with
    | none => simp [toPage, hnext]
    | some key =>
      have hrest := ih (some (toKey.symm key))
      simp only [Option.map_some, Equiv.apply_symm_apply] at hrest
      simp only [toPage, hnext, Option.map_some, hrest, Option.map_map, Function.comp_def,
        List.map_cons]

/-- The pages from no cursor on are the unpaged fold's findings, and only the last ends them. -/
theorem pages_eq (directs : Directs descending toKey) (table : FindingTable) (facts : List FactRow)
    (filter : FindingFilter) (n : ℕ) :
    ∃ pages, pagesFrom table (storedFacts facts) filter descending (n + 1)
        (table.rows.length + 1) none = some pages ∧
      pages.flatMap (·.findings) = unpaged table facts filter descending ∧
      pages.map (·.nextCursor.isSome) = List.replicate (pages.length - 1) true ++ [false] := by
  have hsorted := (sorted_rows directs table.findingId_unique).filter fun row =>
    filter.keeps (listed facts row)
  have hlength : (rowsAfter (fun row => toKey row.findingId)
      (keptRows table facts filter descending) none).length < table.rows.length + 1 := by
    have hafter : rowsAfter (fun row => toKey row.findingId)
        (keptRows table facts filter descending) none
          = keptRows table facts filter descending := by simp [rowsAfter]
    have hkept : (keptRows table facts filter descending).length ≤ table.rows.length := by
      have hfilter := List.length_filter_le (fun row => filter.keeps (listed facts row))
        (table.rows.insertionSort (inOrder descending))
      rwa [List.length_insertionSort] at hfilter
    rw [hafter]
    omega
  obtain ⟨pages, hpages, hitems, hflags⟩ := follow_page hsorted n hlength
  have hread := pagesFrom_eq directs table facts filter n (table.rows.length + 1) none
  simp only [Option.map_none] at hread
  change follow (page (fun row => toKey row.findingId) (keptRows table facts filter descending)
    (n + 1)) (table.rows.length + 1) none = some pages at hpages
  rw [hpages, Option.map_some] at hread
  refine ⟨_, hread, ?_, ?_⟩
  · have hall : rowsAfter (fun row => toKey row.findingId)
        (keptRows table facts filter descending) none
          = keptRows table facts filter descending := by simp [rowsAfter]
    rw [unpaged_eq, ← hall, keptRows, ← hitems, List.map_flatMap, List.flatMap_map]
    rfl
  · simpa [List.map_map, Function.comp_def, toPage] using hflags

/-- The unpaged findings come in strict id order. -/
theorem unpaged_ordered (directs : Directs descending toKey) (table : FindingTable)
    (facts : List FactRow) (filter : FindingFilter) :
    (unpaged table facts filter descending).Pairwise fun a b =>
      if descending then b.row.findingId < a.row.findingId
      else a.row.findingId < b.row.findingId := by
  rw [unpaged_eq, List.pairwise_map]
  apply ((sorted_rows directs table.findingId_unique).filter _).imp
  intro a b hlt
  exact (directs a.findingId b.findingId).mp hlt

end

theorem pages_agree (table : FindingTable) (facts : List FactRow) (filter : FindingFilter)
    (descending : Bool) (n : ℕ) :
    (∃ pages, pagesFrom table (storedFacts facts) filter descending (n + 1)
        (table.rows.length + 1) none = some pages ∧
      pages.flatMap (·.findings) = unpaged table facts filter descending ∧
      pages.map (·.nextCursor.isSome) = List.replicate (pages.length - 1) true ++ [false]) ∧
    (unpaged table facts filter descending).Pairwise fun a b =>
      if descending then b.row.findingId < a.row.findingId
      else a.row.findingId < b.row.findingId := by
  cases descending with
  | false =>
    exact ⟨pages_eq directs_ascending table facts filter n,
      unpaged_ordered directs_ascending table facts filter⟩
  | true =>
    exact ⟨pages_eq directs_descending table facts filter n,
      unpaged_ordered directs_descending table facts filter⟩

/-- The SQL summaries, the SQL state predicates and the keyset pages agree with the fold. -/
theorem finding_reads_agree (table : FindingTable) (facts : List FactRow) :
    (∀ ids, ∃ summaries, factSummaries (storedFacts facts) ids = some summaries ∧
      ids.map summaries = ids.map fun id => summarizeFacts (factsOf facts id)) ∧
    (∀ findingId,
      newestFactIsLive (storedFacts facts) findingId = (derived facts findingId).live ∧
      newestFactIsNotExited (storedFacts facts) findingId = !(load facts findingId).exited ∧
      ∀ state, newestFactIsOf (storedFacts facts) findingId state
        = decide ((derived facts findingId).state = state)) ∧
    ∀ (filter : FindingFilter) (descending : Bool) (n : ℕ),
      (∃ pages, pagesFrom table (storedFacts facts) filter descending (n + 1)
          (table.rows.length + 1) none = some pages ∧
        pages.flatMap (·.findings) = unpaged table facts filter descending ∧
        pages.map (·.nextCursor.isSome) = List.replicate (pages.length - 1) true ++ [false]) ∧
      (unpaged table facts filter descending).Pairwise fun a b =>
        if descending then b.row.findingId < a.row.findingId
        else a.row.findingId < b.row.findingId :=
  ⟨factSummaries_eq facts,
    fun findingId => ⟨newestFactIsLive_eq facts findingId, newestFactIsNotExited_eq facts findingId,
      newestFactIsOf_eq facts findingId⟩,
    pages_agree table facts⟩

end Blizzard.FindingAgreement
