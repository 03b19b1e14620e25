import Blizzard.TenantTeardown
import Mathlib.Data.List.Perm.Subperm

/-! # What a tenant's deletion leaves and counts

What one teardown transaction takes from the store is settled table by table; the invariant of a
run follows, and with it that a finished deletion left nothing, counted every row and touched no
other tenant. -/
namespace Blizzard.TeardownSafety
open HubTables TeardownStore TenantTeardown

/-! ## Rows lost -/

theorem lost_self {α : Type} [DecidableEq α] (rows : List α) : lost rows rows = [] := by
  rw [lost, List.filter_eq_nil_iff]
  intro row held
  simpa using held

theorem lost_filter {α : Type} [DecidableEq α] (rows : List α) (gone : α → Bool) :
    lost rows (rows.filter fun row => !gone row) = rows.filter gone := by
  apply List.filter_congr
  intro row held
  simp [held]

/-- What one transaction on one table did for a tenant: `n` rows of it gone, no row of another. -/
structure Trimmed (tenant : TenantId) (before after : Table) (n : ℕ) : Prop where
  count : (lost before.rows after.rows).length = n
  own : ∀ row ∈ lost before.rows after.rows, row.tenantId = tenant
  others : ∀ other, other ≠ tenant → after.own other = before.own other
  shrinks : (after.own tenant).Sublist (before.own tenant)

theorem Trimmed.refl (tenant : TenantId) (table : Table) : Trimmed tenant table table 0 where
  count := by rw [lost_self]; rfl
  own := by rw [lost_self]; intro row h; cases h
  others _ _ := rfl
  shrinks := List.Sublist.refl _

theorem deleteWhere_trimmed (table : Table) (tenant : TenantId) (gone : Row → Bool)
    (own : ∀ row, gone row = true → row.tenantId = tenant) :
    Trimmed tenant table (table.deleteWhere gone) (table.rows.countP gone) where
  count := by rw [Table.deleteWhere, lost_filter, List.countP_eq_length_filter]
  own := by
    rw [Table.deleteWhere, lost_filter]
    intro row held
    exact own row (List.mem_filter.mp held).2
  others := by
    intro other foreign
    rw [Table.own, Table.own, Table.deleteWhere, List.filter_filter]
    apply List.filter_congr
    intro row _
    by_cases mine : row.tenantId = other
    · have kept : gone row = false := by
        apply Bool.eq_false_iff.mpr
        intro hit
        exact foreign (mine.symm.trans (own row hit))
      simp [mine, kept]
    · simp [mine]
  shrinks := by
    rw [Table.own, Table.own, Table.deleteWhere]
    exact List.filter_sublist.filter _

/-- The picked rows of a batch's delete and the rows it takes are as many. -/
theorem deleteSome_spec (scan : Scan) (tenant : TenantId) (limit : ℕ) (table : Table) :
    let result := deleteSome scan tenant limit table
    Trimmed tenant table result.1 result.2 ∧ result.2 ≤ limit ∧
      (result.2 < limit → result.1.own tenant = []) := by
  set picked := (scan.order (table.own tenant)).take limit with hpicked
  set gone := fun row : Row =>
    decide (row.tenantId = tenant) && decide (row.key ∈ picked.map (·.key)) with hgone
  have taken : deleteSome scan tenant limit table =
      (table.deleteWhere gone, table.rows.countP gone) := rfl
  have perm : (scan.order (table.own tenant)).Perm (table.own tenant) := scan.visits _
  have distinct : table.rows.Nodup := List.Nodup.of_map _ table.distinct
  have pickedNodup : picked.Nodup :=
    (List.take_sublist _ _).nodup (perm.nodup_iff.mpr (distinct.filter _))
  have pickedGone : picked ⊆ table.rows.filter gone := by
    intro row hrow
    have mine := perm.mem_iff.mp ((List.take_sublist _ _).subset hrow)
    obtain ⟨held, tenanted⟩ := List.mem_filter.mp mine
    refine List.mem_filter.mpr ⟨held, ?_⟩
    rw [hgone]
    simp only [Bool.and_eq_true, decide_eq_true_eq]
    exact ⟨of_decide_eq_true tenanted, List.mem_map_of_mem hrow⟩
  have goneKeys : ((table.rows.filter gone).map (·.key)) ⊆ picked.map (·.key) := by
    intro key hkey
    obtain ⟨row, hrow, rfl⟩ := List.mem_map.mp hkey
    have hit := (List.mem_filter.mp hrow).2
    simp only [hgone, Bool.and_eq_true, decide_eq_true_eq] at hit
    exact hit.2
  have goneNodup : ((table.rows.filter gone).map (·.key)).Nodup :=
    (List.filter_sublist.map _).nodup table.distinct
  have atMost : table.rows.countP gone ≤ picked.length := by
    have := (goneNodup.subperm goneKeys).length_le
    rwa [List.length_map, List.length_map, ← List.countP_eq_length_filter] at this
  have atLeast : picked.length ≤ table.rows.countP gone := by
    have := (pickedNodup.subperm pickedGone).length_le
    rwa [← List.countP_eq_length_filter] at this
  have bounded : picked.length ≤ limit := List.length_take_le _ _
  rw [taken]
  refine ⟨deleteWhere_trimmed table tenant gone ?_, by omega, ?_⟩
  · intro row hit
    simp only [hgone, Bool.and_eq_true, decide_eq_true_eq] at hit
    exact hit.1
  · intro short
    have all : picked = scan.order (table.own tenant) := by
      apply List.take_of_length_le
      have : picked.length = min limit (scan.order (table.own tenant)).length :=
        List.length_take
      omega
    rw [Table.own, List.filter_eq_nil_iff]
    intro row hrow mine
    obtain ⟨held, kept⟩ := List.mem_filter.mp hrow
    have tenanted : row.tenantId = tenant := of_decide_eq_true mine
    have own : row ∈ table.own tenant := List.mem_filter.mpr ⟨held, mine⟩
    have hit : gone row = true := by
      simp only [hgone, Bool.and_eq_true, decide_eq_true_eq]
      exact ⟨tenanted, List.mem_map_of_mem (all ▸ perm.mem_iff.mpr own)⟩
    rw [hit] at kept
    cases kept

/-- One batch's walk: the rows it counts are the rows gone, and a walk that stops short of its limit
left no table with a row. -/
theorem drainTables_spec (scan : Scan) (tenant : TenantId) (limit : ℕ) (names : List TableName)
    (tables : TableName → Table) (removed : ℕ) (distinct : names.Nodup) (under : removed ≤ limit) :
    let result := drainTables scan tenant limit names tables removed
    (∀ name, name ∉ names → result.1 name = tables name) ∧
      (∀ name, ∃ n, Trimmed tenant (tables name) (result.1 name) n) ∧
      (names.flatMap fun name => lost (tables name).rows (result.1 name).rows).length + removed =
        result.2 ∧
      (∀ name ∈ names, ∀ row ∈ lost (tables name).rows (result.1 name).rows,
        row.tenantId = tenant) ∧
      result.2 ≤ limit ∧
      (result.2 < limit → ∀ name ∈ names, (result.1 name).own tenant = []) := by
  induction names generalizing tables removed with
  | nil => exact ⟨fun _ _ => rfl, fun name => ⟨0, .refl _ _⟩, by simp [drainTables],
      by simp, under, by simp⟩
  | cons name rest ih =>
    obtain ⟨absent, distinctRest⟩ := List.nodup_cons.mp distinct
    rw [drainTables]
    split
    next full =>
      refine ⟨fun _ _ => rfl, fun name => ⟨0, .refl _ _⟩, ?_, ?_, under, fun short => ?_⟩
      · simp [lost_self]
      · intro _ _ row held
        rw [lost_self] at held
        cases held
      · omega
    next space =>
      obtain ⟨trimmed, atMost, emptied⟩ := deleteSome_spec scan tenant (limit - removed)
        (tables name)
      revert trimmed atMost emptied
      rcases deleteSome scan tenant (limit - removed) (tables name) with ⟨table, count⟩
      intro trimmed atMost emptied
      dsimp only at trimmed atMost emptied ⊢
      obtain ⟨quiet, each, total, own, bounded, walked⟩ :=
        ih (Function.update tables name table) (removed + count) distinctRest (by omega)
      revert quiet each total own bounded walked
      generalize drainTables scan tenant limit rest (Function.update tables name table)
        (removed + count) = result
      intro quiet each total own bounded walked
      have here : result.1 name = table := by
        rw [quiet name absent, Function.update_self]
      have elsewhere : ∀ other ∈ rest, Function.update tables name table other = tables other := by
        intro other held
        apply Function.update_of_ne
        rintro rfl
        exact absent held
      have restLost : (rest.flatMap fun other => lost (tables other).rows (result.1 other).rows) =
          rest.flatMap fun other =>
            lost (Function.update tables name table other).rows (result.1 other).rows := by
        apply List.flatMap_congr
        intro other held
        rw [elsewhere other held]
      refine ⟨?_, ?_, ?_, ?_, bounded, ?_⟩
      · intro other outside
        rw [List.mem_cons, not_or] at outside
        obtain ⟨differs, outsideRest⟩ := outside
        rw [quiet other outsideRest, Function.update_of_ne differs]
      · intro other
        by_cases same : other = name
        · subst same
          exact ⟨count, here ▸ trimmed⟩
        · obtain ⟨n, step⟩ := each other
          rw [Function.update_of_ne same] at step
          exact ⟨n, step⟩
      · rw [List.flatMap_cons, List.length_append, restLost, here, trimmed.count]
        omega
      · intro other held row gone
        rcases List.mem_cons.mp held with rfl | later
        · rw [here] at gone
          exact trimmed.own row gone
        · apply own other later row
          rwa [elsewhere other later]
      · intro short other held
        rcases List.mem_cons.mp held with rfl | later
        · rw [here]
          exact emptied (by omega)
        · exact walked short other later

/-! ## One teardown transaction -/

/-- What one transaction of a tenant's teardown did to the store: `n` rows gone, all the
tenant's, and counted in its deletion fact, which it may have marked finished. -/
structure TornDown (schema : Schema) (tenant : TenantId) (before after : Store) (n : ℕ)
    (finished : Prop) : Prop where
  count : (lostRows schema before after).length = n
  own : ∀ owner ∈ lostRows schema before after, owner = tenant
  others : ∀ name other, other ≠ tenant →
    (after.tables name).own other = (before.tables name).own other
  shrinks : ∀ name, ((after.tables name).own tenant).Sublist ((before.tables name).own tenant)
  named : after.deletions.map (·.tenantId) = before.deletions.map (·.tenantId)
  recorded : ∀ d ∈ after.deletions, ∃ was ∈ before.deletions, was.tenantId = d.tenantId ∧
    (∀ k, was.rowsRemoved = some k →
      d.rowsRemoved = some (k + if d.tenantId = tenant then n else 0)) ∧
    (d.deletedAt.isSome → was.deletedAt.isSome ∨ d.tenantId = tenant ∧ finished)
  tenants : ∀ row ∈ before.tenants, row.tenantId ≠ tenant → row ∈ after.tenants

theorem TornDown.refl (schema : Schema) (tenant : TenantId) (s : Store) (finished : Prop) :
    TornDown schema tenant s s 0 finished where
  count := by simp [lostRows, lost_self]
  own := by simp [lostRows, lost_self]
  others _ _ _ := rfl
  shrinks _ := List.Sublist.refl _
  named := rfl
  recorded := by
    intro d held
    refine ⟨d, held, rfl, fun k was => ?_, .inl⟩
    simpa using was
  tenants _ held _ := held

theorem isClosed_iff (s : Store) (tenant : TenantId) :
    s.isClosed tenant = true ↔ tenant ∈ s.deletions.map (·.tenantId) := by
  simp [Store.isClosed]

theorem TornDown.isClosed {schema : Schema} {tenant : TenantId} {before after : Store} {n : ℕ}
    {finished : Prop} (step : TornDown schema tenant before after n finished) (other : TenantId) :
    after.isClosed other = before.isClosed other := by
  rw [Bool.eq_iff_iff, isClosed_iff, isClosed_iff, step.named]

/-- A store emptied of a tenant stays so under any teardown. -/
theorem TornDown.empty {schema : Schema} {tenant other : TenantId} {before after : Store} {n : ℕ}
    {finished : Prop} (step : TornDown schema tenant before after n finished)
    (empty : before.Empty schema other) : after.Empty schema other := by
  intro name drained
  by_cases same : other = tenant
  · subst same
    have nothing := empty name drained
    exact List.sublist_nil.mp (nothing ▸ step.shrinks name)
  · rw [step.others name other same]
    exact empty name drained

theorem updateDeletion_named (s : Store) (tenant : TenantId)
    (set : TenantDeletion → TenantDeletion) (keeps : ∀ d, (set d).tenantId = d.tenantId) :
    (s.updateDeletion tenant set).deletions.map (·.tenantId) =
      s.deletions.map (·.tenantId) := by
  rw [Store.updateDeletion, List.map_map]
  apply List.map_congr_left
  intro d _
  simp only [Function.comp_apply]
  split
  · exact keeps d
  · rfl

theorem updateDeletion_recorded (s : Store) (tenant : TenantId) (n : ℕ)
    (set : TenantDeletion → TenantDeletion) (finished : Prop)
    (keeps : ∀ d, (set d).tenantId = d.tenantId)
    (counts : ∀ d, (set d).rowsRemoved = some (d.rowsRemoved.getD 0 + n))
    (finishes : ∀ d, (set d).deletedAt.isSome → d.deletedAt.isSome ∨ finished) :
    ∀ d ∈ (s.updateDeletion tenant set).deletions, ∃ was ∈ s.deletions,
      was.tenantId = d.tenantId ∧
      (∀ k, was.rowsRemoved = some k →
        d.rowsRemoved = some (k + if d.tenantId = tenant then n else 0)) ∧
      (d.deletedAt.isSome → was.deletedAt.isSome ∨ d.tenantId = tenant ∧ finished) := by
  intro d held
  obtain ⟨was, hwas, rfl⟩ := List.mem_map.mp held
  refine ⟨was, hwas, ?_⟩
  by_cases mine : was.tenantId = tenant
  · rw [if_pos mine]
    refine ⟨(keeps was).symm, fun k counted => ?_, fun done => ?_⟩
    · rw [counts, counted, if_pos ((keeps was).trans mine)]
      rfl
    · rcases finishes was done with already | now
      · exact .inl already
      · exact .inr ⟨(keeps was).trans mine, now⟩
  · rw [if_neg mine]
    refine ⟨rfl, fun k counted => ?_, .inl⟩
    rw [if_neg mine, counted]
    rfl

/-- One drain batch. -/
theorem drainBatch_spec {schema : Schema} {scan : Scan} {s after : Store} {tenant : TenantId}
    {limit n : ℕ} (batch : drainBatch schema scan s tenant limit = some (n, after))
    (finished : Prop) :
    TornDown schema tenant s after n finished ∧ n ≤ limit ∧
      (n < limit → after.Empty schema tenant) := by
  rw [drainBatch] at batch
  split at batch
  next underway =>
    obtain ⟨_, each, total, own, bounded, walked⟩ := drainTables_spec scan tenant limit
      schema.drainOrder s.tables 0 schema.drainOrder_nodup (Nat.zero_le _)
    revert batch each total own bounded walked
    rcases drainTables scan tenant limit schema.drainOrder s.tables 0 with ⟨tables, removed⟩
    intro batch each total own bounded walked
    dsimp only at batch each total own bounded walked
    rw [Option.some_inj, Prod.mk.injEq] at batch
    obtain ⟨rfl, rfl⟩ := batch
    have tablesAre : ∀ (b : Prop) [Decidable b],
        (if b then ({ s with tables } : Store)
          else ({ s with tables } : Store).updateDeletion tenant (·.count removed)).tables =
            tables := by
      intro b _
      split <;> rfl
    have lostAre : lostRows schema s (if removed = 0 then { s with tables }
          else ({ s with tables } : Store).updateDeletion tenant (·.count removed)) =
        (schema.drainOrder.flatMap fun name =>
          (lost (s.tables name).rows (tables name).rows).map (·.tenantId)) := by
      split <;> simp [lostRows, Store.updateDeletion, lost_self]
    refine ⟨⟨?_, ?_, ?_, ?_, ?_, ?_, ?_⟩, bounded, ?_⟩
    · rw [lostAre, ← total, List.length_flatMap, List.length_flatMap]
      simp
    · rw [lostAre]
      intro owner held
      obtain ⟨name, drained, gone⟩ := List.mem_flatMap.mp held
      obtain ⟨row, hrow, rfl⟩ := List.mem_map.mp gone
      exact own name drained row hrow
    · intro name other foreign
      rw [tablesAre]
      obtain ⟨_, trimmed⟩ := each name
      exact trimmed.others other foreign
    · intro name
      rw [tablesAre]
      obtain ⟨_, trimmed⟩ := each name
      exact trimmed.shrinks
    · split
      · rfl
      · exact updateDeletion_named _ tenant _ fun _ => rfl
    · split
      next none_ =>
        intro d held
        refine ⟨d, held, rfl, fun k was => ?_, .inl⟩
        rw [none_, was]
        simp
      next some_ =>
        exact updateDeletion_recorded { s with tables } tenant removed _ finished (fun _ => rfl)
          (fun _ => rfl) (fun _ => .inl)
    · intro row held _
      split <;> exact held
    · intro short name drained
      rw [tablesAre]
      exact walked short name drained
  next => cases batch

/-- The completion: the tenant's own row and memberships, and the finish. -/
theorem complete_spec {schema : Schema} {s after : Store} {tenant : TenantId} {at_ : Instant}
    {total : ℕ} (completed : complete s tenant at_ = some (total, after)) :
    TornDown schema tenant s after (s.memberships.countP (·.tenantId = tenant) +
      s.tenants.countP (·.tenantId = tenant)) True := by
  rw [complete] at completed
  split at completed
  next underway =>
    rw [Option.some_inj, Prod.mk.injEq] at completed
    obtain ⟨_, rfl⟩ := completed
    have members : lost s.memberships (s.memberships.filter (·.tenantId ≠ tenant)) =
        s.memberships.filter (·.tenantId = tenant) := by
      simpa using lost_filter s.memberships fun m => decide (m.tenantId = tenant)
    have rows : lost s.tenants (s.tenants.filter (·.tenantId ≠ tenant)) =
        s.tenants.filter (·.tenantId = tenant) := by
      simpa using lost_filter s.tenants fun t => decide (t.tenantId = tenant)
    have lostAre : lostRows schema s (({ s with
          memberships := s.memberships.filter (·.tenantId ≠ tenant)
          tenants := s.tenants.filter (·.tenantId ≠ tenant) } : Store).updateDeletion tenant
            fun d => { d.count (s.memberships.countP (·.tenantId = tenant) +
              s.tenants.countP (·.tenantId = tenant)) with deletedAt := some at_ }) =
        (s.memberships.filter (·.tenantId = tenant)).map (·.tenantId) ++
          (s.tenants.filter (·.tenantId = tenant)).map (·.tenantId) := by
      rw [← members, ← rows]
      simp [lostRows, Store.updateDeletion, lost_self]
    refine ⟨?_, ?_, fun _ _ _ => rfl, fun _ => List.Sublist.refl _, ?_, ?_, ?_⟩
    · rw [lostAre]
      simp [List.countP_eq_length_filter]
    · rw [lostAre]
      intro owner held
      simp only [List.mem_append, List.mem_map, List.mem_filter, decide_eq_true_eq] at held
      rcases held with ⟨_, ⟨_, mine⟩, rfl⟩ | ⟨_, ⟨_, mine⟩, rfl⟩ <;> exact mine
    · exact updateDeletion_named _ tenant _ fun _ => rfl
    · exact updateDeletion_recorded _ tenant _ _ True (fun _ => rfl) (fun _ => rfl)
        fun _ _ => .inr trivial
    · intro row held foreign
      exact List.mem_filter.mpr ⟨held, by simpa using foreign⟩
  next => cases completed

/-- What a pass's next transaction did to the pass and to the store. -/
theorem pass_step (schema : Schema) (batchRows : ℕ) (scan : Scan) (at_ : Instant) (p : Pass)
    (s : Store) :
    let result := p.step schema batchRows scan at_ s
    ∃ n, TornDown schema p.tenant s result.2 n (p.drained = some true) ∧
      result.1.tenant = p.tenant ∧ result.1.budget = p.budget ∧
      result.1.removed = p.removed + (if p.drained.isNone then n else 0) ∧
      (p.removed ≤ p.budget → result.1.removed ≤ p.budget) ∧
      (result.1.drained = some true → p.drained = some true ∨
        result.2.Empty schema p.tenant ∨ s.tearingDown p.tenant = false) := by
  obtain ⟨tenant, budget, removed, drained, live⟩ := p
  rw [Pass.step]
  dsimp only
  rcases drained with _ | drained
  · dsimp only [Option.isNone]
    split
    next under =>
      rcases batch : drainBatch schema scan s tenant (min batchRows (budget - removed))
        with _ | ⟨n, after⟩
      · refine ⟨0, .refl _ _ _ _, rfl, rfl, rfl, fun h => h, fun _ => .inr (.inr ?_)⟩
        rw [drainBatch] at batch
        split at batch
        · cases batch
        next idle => exact Bool.eq_false_iff.mpr idle
      · obtain ⟨torn, bounded, walked⟩ := drainBatch_spec batch (none = some true)
        dsimp only
        split
        next short =>
          exact ⟨n, torn, rfl, rfl, rfl, fun h => by dsimp only; omega,
            fun _ => .inr (.inl (walked short))⟩
        next full =>
          exact ⟨n, torn, rfl, rfl, rfl, fun h => by dsimp only; omega,
            fun done => by cases done⟩
    next spent =>
      exact ⟨0, .refl _ _ _ _, rfl, rfl, rfl, fun h => h, fun done => by cases done⟩
  · rcases drained with _ | _
    · exact ⟨0, .refl _ _ _ _, rfl, rfl, rfl, fun h => h, fun done => by cases done⟩
    · dsimp only
      rcases completed : complete s tenant at_ with _ | ⟨total, after⟩
      · exact ⟨0, .refl _ _ _ _, rfl, rfl, rfl, fun h => h, fun _ => .inl rfl⟩
      · obtain torn := complete_spec completed
        refine ⟨_, ⟨torn.count, torn.own, torn.others, torn.shrinks, torn.named, ?_,
          torn.tenants⟩, rfl, rfl, rfl, fun h => h, fun _ => .inl rfl⟩
        intro d held
        obtain ⟨was, hwas, same, counted, done⟩ := torn.recorded d held
        exact ⟨was, hwas, same, counted, fun marked => (done marked).imp id fun h => ⟨h.1, rfl⟩⟩

/-! ## Tenant-scoped writes -/

/-- What a write of one tenant left as it was. -/
structure Confined (tenant : TenantId) (before after : Store) : Prop where
  deletions : after.deletions = before.deletions
  tenants : after.tenants = before.tenants
  others : ∀ name other, other ≠ tenant →
    (after.tables name).own other = (before.tables name).own other

theorem Confined.trans {tenant : TenantId} {a b c : Store} (first : Confined tenant a b)
    (second : Confined tenant b c) : Confined tenant a c where
  deletions := second.deletions.trans first.deletions
  tenants := second.tenants.trans first.tenants
  others name other foreign :=
    (second.others name other foreign).trans (first.others name other foreign)

theorem update_others {tables : TableName → Table} {written : TableName} {table : Table}
    {other : TenantId} (same : table.own other = (tables written).own other) (name : TableName) :
    (Function.update tables written table name).own other = (tables name).own other := by
  by_cases here : name = written
  · subst here
    rw [Function.update_self]
    exact same
  · rw [Function.update_of_ne here]

theorem change_confined {tenant : TenantId} {s after : Store} {change : Change}
    (applied : change.apply tenant s = some after) : Confined tenant s after := by
  cases change with
  | insert written key =>
    obtain ⟨table, inserted, rfl⟩ := Option.map_eq_some_iff.mp applied
    rw [Table.insert] at inserted
    split at inserted
    next fresh =>
      rw [Option.some_inj] at inserted
      subst inserted
      refine ⟨rfl, rfl, fun name other foreign => update_others ?_ name⟩
      rw [Table.own, Table.own, List.filter_append, List.filter_singleton]
      simp [foreign.symm]
    next => cases inserted
  | delete written key =>
    rw [Change.apply, Option.some_inj] at applied
    subst applied
    refine ⟨rfl, rfl, fun name other foreign => update_others ?_ name⟩
    refine (deleteWhere_trimmed _ tenant _ ?_).others other foreign
    intro row hit
    simp only [Bool.and_eq_true, decide_eq_true_eq] at hit
    exact hit.1
  | grant id userId =>
    rw [Change.apply, Option.some_inj] at applied
    subst applied
    exact ⟨rfl, rfl, fun _ _ _ => rfl⟩

theorem applyChanges_confined {tenant : TenantId} {changes : List Change} {s after : Store}
    (applied : applyChanges tenant changes s = some after) : Confined tenant s after := by
  induction changes generalizing s with
  | nil =>
    rw [applyChanges, Option.some_inj] at applied
    subst applied
    exact ⟨rfl, rfl, fun _ _ _ => rfl⟩
  | cons change rest ih =>
    obtain ⟨middle, first, second⟩ := Option.bind_eq_some_iff.mp applied
    exact (change_confined first).trans (ih second)

theorem Confined.empty {schema : Schema} {tenant other : TenantId} {before after : Store}
    (write : Confined tenant before after) (foreign : other ≠ tenant)
    (empty : before.Empty schema other) : after.Empty schema other := by
  intro name drained
  rw [write.others name other foreign]
  exact empty name drained

theorem found_spec {s after : Store} {tenant : TenantId} {name : String} {changes : List Change}
    (founded : TeardownStore.found s tenant name changes = some after) :
    s.isClosed tenant = false ∧ after.deletions = s.deletions ∧
      (∀ row ∈ s.tenants, row ∈ after.tenants) ∧
      ∀ table other, other ≠ tenant →
        (after.tables table).own other = (s.tables table).own other := by
  rw [TeardownStore.found] at founded
  split at founded
  next => cases founded
  next fresh =>
    dsimp only at founded
    split at founded
    next opened =>
      have write := applyChanges_confined founded
      rw [Store.isOpen, Bool.and_eq_true, Bool.not_eq_true'] at opened
      refine ⟨opened.2, write.deletions, fun row held => ?_, write.others⟩
      rw [write.tenants]
      exact List.mem_append_left _ held
    next => cases founded

/-! ## The invariant of a run -/

/-- What holds of the hub between any two transactions. -/
structure Accounted (schema : Schema) (h : Hub) : Prop where
  opened : ∃ row ∈ h.store.tenants, h.store.isClosed row.tenantId = false
  writers : ∀ tenant, (h.writing tenant).isSome → h.store.isClosed tenant = false
  finished : ∀ d ∈ h.store.deletions, d.deletedAt.isSome → h.store.Empty schema d.tenantId
  recorded : ∀ d ∈ h.store.deletions, d.rowsRemoved = some (h.removedFor d.tenantId)
  closed : ∀ p ∈ h.passes, h.store.isClosed p.tenant = true
  within : ∀ p ∈ h.passes, p.removed ≤ p.budget
  drained : ∀ p ∈ h.passes, p.drained = some true → h.store.Empty schema p.tenant
  counted : ∀ i p, h.passes[i]? = some p → h.removedBy i = p.removed
  own : ∀ r ∈ h.removals, r.rowTenant = r.tenant
  begun : ∀ r ∈ h.removals, r.pass < h.passes.length
  torn : ∀ r ∈ h.removals, h.store.isClosed r.tenant = true

theorem accounted_start (schema : Schema) (start : OpenStore) :
    Accounted schema { store := start.store } := by
  have closed (tenant : TenantId) : start.store.isClosed tenant = false := by
    rw [Store.isClosed, start.undeleted]
    rfl
  refine ⟨?_, ?_, ?_, ?_, ?_, ?_, ?_, ?_, ?_, ?_, ?_⟩
  · obtain ⟨row, held⟩ := List.exists_mem_of_ne_nil _ start.inhabited
    exact ⟨row, held, closed _⟩
  · intro tenant _
    exact closed tenant
  · intro d held
    rw [start.undeleted] at held
    cases held
  · intro d held
    rw [start.undeleted] at held
    cases held
  all_goals simp

variable {schema : Schema} {h : Hub}

/-- A closed tenant has no write in flight. -/
theorem Accounted.unwritten (kept : Accounted schema h) {tenant : TenantId}
    (closed : h.store.isClosed tenant = true) : h.writing tenant = none := by
  rcases writing : h.writing tenant with _ | changes
  · rfl
  · have opened := kept.writers tenant (by rw [writing]; rfl)
    rw [closed] at opened
    cases opened

theorem isClosed_of_mem {s : Store} {d : TenantDeletion} (held : d ∈ s.deletions) :
    s.isClosed d.tenantId = true :=
  (isClosed_iff s d.tenantId).mpr (List.mem_map_of_mem held)

/-- A committed write of an open tenant keeps the account. -/
theorem Accounted.written (kept : Accounted schema h) {tenant : TenantId} {store : Store}
    {writing : TenantId → Option (List Change)} (opened : h.store.isClosed tenant = false)
    (deletions : store.deletions = h.store.deletions)
    (tenants : ∀ row ∈ h.store.tenants, row ∈ store.tenants)
    (others : ∀ name other, other ≠ tenant →
      (store.tables name).own other = (h.store.tables name).own other)
    (fewer : ∀ other, (writing other).isSome → (h.writing other).isSome) :
    Accounted schema { h with store, writing } := by
  have same (other : TenantId) : store.isClosed other = h.store.isClosed other := by
    rw [Store.isClosed, Store.isClosed, deletions]
  have empty (other : TenantId) (closed : h.store.isClosed other = true)
      (was : h.store.Empty schema other) : store.Empty schema other := by
    intro name drained
    rw [others name other ?_]
    · exact was name drained
    · rintro rfl
      rw [opened] at closed
      cases closed
  constructor
  case opened =>
    obtain ⟨row, held, isOpen⟩ := kept.opened
    exact ⟨row, tenants row held, (same _).trans isOpen⟩
  case writers =>
    intro other some_
    exact (same other).trans (kept.writers other (fewer other some_))
  case finished =>
    intro d held done
    dsimp only at held
    rw [deletions] at held
    exact empty _ (isClosed_of_mem held) (kept.finished d held done)
  case recorded =>
    intro d held
    dsimp only at held
    rw [deletions] at held
    exact kept.recorded d held
  case closed => exact fun p held => (same _).trans (kept.closed p held)
  case within => exact kept.within
  case drained => exact fun p held done => empty _ (kept.closed p held) (kept.drained p held done)
  case counted => exact kept.counted
  case own => exact kept.own
  case begun => exact kept.begun
  case torn => exact fun r held => (same _).trans (kept.torn r held)

/-- Opening, continuing or dropping writes keeps the account where the open ones stay within open
tenants. -/
theorem Accounted.rewriting (kept : Accounted schema h)
    {writing : TenantId → Option (List Change)}
    (writers : ∀ tenant, (writing tenant).isSome → h.store.isClosed tenant = false) :
    Accounted schema { h with writing } :=
  ⟨kept.opened, writers, kept.finished, kept.recorded, kept.closed, kept.within, kept.drained,
    kept.counted, kept.own, kept.begun, kept.torn⟩

/-- What becomes of the passes themselves, apart from their counts and answers, is no part of the
account. -/
theorem Accounted.killed (kept : Accounted schema h) (kill : ℕ → Bool) :
    Accounted schema { h with
      passes := h.passes.mapIdx fun i p => if kill i then { p with live := false } else p } := by
  have from_ {p : Pass} (held : p ∈ h.passes.mapIdx fun i p =>
      if kill i then { p with live := false } else p) : ∃ was ∈ h.passes,
        p.tenant = was.tenant ∧ p.budget = was.budget ∧ p.removed = was.removed ∧
          p.drained = was.drained := by
    obtain ⟨i, inside, rfl⟩ := List.mem_mapIdx.mp held
    refine ⟨h.passes[i], List.getElem_mem inside, ?_⟩
    split <;> exact ⟨rfl, rfl, rfl, rfl⟩
  constructor
  case opened => exact kept.opened
  case writers => exact kept.writers
  case finished => exact kept.finished
  case recorded => exact kept.recorded
  case closed =>
    intro p held
    obtain ⟨was, inside, tenant, _⟩ := from_ held
    rw [tenant]
    exact kept.closed was inside
  case within =>
    intro p held
    obtain ⟨was, inside, _, budget, removed, _⟩ := from_ held
    rw [budget, removed]
    exact kept.within was inside
  case drained =>
    intro p held done
    obtain ⟨was, inside, tenant, _, _, drained⟩ := from_ held
    rw [tenant]
    exact kept.drained was inside (drained ▸ done)
  case counted =>
    intro i p at_
    rw [List.getElem?_mapIdx, Option.map_eq_some_iff] at at_
    obtain ⟨was, held, rfl⟩ := at_
    have counted := kept.counted i was held
    split <;> exact counted
  case own => exact kept.own
  case begun =>
    intro r held
    rw [List.length_mapIdx]
    exact kept.begun r held
  case torn => exact kept.torn

/-- Passes that begin over closed tenants start from nothing. -/
theorem Accounted.begin (kept : Accounted schema h) (tenants : List TenantId) (budget : Option ℕ)
    (closed : ∀ tenant ∈ tenants, h.store.isClosed tenant = true) :
    Accounted schema { h with passes := h.passes ++ tenants.map (.begin budget) } := by
  have new {p : Pass} (held : p ∈ h.passes ++ tenants.map (.begin budget)) :
      p ∈ h.passes ∨ ∃ tenant ∈ tenants, p = .begin budget tenant := by
    rcases List.mem_append.mp held with old | begun
    · exact .inl old
    · obtain ⟨tenant, inside, rfl⟩ := List.mem_map.mp begun
      exact .inr ⟨tenant, inside, rfl⟩
  constructor
  case opened => exact kept.opened
  case writers => exact kept.writers
  case finished => exact kept.finished
  case recorded => exact kept.recorded
  case closed =>
    intro p held
    rcases new held with old | ⟨tenant, inside, rfl⟩
    · exact kept.closed p old
    · exact closed tenant inside
  case within =>
    intro p held
    rcases new held with old | ⟨tenant, inside, rfl⟩
    · exact kept.within p old
    · exact Nat.zero_le _
  case drained =>
    intro p held done
    rcases new held with old | ⟨tenant, inside, rfl⟩
    · exact kept.drained p old done
    · cases done
  case counted =>
    intro i p at_
    by_cases old : i < h.passes.length
    · rw [List.getElem?_append_left old] at at_
      exact kept.counted i p at_
    · rw [List.getElem?_append_right (by omega)] at at_
      obtain ⟨tenant, inside, rfl⟩ := List.mem_map.mp (List.mem_of_getElem? at_)
      apply List.countP_eq_zero.mpr
      intro r held counted
      have early := kept.begun r held
      simp only [Bool.and_eq_true, decide_eq_true_eq] at counted
      omega
  case own => exact kept.own
  case begun =>
    intro r held
    have early := kept.begun r held
    rw [List.length_append]
    omega
  case torn => exact kept.torn

theorem removedFor_append (h : Hub) (i : ℕ) (tenant other : TenantId) (draining : Bool)
    (rows : List TenantId) :
    (h.removals ++ rows.map fun rowTenant =>
      { pass := i, tenant, draining, rowTenant : Removal }).countP (·.tenant = other) =
        h.removedFor other + if other = tenant then rows.length else 0 := by
  rw [List.countP_append, List.countP_map, Hub.removedFor]
  congr 1
  split
  next same =>
    rw [List.countP_eq_length]
    intro row _
    simp [same]
  next differs =>
    rw [List.countP_eq_zero]
    intro row _
    simp [Ne.symm differs]

theorem removedBy_append (h : Hub) (i j : ℕ) (tenant : TenantId) (draining : Bool)
    (rows : List TenantId) :
    (h.removals ++ rows.map fun rowTenant =>
      { pass := i, tenant, draining, rowTenant : Removal }).countP
        (fun r => r.pass = j && r.draining) =
        h.removedBy j + if i = j ∧ draining = true then rows.length else 0 := by
  rw [List.countP_append, List.countP_map, Hub.removedBy]
  congr 1
  split
  next same =>
    rw [List.countP_eq_length]
    intro row _
    simp [same]
  next differs =>
    rw [List.countP_eq_zero]
    intro row _
    simpa using differs

/-- A pass's next transaction keeps the account: what it takes is entered and counted. -/
theorem accounted_advance (kept : Accounted schema h) (batchRows i : ℕ) (at_ : Instant)
    (scan : Scan) : Accounted schema (h.advance schema batchRows i at_ scan) := by
  rw [Hub.advance]
  rcases found : h.passes[i]? with _ | p
  · exact kept
  dsimp only
  split
  case isFalse => exact kept
  have held : p ∈ h.passes := List.mem_of_getElem? found
  have inside : i < h.passes.length := (List.getElem?_eq_some_iff.mp found).1
  obtain ⟨n, torn, tenant, budget, removed, within, drained⟩ :=
    pass_step schema batchRows scan at_ p h.store
  revert torn tenant budget removed within drained
  rcases p.step schema batchRows scan at_ h.store with ⟨p', store⟩
  intro torn tenant budget removed within drained
  dsimp only at torn tenant budget removed within drained ⊢
  have closed := kept.closed p held
  -- an answer of a drained tenant is earlier, its own batch's, or a finished deletion's
  have emptied (done : p'.drained = some true) : store.Empty schema p.tenant := by
    rcases drained done with already | walked | idle
    · exact torn.empty (kept.drained p held already)
    · exact walked
    · rw [isClosed_iff, List.mem_map] at closed
      obtain ⟨d, hd, same⟩ := closed
      rw [Store.tearingDown, List.any_eq_false] at idle
      have marked : d.deletedAt ≠ none := by simpa [same] using idle d hd
      rw [← same]
      exact torn.empty (kept.finished d hd (Option.isSome_iff_ne_none.mpr marked))
  have each {q : Pass} (hq : q ∈ h.passes.set i p') : q ∈ h.passes ∨ q = p' :=
    List.mem_or_eq_of_mem_set hq
  constructor
  case opened =>
    obtain ⟨row, hrow, isOpen⟩ := kept.opened
    refine ⟨row, torn.tenants row hrow ?_, (torn.isClosed _).trans isOpen⟩
    rintro same
    rw [same, closed] at isOpen
    cases isOpen
  case writers => exact fun t some_ => (torn.isClosed t).trans (kept.writers t some_)
  case finished =>
    intro d hd done
    obtain ⟨was, hwas, same, _, marked⟩ := torn.recorded d hd
    rcases marked done with already | ⟨mine, answered⟩
    · rw [← same]
      exact torn.empty (kept.finished was hwas already)
    · rw [mine]
      exact torn.empty (kept.drained p held answered)
  case recorded =>
    intro d hd
    obtain ⟨was, hwas, same, counts, _⟩ := torn.recorded d hd
    have total := removedFor_append h i p.tenant d.tenantId p.drained.isNone
      (lostRows schema h.store store)
    rw [counts _ (kept.recorded was hwas), same, ← torn.count]
    exact congrArg some total.symm
  case closed =>
    intro q hq
    refine (torn.isClosed _).trans ?_
    rcases each hq with old | rfl
    · exact kept.closed q old
    · rw [tenant]
      exact closed
  case within =>
    intro q hq
    rcases each hq with old | rfl
    · exact kept.within q old
    · rw [budget]
      exact within (kept.within p held)
  case drained =>
    intro q hq done
    rcases each hq with old | rfl
    · exact torn.empty (kept.drained q old done)
    · rw [tenant]
      exact emptied done
  case counted =>
    intro j q at_
    have total := removedBy_append h i j p.tenant p.drained.isNone (lostRows schema h.store store)
    rw [torn.count] at total
    refine total.trans ?_
    dsimp only at at_
    by_cases same : i = j
    · subst same
      rw [List.getElem?_set_self inside, Option.some_inj] at at_
      subst at_
      rw [removed, kept.counted i p found]
      simp
    · rw [List.getElem?_set_ne same] at at_
      simp [same, kept.counted j q at_]
  case own =>
    intro r hr
    rcases List.mem_append.mp hr with old | new
    · exact kept.own r old
    · obtain ⟨owner, gone, rfl⟩ := List.mem_map.mp new
      exact torn.own owner gone
  case begun =>
    intro r hr
    rw [List.length_set]
    rcases List.mem_append.mp hr with old | new
    · exact kept.begun r old
    · obtain ⟨owner, gone, rfl⟩ := List.mem_map.mp new
      exact inside
  case torn =>
    intro r hr
    refine (torn.isClosed _).trans ?_
    rcases List.mem_append.mp hr with old | new
    · exact kept.torn r old
    · obtain ⟨owner, gone, rfl⟩ := List.mem_map.mp new
      exact closed

theorem close_spec {s after : Store} {tenant : TenantId} {by_ : String} {at_ : Instant}
    (closing : close s tenant by_ at_ = .ok (.closed, after)) :
    s.isClosed tenant = false ∧ (∃ row ∈ s.tenants, row.tenantId = tenant) ∧
      (∃ other ∈ s.tenants, other.tenantId ≠ tenant ∧ s.isClosed other.tenantId = false) ∧
      ∃ d : TenantDeletion, d.tenantId = tenant ∧ d.rowsRemoved = some 0 ∧ d.deletedAt = none ∧
        after = { s with deletions := s.deletions ++ [d] } := by
  rw [close] at closing
  split at closing
  next done _ =>
    split at closing <;> cases closing
  next fresh =>
    split at closing
    next => cases closing
    next row named =>
      have mine : row.tenantId = tenant := by simpa using List.find?_some named
      split at closing
      next others =>
        obtain ⟨other, held, apart⟩ := List.any_eq_true.mp others
        simp only [Bool.and_eq_true, decide_eq_true_eq, Bool.not_eq_true'] at apart
        rw [Except.ok.injEq, Prod.mk.injEq] at closing
        refine ⟨?_, ⟨row, List.mem_of_find?_eq_some named, mine⟩, ⟨other, held, apart⟩,
          _, mine, rfl, rfl, closing.2.symm⟩
        rw [Store.isClosed, List.any_eq_false]
        intro d hd
        simpa using List.find?_eq_none.mp fresh d hd
      next => cases closing

/-- A close counts from nothing, and leaves another tenant open. -/
theorem accounted_close (kept : Accounted schema h) {tenant : TenantId} {by_ : String}
    {at_ : Instant} {store : Store} (free : h.locksFree = true)
    (closing : close h.store tenant by_ at_ = .ok (.closed, store)) :
    Accounted schema { h with store } ∧ store.isClosed tenant = true := by
  obtain ⟨opened, ⟨row, listed, mine⟩, ⟨other, held, apart, isOpen⟩, d, named, zero, underway,
    rfl⟩ := close_spec closing
  have closed (t : TenantId) : Store.isClosed { h.store with deletions := h.store.deletions ++ [d] }
      t = (h.store.isClosed t || decide (t = tenant)) := by
    simp [Store.isClosed, named, eq_comm]
  have locked : h.writing tenant = none := by
    rw [Hub.locksFree, List.all_eq_true] at free
    simpa [mine] using free row listed
  refine ⟨?_, by rw [closed]; simp⟩
  constructor
  case opened =>
    refine ⟨other, held, ?_⟩
    rw [closed, isOpen]
    simpa using apart
  case writers =>
    intro t some_
    rw [closed, kept.writers t some_]
    apply decide_eq_false
    rintro rfl
    rw [locked] at some_
    cases some_
  case finished =>
    intro e he done
    rcases List.mem_append.mp he with old | new
    · exact kept.finished e old done
    · rw [List.mem_singleton.mp new, underway] at done
      cases done
  case recorded =>
    intro e he
    rcases List.mem_append.mp he with old | new
    · exact kept.recorded e old
    · have nothing : h.removedFor tenant = 0 := by
        apply List.countP_eq_zero.mpr
        intro r hr counted
        have torn := kept.torn r hr
        rw [of_decide_eq_true counted, opened] at torn
        cases torn
      rw [List.mem_singleton.mp new, zero, named]
      exact congrArg some nothing.symm
  case closed =>
    intro p hp
    rw [closed, kept.closed p hp]
    rfl
  case within => exact kept.within
  case drained => exact kept.drained
  case counted => exact kept.counted
  case own => exact kept.own
  case begun => exact kept.begun
  case torn =>
    intro r hr
    rw [closed, kept.torn r hr]
    rfl

theorem mem_underway {s : Store} {tenant : TenantId} (held : tenant ∈ s.underway) :
    s.isClosed tenant = true := by
  obtain ⟨d, hd, rfl⟩ := List.mem_map.mp held
  exact isClosed_of_mem (List.mem_filter.mp hd).1

/-- Every event keeps the account. -/
theorem accounted_step (kept : Accounted schema h) (batchRows : ℕ) (event : Event) :
    Accounted schema (h.step schema batchRows event) := by
  cases event with
  | openWrite tenant =>
    rw [Hub.step]
    split
    next admitted =>
      rw [Bool.and_eq_true, Store.isOpen, Bool.and_eq_true, Bool.not_eq_true'] at admitted
      apply kept.rewriting
      intro t some_
      by_cases same : t = tenant
      · rw [same]
        exact admitted.2.2
      · rw [Function.update_of_ne same] at some_
        exact kept.writers t some_
    next => exact kept
  | change tenant statement =>
    rw [Hub.step]
    split
    next changes writing =>
      apply kept.rewriting
      intro t some_
      by_cases same : t = tenant
      · rw [same]
        exact kept.writers tenant (by rw [writing]; rfl)
      · rw [Function.update_of_ne same] at some_
        exact kept.writers t some_
    next => exact kept
  | commit tenant =>
    rw [Hub.step]
    split
    next changes writing =>
      have opened := kept.writers tenant (by rw [writing]; rfl)
      have fewer (t : TenantId) (some_ : (Function.update h.writing tenant none t).isSome) :
          (h.writing t).isSome := by
        by_cases same : t = tenant
        · rw [same, Function.update_self] at some_
          cases some_
        · rwa [Function.update_of_ne same] at some_
      rcases applied : applyChanges tenant changes h.store with _ | after
      · exact kept.rewriting fun t some_ => kept.writers t (fewer t some_)
      · have write := applyChanges_confined applied
        exact kept.written opened write.deletions
          (fun row held => by rw [Option.getD_some, write.tenants]; exact held) write.others fewer
    next => exact kept
  | rollback tenant =>
    rw [Hub.step]
    apply kept.rewriting
    intro t some_
    by_cases same : t = tenant
    · rw [same, Function.update_self] at some_
      cases some_
    · rw [Function.update_of_ne same] at some_
      exact kept.writers t some_
  | found tenant name changes =>
    rw [Hub.step]
    rcases founded : TeardownStore.found h.store tenant name changes with _ | after
    · exact kept
    · obtain ⟨opened, deletions, tenants, others⟩ := found_spec founded
      exact kept.written opened deletions tenants others fun _ some_ => some_
  | delete tenant by_ at_ budget =>
    rw [Hub.step]
    split
    next free =>
      split
      next store closing =>
        obtain ⟨accounted, closed⟩ := accounted_close kept free closing
        apply accounted.begin [tenant] budget
        intro t listed
        rw [List.mem_singleton.mp listed]
        exact closed
      next => exact kept
    next => exact kept
  | sweep budget =>
    rw [Hub.step]
    exact kept.begin _ budget fun _ => mem_underway
  | advance i at_ scan => exact accounted_advance kept batchRows i at_ scan
  | fail i =>
    have killed := kept.killed fun j => decide (j = i)
    rw [Hub.step]
    convert killed using 2
    apply List.ext_getElem?
    intro j
    rw [List.getElem?_modify, List.getElem?_mapIdx]
    rcases h.passes[j]? with _ | p
    · rfl
    · by_cases same : i = j <;> simp [same, eq_comm]
  | crash =>
    have stilled : Accounted schema { h with writing := fun _ => none } := by
      apply kept.rewriting
      intro _ some_
      cases some_
    have killed := stilled.killed fun _ => true
    rw [Hub.step]
    convert killed using 2
    apply List.ext_getElem?
    intro j
    rw [List.getElem?_map, List.getElem?_mapIdx]
    rfl

/-- A closed and emptied tenant stays both: nothing writes it, and teardowns only remove. -/
theorem emptied_step (kept : Accounted schema h) (batchRows : ℕ) (event : Event)
    {tenant : TenantId} (closed : h.store.isClosed tenant = true)
    (empty : h.store.Empty schema tenant) :
    (h.step schema batchRows event).store.isClosed tenant = true ∧
      (h.step schema batchRows event).store.Empty schema tenant := by
  cases event with
  | openWrite other =>
    rw [Hub.step]
    split <;> exact ⟨closed, empty⟩
  | change other statement =>
    rw [Hub.step]
    split <;> exact ⟨closed, empty⟩
  | commit other =>
    rw [Hub.step]
    split
    next changes writing =>
      rcases applied : applyChanges other changes h.store with _ | after
      · exact ⟨closed, empty⟩
      · have write := applyChanges_confined applied
        have foreign : tenant ≠ other := by
          rintro rfl
          rw [kept.unwritten closed] at writing
          cases writing
        refine ⟨?_, write.empty foreign empty⟩
        rw [Option.getD_some, Store.isClosed, write.deletions]
        exact closed
    next => exact ⟨closed, empty⟩
  | rollback other => exact ⟨closed, empty⟩
  | found other name changes =>
    rw [Hub.step]
    rcases founded : TeardownStore.found h.store other name changes with _ | after
    · exact ⟨closed, empty⟩
    · obtain ⟨opened, deletions, _, others⟩ := found_spec founded
      have foreign : tenant ≠ other := by
        rintro rfl
        rw [closed] at opened
        cases opened
      refine ⟨?_, fun table drained => (others table tenant foreign).trans (empty table drained)⟩
      rw [Option.getD_some, Store.isClosed, deletions]
      exact closed
  | delete other by_ at_ budget =>
    rw [Hub.step]
    split
    next free =>
      split
      next store closing =>
        obtain ⟨_, _, _, d, _, _, _, rfl⟩ := close_spec closing
        refine ⟨?_, empty⟩
        rw [isClosed_iff] at closed ⊢
        rw [List.map_append]
        exact List.mem_append_left _ closed
      next => exact ⟨closed, empty⟩
    next => exact ⟨closed, empty⟩
  | sweep budget => exact ⟨closed, empty⟩
  | advance i at_ scan =>
    rw [Hub.step, Hub.advance]
    split
    next => exact ⟨closed, empty⟩
    next p _ =>
      split
      next =>
        obtain ⟨_, torn, _⟩ := pass_step schema batchRows scan at_ p h.store
        exact ⟨(torn.isClosed tenant).trans closed, torn.empty empty⟩
      next => exact ⟨closed, empty⟩
  | fail i => exact ⟨closed, empty⟩
  | crash => exact ⟨closed, empty⟩

theorem accounted_run (kept : Accounted schema h) (batchRows : ℕ) (events : List Event) :
    Accounted schema (h.run schema batchRows events) := by
  induction events generalizing h with
  | nil => exact kept
  | cons event rest ih => exact ih (accounted_step kept batchRows event)

theorem emptied_run (kept : Accounted schema h) (batchRows : ℕ) (events : List Event)
    {tenant : TenantId} (closed : h.store.isClosed tenant = true)
    (empty : h.store.Empty schema tenant) :
    (h.run schema batchRows events).store.isClosed tenant = true ∧
      (h.run schema batchRows events).store.Empty schema tenant := by
  induction events generalizing h with
  | nil => exact ⟨closed, empty⟩
  | cons event rest ih =>
    obtain ⟨stillClosed, stillEmpty⟩ := emptied_step kept batchRows event closed empty
    exact ih (accounted_step kept batchRows event) stillClosed stillEmpty

end Blizzard.TeardownSafety
