import Blizzard.TeardownStore

/-! # Tenant deletion, transaction by transaction

Delete requests and sweeps run drain passes over closed tenants while tenant-scoped writes open,
change rows and commit, and while the process may be killed between any two transactions. A write
holds its tenant's row lock from its opening to its end, and a close waits for all of them. -/
namespace Blizzard.TenantTeardown
open HubTables TeardownStore

/-- The most rows one drain pass removes. -/
def drainPassRows : ℕ := 50000

/-- One `advance` over a closed tenant: its drain loop's count and what the drain answered once it
has; `live` until it returned, raised or was killed. -/
structure Pass where
  tenant : TenantId
  budget : ℕ
  removed : ℕ := 0
  drained : Option Bool := none
  live : Bool := true
  deriving DecidableEq, Repr

/-- A pass as it begins; a budget left open is the pass's default. -/
def Pass.begin (budget : Option ℕ) (tenant : TenantId) : Pass :=
  { tenant, budget := budget.getD drainPassRows }

/-- A row that a pass's transaction took from the store: the row's tenant, beside the tenant the
pass tears down; `draining` apart from the completion. -/
structure Removal where
  pass : ℕ
  tenant : TenantId
  draining : Bool
  rowTenant : TenantId
  deriving DecidableEq, Repr

/-- The store, the writes in flight with their uncommitted statements, every pass ever begun, and
the account of what the passes removed. -/
structure Hub where
  store : Store
  writing : TenantId → Option (List Change) := fun _ => none
  passes : List Pass := []
  removals : List Removal := []

/-- The next transaction of a pass: a batch while its drain is under budget, then the completion. -/
def Pass.step (schema : Schema) (batchRows : ℕ) (scan : Scan) (at_ : Instant) (p : Pass)
    (s : Store) : Pass × Store :=
  match p.drained with
  | none =>
    if p.removed < p.budget then
      let limit := min batchRows (p.budget - p.removed)
      match drainBatch schema scan s p.tenant limit with
      | none => ({ p with drained := some true }, s)
      | some (batch, drained) =>
        let counted := { p with removed := p.removed + batch }
        if batch < limit then ({ counted with drained := some true }, drained)
        else (counted, drained)
    else ({ p with drained := some false, live := false }, s)
  | some true =>
    match complete s p.tenant at_ with
    | none => ({ p with live := false }, s)
    | some (_, completed) => ({ p with live := false }, completed)
  | some false => ({ p with live := false }, s)

/-- The entries of `before` that `after` no longer holds. -/
def lost {α : Type} [DecidableEq α] (before after : List α) : List α :=
  before.filter (· ∉ after)

/-- The tenants of the rows a transaction took from the store, a row at a time. -/
def lostRows (schema : Schema) (before after : Store) : List TenantId :=
  (schema.drainOrder.flatMap fun name =>
      (lost (before.tables name).rows (after.tables name).rows).map (·.tenantId)) ++
    (lost before.memberships after.memberships).map (·.tenantId) ++
    (lost before.tenants after.tenants).map (·.tenantId)

inductive Event
  | openWrite (tenant : TenantId)
  | change (tenant : TenantId) (statement : Change)
  | commit (tenant : TenantId)
  | rollback (tenant : TenantId)
  | found (tenant : TenantId) (name : String) (changes : List Change)
  | delete (tenant : TenantId) (by_ : String) (at_ : Instant) (budget : Option ℕ)
  | sweep (budget : Option ℕ)
  | advance (pass : ℕ) (at_ : Instant) (scan : Scan)
  | fail (pass : ℕ)
  | crash

/-- Whether every tenant's row can be locked at once. -/
def Hub.locksFree (h : Hub) : Bool :=
  h.store.tenants.all fun row => (h.writing row.tenantId).isNone

/-- The transaction a pass makes next, entered in the account. -/
def Hub.advance (schema : Schema) (batchRows : ℕ) (h : Hub) (i : ℕ) (at_ : Instant)
    (scan : Scan) : Hub :=
  match h.passes[i]? with
  | none => h
  | some p =>
    if p.live then
      let (p', store) := p.step schema batchRows scan at_ h.store
      { h with
        store
        passes := h.passes.set i p'
        removals := h.removals ++ (lostRows schema h.store store).map fun rowTenant =>
          { pass := i, tenant := p.tenant, draining := p.drained.isNone, rowTenant } }
    else h

def Hub.step (schema : Schema) (batchRows : ℕ) (h : Hub) : Event → Hub
  | .openWrite tenant =>
    if (h.writing tenant).isNone && h.store.isOpen tenant then
      { h with writing := Function.update h.writing tenant (some []) }
    else h
  | .change tenant statement =>
    match h.writing tenant with
    | some changes =>
      { h with writing := Function.update h.writing tenant (some (changes ++ [statement])) }
    | none => h
  | .commit tenant =>
    match h.writing tenant with
    | some changes =>
      { h with
        writing := Function.update h.writing tenant none
        store := (applyChanges tenant changes h.store).getD h.store }
    | none => h
  | .rollback tenant => { h with writing := Function.update h.writing tenant none }
  | .found tenant name changes =>
    { h with store := (TeardownStore.found h.store tenant name changes).getD h.store }
  | .delete tenant by_ at_ budget =>
    if h.locksFree then
      match close h.store tenant by_ at_ with
      | .ok (.closed, store) =>
        -- only the request that closed the tenant drains it inline
        { h with store, passes := h.passes ++ [.begin budget tenant] }
      | _ => h
    else h
  -- a sweep takes its tenants one after another; here their passes may also overlap
  | .sweep budget =>
    { h with passes := h.passes ++ h.store.underway.map (.begin budget) }
  | .advance i at_ scan => h.advance schema batchRows i at_ scan
  | .fail i => { h with passes := h.passes.modify i fun p => { p with live := false } }
  | .crash =>
    { h with
      writing := fun _ => none
      passes := h.passes.map fun p => { p with live := false } }

/-- The hub after a list of events. -/
def Hub.run (schema : Schema) (batchRows : ℕ) (h : Hub) (events : List Event) : Hub :=
  events.foldl (Hub.step schema batchRows) h

/-- A store with at least one tenant and no deletion yet. -/
structure OpenStore where
  store : Store
  inhabited : store.tenants ≠ []
  undeleted : store.deletions = []

/-- How many rows the passes removed for a tenant's deletion. -/
def Hub.removedFor (h : Hub) (tenant : TenantId) : ℕ :=
  h.removals.countP (·.tenant = tenant)

/-- How many rows one pass's drain removed. -/
def Hub.removedBy (h : Hub) (pass : ℕ) : ℕ :=
  h.removals.countP fun r => r.pass = pass && r.draining

end Blizzard.TenantTeardown
