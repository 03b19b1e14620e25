import Blizzard.HubTables
import Mathlib.Data.List.Perm.Basic
import Mathlib.Logic.Function.Basic

/-! # The transactions of a tenant's deletion

The tables a tenant owns, the deletion facts, and the transactions over them: a tenant-scoped
write, the close, one drain batch and the completion. Each is one transaction; which of them run
in what order is not settled here. -/
namespace Blizzard.TeardownStore
open HubTables

abbrev TenantId := String
abbrev TableName := String

/-! ## Tables -/

/-- A row of a tenant-owned table: the tenant it belongs to and the columns of its primary key. -/
structure Row where
  tenantId : TenantId
  key : List String
  deriving DecidableEq, Repr

/-- A table's rows; no two share a primary key. -/
structure Table where
  rows : List Row
  distinct : (rows.map (·.key)).Nodup

def Table.own (table : Table) (tenant : TenantId) : List Row :=
  table.rows.filter (·.tenantId = tenant)

def Table.deleteWhere (table : Table) (gone : Row → Bool) : Table where
  rows := table.rows.filter fun row => !gone row
  distinct := (List.filter_sublist.map _).nodup table.distinct

/-- An insert: none where the primary key is taken. -/
def Table.insert (table : Table) (row : Row) : Option Table :=
  if fresh : row.key ∉ table.rows.map (·.key) then
    some ⟨table.rows ++ [row], by
      rw [List.map_append, List.nodup_append]
      refine ⟨table.distinct, by simp, ?_⟩
      rintro key taken _ added rfl
      rw [List.map_singleton, List.mem_singleton] at added
      exact fresh (added ▸ taken)⟩
  else none

/-- The tables in `sorted_tables` order, parents before their children, and the test of which of
them a tenant owns. -/
structure Schema where
  sortedTables : List TableName
  tenantOwned : TableName → Bool
  distinct : sortedTables.Nodup

/-- Every tenant-owned table, children before parents. -/
def Schema.drainOrder (schema : Schema) : List TableName :=
  schema.sortedTables.reverse.filter schema.tenantOwned

theorem Schema.drainOrder_nodup (schema : Schema) : schema.drainOrder.Nodup :=
  (List.nodup_reverse.mpr schema.distinct).filter _

structure TenantRow where
  tenantId : TenantId
  name : String
  deriving DecidableEq, Repr

structure MembershipFact where
  id : ℕ
  tenantId : TenantId
  userId : String
  deriving DecidableEq, Repr

/-- A tenant's deletion fact; `deletedAt` is missing while the deletion is underway. -/
structure TenantDeletion where
  tenantId : TenantId
  name : String
  closedAt : Instant
  deletedBy : String
  rowsRemoved : Option ℕ
  deletedAt : Option Instant := none
  deriving DecidableEq, Repr

structure Store where
  tables : TableName → Table
  tenants : List TenantRow
  deletions : List TenantDeletion
  memberships : List MembershipFact

/-- Whether a deletion fact names the tenant. -/
def Store.isClosed (s : Store) (tenant : TenantId) : Bool :=
  s.deletions.any (·.tenantId = tenant)

/-- The condition every tenant-scoped write locks its tenant's row on. -/
def Store.isOpen (s : Store) (tenant : TenantId) : Bool :=
  s.tenants.any (·.tenantId = tenant) && !s.isClosed tenant

/-- No tenant-owned table holds a row of the tenant. -/
def Store.Empty (schema : Schema) (s : Store) (tenant : TenantId) : Prop :=
  ∀ name ∈ schema.drainOrder, (s.tables name).own tenant = []

/-! ## Tenant-scoped writes -/

/-- One statement of a tenant-scoped write: inserts are stamped with the tenant, deletes confined
to its rows; `grant` records a membership under the same lock. -/
inductive Change
  | insert (table : TableName) (key : List String)
  | delete (table : TableName) (key : List String)
  | grant (id : ℕ) (userId : String)
  deriving DecidableEq, Repr

def Change.apply (tenant : TenantId) (s : Store) : Change → Option Store
  | .insert name key =>
    ((s.tables name).insert ⟨tenant, key⟩).map fun table =>
      { s with tables := Function.update s.tables name table }
  | .delete name key =>
    let gone := fun row : Row => decide (row.tenantId = tenant) && decide (row.key = key)
    some { s with tables := Function.update s.tables name ((s.tables name).deleteWhere gone) }
  | .grant id userId => some { s with memberships := s.memberships ++ [⟨id, tenant, userId⟩] }

/-- The statements of one write in order; one that fails takes the whole transaction with it. -/
def applyChanges (tenant : TenantId) : List Change → Store → Option Store
  | [], s => some s
  | change :: rest, s => (change.apply tenant s).bind (applyChanges tenant rest)

/-- The creation of a tenant: its row, then its first scoped writes in the same transaction. -/
def found (s : Store) (tenant : TenantId) (name : String) (changes : List Change) : Option Store :=
  if s.tenants.any (·.tenantId = tenant) then none
  else
    let founded := { s with tenants := s.tenants ++ [⟨tenant, name⟩] }
    if founded.isOpen tenant then applyChanges tenant changes founded else none

/-! ## Close, drain, complete -/

inductive CloseOutcome | closed | underway | deleted
  deriving DecidableEq, Repr

inductive CloseRefusal
  | unknownTenant (tenant : TenantId)
  | lastTenant (tenant : TenantId)
  deriving DecidableEq, Repr

/-- Record the tenant's deletion fact unless one names it already or no other tenant is open. -/
def close (s : Store) (tenant : TenantId) (by_ : String) (at_ : Instant) :
    Except CloseRefusal (CloseOutcome × Store) :=
  match s.deletions.find? (·.tenantId = tenant) with
  | some done => .ok (if done.deletedAt.isNone then .underway else .deleted, s)
  | none =>
    match s.tenants.find? (·.tenantId = tenant) with
    | none => .error (.unknownTenant tenant)
    | some row =>
      if s.tenants.any fun other => other.tenantId ≠ tenant && !s.isClosed other.tenantId then
        .ok (.closed, { s with deletions := s.deletions ++
          [{ tenantId := row.tenantId, name := row.name, closedAt := at_, deletedBy := by_
             rowsRemoved := some 0 }] })
      else .error (.lastTenant tenant)

/-- Every tenant whose deletion is underway. -/
def Store.underway (s : Store) : List TenantId :=
  (s.deletions.filter (·.deletedAt.isNone)).map (·.tenantId)

/-- The order a table's rows are visited in, which a `LIMIT` without an `ORDER BY` leaves open. -/
structure Scan where
  order : List Row → List Row
  visits : ∀ rows, (order rows).Perm rows

/-- Delete at most `limit` of the tenant's rows of one table, picked by primary key; the row
count. -/
def deleteSome (scan : Scan) (tenant : TenantId) (limit : ℕ) (table : Table) : Table × ℕ :=
  let some_ := ((scan.order (table.own tenant)).take limit).map (·.key)
  let gone := fun row : Row => decide (row.tenantId = tenant) && decide (row.key ∈ some_)
  (table.deleteWhere gone, table.rows.countP gone)

/-- The walk over the tables of one batch. -/
def drainTables (scan : Scan) (tenant : TenantId) (limit : ℕ) :
    List TableName → (TableName → Table) → ℕ → (TableName → Table) × ℕ
  | [], tables, removed => (tables, removed)
  | name :: rest, tables, removed =>
    if limit ≤ removed then (tables, removed)
    else
      let (table, count) := deleteSome scan tenant (limit - removed) (tables name)
      drainTables scan tenant limit rest (Function.update tables name table) (removed + count)

/-- The lock a teardown write opens with: the tenant's deletion fact, while it is underway. -/
def Store.tearingDown (s : Store) (tenant : TenantId) : Bool :=
  s.deletions.any fun d => d.tenantId = tenant && d.deletedAt.isNone

def TenantDeletion.count (d : TenantDeletion) (removed : ℕ) : TenantDeletion :=
  { d with rowsRemoved := some (d.rowsRemoved.getD 0 + removed) }

/-- `UPDATE tenant_deletions … WHERE tenant_id = tenant`. -/
def Store.updateDeletion (s : Store) (tenant : TenantId)
    (set : TenantDeletion → TenantDeletion) : Store :=
  { s with deletions := s.deletions.map fun d => if d.tenantId = tenant then set d else d }

/-- Remove at most `limit` of the tenant's rows and count them; none when no deletion of it is
underway. -/
def drainBatch (schema : Schema) (scan : Scan) (s : Store) (tenant : TenantId) (limit : ℕ) :
    Option (ℕ × Store) :=
  if s.tearingDown tenant then
    let (tables, removed) := drainTables scan tenant limit schema.drainOrder s.tables 0
    let drained := { s with tables }
    some (removed,
      if removed = 0 then drained else drained.updateDeletion tenant (·.count removed))
  else none

/-- Remove the tenant's row and memberships and record when its deletion finished; the rows its
deletion removed in all, or none when no deletion of it is underway. -/
def complete (s : Store) (tenant : TenantId) (at_ : Instant) : Option (ℕ × Store) :=
  if s.tearingDown tenant then
    let removed := s.memberships.countP (·.tenantId = tenant) +
      s.tenants.countP (·.tenantId = tenant)
    let emptied := { s with
      memberships := s.memberships.filter (·.tenantId ≠ tenant)
      tenants := s.tenants.filter (·.tenantId ≠ tenant) }
    let completed := emptied.updateDeletion tenant fun d =>
      { d.count removed with deletedAt := some at_ }
    let recorded := completed.deletions.find? (·.tenantId = tenant)
    some ((recorded.bind (·.rowsRemoved)).getD 0, completed)
  else none

end Blizzard.TeardownStore
