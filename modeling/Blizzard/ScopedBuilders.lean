import Blizzard.JoinQueries

/-! # Key scoping

The statement builders that confine every keyed table they name to one key value, and the checks a
scoped connection makes when it executes what they built. A statement's author writes joins,
reads and conditions; `scoped` is the same text written through the builders. -/
namespace Blizzard.ScopedBuilders
open JoinQueries

variable {V : Type}

/-- A column of a table's definition. -/
structure Column where
  name : String
  nullable : Bool
  deriving DecidableEq, Repr

/-- One partition of a store's tables by an owning key column. -/
structure KeyScoping where
  keyColumn : String
  columns : String → List Column
  owns : String → Bool

/-- Whether a table, or the table an alias names, has a column. -/
def KeyScoping.hasColumn (scoping : KeyScoping) (table column : String) : Bool :=
  (scoping.columns table).any (·.name = column)

def KeyScoping.isKeyed (scoping : KeyScoping) (from_ : Source) : Bool :=
  scoping.hasColumn from_.base scoping.keyColumn && scoping.owns from_.base

/-- Why a statement was refused before it executed. -/
inductive Refusal
  | noRows (table : String)
  | keySupplied (table : String)
  | projectKeyMissing (table : String)
  deriving DecidableEq, Repr

/-- A write of a keyed table may not carry the key among its parameter rows. -/
def KeyScoping.refuseSuppliedKey (scoping : KeyScoping) (table : String)
    (rows : List (Values V)) : Except Refusal Unit :=
  if scoping.isKeyed (.table table) && rows.any (fun row => (row scoping.keyColumn).isSome) then
    .error (.keySupplied table)
  else .ok ()

/-- The tables or aliases whose rows a read returns unconditionally, each with its place: both
sides of an inner join, the left side of an outer one. -/
def preserved : From V → List (List Side × Source)
  | .source s => [([], s)]
  | .join left right _ isouter =>
      (preserved left).map (fun t => (.left :: t.1, t.2)) ++
        if isouter then [] else (preserved right).map fun t => (.right :: t.1, t.2)

/-- Statement builders bound to one key value. `checkRows` and `checkNames` are the refinements
a subclass makes to the inserts of a keyed table. -/
structure KeyedStatements (V : Type) where
  scoping : KeyScoping
  key : V
  checkRows : String → List (Values V) → Except Refusal Unit := fun _ _ => .ok ()
  checkNames : String → List String → Except Refusal Unit := fun _ _ => .ok ()

variable [DecidableEq V]

/-- `<key> = <value>` for the row at a place: unknown where the key is null. -/
def KeyedStatements.keyEquality (b : KeyedStatements V) (place : List Side) : Cond V :=
  .atom fun rows => match rows with
    | row :: _ => (row.at place b.scoping.keyColumn).map fun v => decide (v = b.key)
    | [] => none

/-- The key predicates of the tables a read of `from_` returns unconditionally, `from_` standing
at `place` in the row they are asked of. -/
def KeyedStatements.keyPredicates (b : KeyedStatements V) (place : List Side) (from_ : From V) :
    List (Cond V) :=
  ((preserved from_).filter fun t => b.scoping.isKeyed t.2).map fun t =>
    b.keyEquality (place ++ t.1)

def KeyedStatements.select (b : KeyedStatements V) (from_ : From V) : Select V :=
  { from_, criteria := b.keyPredicates [] from_ }

def KeyedStatements.exists_ (b : KeyedStatements V) (from_ : From V)
    (criteria : List (Cond V)) : Cond V :=
  ((b.select from_).filtered criteria).existsIn

/-- `left JOIN right ON onclause` with the right side's key predicates in the ON. -/
def KeyedStatements.scopeJoin (b : KeyedStatements V) (left right : From V) (onclause : Cond V)
    (isouter : Bool) : From V :=
  .join left right ((b.keyPredicates [.right] right).foldl .and onclause) isouter

/-- The key alone, as a mapping. -/
def KeyedStatements.stamp (b : KeyedStatements V) : Values V := fun c =>
  if c = b.scoping.keyColumn then some (some b.key) else none

def KeyedStatements.insert (b : KeyedStatements V) (table : String) : Insert V :=
  if b.scoping.isKeyed (.table table) then .values table b.stamp
  else .values table fun _ => none

def KeyedStatements.insertRows (b : KeyedStatements V) (table : String)
    (rows : List (Values V)) : Except Refusal (Insert V) :=
  if rows.isEmpty then .error (.noRows table)
  else if !b.scoping.isKeyed (.table table) then .ok (.rows table rows)
  else if rows.any fun row => (row b.scoping.keyColumn).isSome then .error (.keySupplied table)
  else do
    b.checkRows table rows
    return .rows table (rows.map fun row => row.union b.stamp)

def KeyedStatements.insertFromSelect (b : KeyedStatements V) (table : String)
    (names : List String) (select : Select V) (cols : List (Computed V)) :
    Except Refusal (Insert V) :=
  if !b.scoping.isKeyed (.table table) then .ok (.fromSelect table names select cols)
  else if b.scoping.keyColumn ∈ names then .error (.keySupplied table)
  else do
    b.checkNames table names
    return .fromSelect table (names ++ [b.scoping.keyColumn]) select
      (cols ++ [{ compute := fun _ _ => some b.key }])

/-- The key predicate of the one table an `UPDATE` or a `DELETE` names. -/
def KeyedStatements.tablePredicates (b : KeyedStatements V) (table : String) : List (Cond V) :=
  if b.scoping.isKeyed (.table table) then [b.keyEquality []] else []

def KeyedStatements.update (b : KeyedStatements V) (table : String) : Update V :=
  { table, criteria := b.tablePredicates table }

def KeyedStatements.delete (b : KeyedStatements V) (table : String) : Delete V :=
  { table, criteria := b.tablePredicates table }

/-! ## Statements written through the builders -/

mutual
/-- A FROM tree, each join of it built by `scopeJoin`. -/
def scopedFrom (b : KeyedStatements V) : From V → From V
  | .source s => .source s
  | .join left right onclause isouter =>
      b.scopeJoin (scopedFrom b left) (scopedFrom b right) (scopedCond b onclause) isouter

/-- A condition, each nested read of it built by `select`. -/
def scopedCond (b : KeyedStatements V) : Cond V → Cond V
  | .atom holds => .atom holds
  | .and c d => .and (scopedCond b c) (scopedCond b d)
  | .or c d => .or (scopedCond b c) (scopedCond b d)
  | .not c => .not (scopedCond b c)
  | .reads from_ criteria verdict =>
      .reads (scopedFrom b from_)
        (conjunction (b.keyPredicates [] (scopedFrom b from_) ++ [scopedCond b criteria])) verdict
end

def scopedSelect (b : KeyedStatements V) (stmt : Select V) : Select V :=
  (b.select (scopedFrom b stmt.from_)).filtered (stmt.criteria.map (scopedCond b))

def scopedExists (b : KeyedStatements V) (stmt : Select V) : Cond V :=
  b.exists_ (scopedFrom b stmt.from_) (stmt.criteria.map (scopedCond b))

def scopedComputed (b : KeyedStatements V) (value : Computed V) : Computed V :=
  { value with reads := value.reads.map (scopedSelect b) }

def scopedUpdate (b : KeyedStatements V) (stmt : Update V) : Update V :=
  { b.update stmt.table with
    criteria := (b.update stmt.table).criteria ++ stmt.criteria.map (scopedCond b)
    values := stmt.values.map fun value => (value.1, scopedComputed b value.2) }

def scopedDelete (b : KeyedStatements V) (stmt : Delete V) : Delete V :=
  { b.delete stmt.table with
    criteria := (b.delete stmt.table).criteria ++ stmt.criteria.map (scopedCond b) }

/-! ## The hub's partition by tenant -/

def tenantColumn : String := "tenant_id"

def projectColumn : String := "project_id"

/-- The tables that carry no tenant of their own, whatever their columns. -/
def globalTables : List String :=
  ["tenants", "tenant_deletions", "users", "identities", "sessions", "auth_state", "auth_facts",
    "superuser_bootstrap", "hub_admin_facts", "config_import_facts", "membership_facts",
    "hub_event_log", "trace_cursor", "egress_cursor"]

def tenantScoping (columns : String → List Column) : KeyScoping where
  keyColumn := tenantColumn
  columns
  owns table := table ∉ globalTables

/-- A tenant-owned table whose `project_id` holds no null. -/
def isProjectKeyed (scoping : KeyScoping) (table : String) : Bool :=
  scoping.isKeyed (.table table) &&
    (scoping.columns table).any fun c => c.name = projectColumn && !c.nullable

/-- Whether an insert executed with parameter rows names a project for every row it writes. -/
def namesProject (rows : List (Values V)) : Insert V → Bool
  | .values _ own => (own projectColumn).isSome || rows.all fun row => (row projectColumn).isSome
  | .rows _ entries => (!entries.isEmpty && entries.all fun row => (row projectColumn).isSome) ||
      rows.all fun row => (row projectColumn).isSome
  | .fromSelect _ names _ _ => decide (projectColumn ∈ names) ||
      rows.all fun row => (row projectColumn).isSome

/-- The builders of one tenant's scope. -/
def scopedStatements (columns : String → List Column) (tenant : V) : KeyedStatements V where
  scoping := tenantScoping columns
  key := tenant
  checkRows table rows :=
    if isProjectKeyed (tenantScoping columns) table &&
        rows.any (fun row => !(row projectColumn).isSome) then
      .error (.projectKeyMissing table)
    else .ok ()
  checkNames table names :=
    if isProjectKeyed (tenantScoping columns) table && decide (projectColumn ∉ names) then
      .error (.projectKeyMissing table)
    else .ok ()

/-- The parameter rows one execute binds: those given, or a single empty one. -/
def executeTimeRows (rows : List (Values V)) : List (Values V) :=
  if rows.isEmpty then [fun _ => none] else rows

/-- An insert executed on a scoped connection. -/
def executeInsert (b : KeyedStatements V) (db : Database V) (defaults : Row V)
    (stmt : Insert V) (params : List (Values V)) : Except Refusal (Database V) := do
  let rows := executeTimeRows params
  b.scoping.refuseSuppliedKey stmt.table rows
  if isProjectKeyed b.scoping stmt.table && !namesProject rows stmt then
    .error (.projectKeyMissing stmt.table)
  else
    return stmt.run db defaults rows

end Blizzard.ScopedBuilders
