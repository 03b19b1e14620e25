import Blizzard.ScopedBuilders

/-! # Scoped statements see one tenant's database

What a statement written through the builders reads or changes in the whole database is what the
same text without key predicates reads or changes in the database restricted to the key's rows. -/
namespace Blizzard.TenantIsolation
open JoinQueries ScopedBuilders

variable {V : Type} [DecidableEq V]

/-- Whether a row of a table is in the key's part of the database. -/
def ownsRow (b : KeyedStatements V) (table : String) (row : Row V) : Bool :=
  !b.scoping.isKeyed (.table table) || decide (row b.scoping.keyColumn = some b.key)

/-- The database restricted to the key's rows; unkeyed tables stand whole. -/
def restrict (b : KeyedStatements V) (db : Database V) : Database V := fun t =>
  (db t).filter (ownsRow b t)

/-- Whether the rows a read returns unconditionally are all the key's. -/
def ownsJoined (b : KeyedStatements V) (from_ : From V) (row : JoinRow V) : Bool :=
  (preserved from_).all fun t => ownsRow b t.2.base (row.at t.1)

theorem isKeyed_base (scoping : KeyScoping) (s : Source) :
    scoping.isKeyed (.table s.base) = scoping.isKeyed s := rfl

/-! ## Key predicates -/

theorem keyEquality_eval (b : KeyedStatements V) (db : Database V) (place : List Side)
    (row : JoinRow V) (outer : List (JoinRow V)) :
    (b.keyEquality place).eval db (row :: outer) = some true ↔
      row.at place b.scoping.keyColumn = some b.key := by
  cases h : row.at place b.scoping.keyColumn <;>
    simp [KeyedStatements.keyEquality, Cond.eval, h]

theorem keyPredicates_eval (b : KeyedStatements V) (db : Database V) (place : List Side)
    (from_ : From V) (row : JoinRow V) (outer : List (JoinRow V)) :
    (∀ c ∈ b.keyPredicates place from_, c.eval db (row :: outer) = some true) ↔
      ∀ t ∈ preserved from_, ownsRow b t.2.base (row.at (place ++ t.1)) := by
  simp only [KeyedStatements.keyPredicates, List.forall_mem_map, List.mem_filter, and_imp,
    keyEquality_eval, ownsRow, isKeyed_base]
  constructor
  · intro h t ht
    cases hk : b.scoping.isKeyed t.2
    · rfl
    · simpa using h t ht hk
  · intro h t ht hk
    simpa [hk] using h t ht

theorem keyPredicates_here (b : KeyedStatements V) (db : Database V) (from_ : From V)
    (row : JoinRow V) (outer : List (JoinRow V)) :
    (∀ c ∈ b.keyPredicates [] from_, c.eval db (row :: outer) = some true) ↔
      ownsJoined b from_ row := by
  rw [keyPredicates_eval]
  simp [ownsJoined]

theorem keyPredicates_right (b : KeyedStatements V) (db : Database V) (from_ : From V)
    (l r : JoinRow V) (outer : List (JoinRow V)) :
    (∀ c ∈ b.keyPredicates [.right] from_, c.eval db (.pair l r :: outer) = some true) ↔
      ownsJoined b from_ r := by
  rw [keyPredicates_eval]
  simp [ownsJoined, JoinRow.at]

theorem tablePredicates_eval (b : KeyedStatements V) (db : Database V) (table : String)
    (row : Row V) : (∀ c ∈ b.tablePredicates table, c.eval db [.leaf row] = some true) ↔
      ownsRow b table row := by
  unfold KeyedStatements.tablePredicates ownsRow
  split <;> simp_all [keyEquality_eval, JoinRow.at]

/-! ## What a scoped FROM keeps -/

theorem preserved_scoped (b : KeyedStatements V) (f : From V) :
    preserved (scopedFrom b f) = preserved f := by
  cases f with
  | source s => simp [scopedFrom]
  | join left right onclause isouter =>
    have hl := preserved_scoped b left
    have hr := preserved_scoped b right
    simp [scopedFrom, KeyedStatements.scopeJoin, preserved, hl, hr]

theorem nulls_scoped (b : KeyedStatements V) (f : From V) :
    (scopedFrom b f).nulls = f.nulls := by
  cases f with
  | source s => simp [scopedFrom]
  | join left right onclause isouter =>
    have hl := nulls_scoped b left
    have hr := nulls_scoped b right
    simp [scopedFrom, KeyedStatements.scopeJoin, From.nulls, hl, hr]

theorem ownsJoined_scoped (b : KeyedStatements V) (f : From V) :
    ownsJoined b (scopedFrom b f) = ownsJoined b f := by
  funext row
  simp [ownsJoined, preserved_scoped]

theorem ownsJoined_inner (b : KeyedStatements V) (left right : From V) (onclause : Cond V)
    (l r : JoinRow V) : ownsJoined b (.join left right onclause false) (.pair l r)
      = (ownsJoined b left l && ownsJoined b right r) := by
  simp [ownsJoined, preserved, List.all_append, List.all_map, Function.comp_def, JoinRow.at]

theorem ownsJoined_outer (b : KeyedStatements V) (left right : From V) (onclause : Cond V)
    (l r : JoinRow V) : ownsJoined b (.join left right onclause true) (.pair l r)
      = ownsJoined b left l := by
  simp [ownsJoined, preserved, List.all_map, Function.comp_def, JoinRow.at]

/-- The ON a scoped join is built with asks for the authored ON and for the right row's keys. -/
theorem scopeJoin_on (b : KeyedStatements V) (db : Database V) (right : From V)
    (onclause : Cond V) (l r : JoinRow V) (outer : List (JoinRow V)) :
    ((b.keyPredicates [.right] right).foldl .and onclause).eval db (.pair l r :: outer)
        = some true ↔
      onclause.eval db (.pair l r :: outer) = some true ∧ ownsJoined b right r := by
  rw [and_conjunction_eval, keyPredicates_right]

/-- A scoped join, its rows filtered by the keys its reader asks for, joins the two sides'
filtered rows. -/
theorem scopeJoin_eval (b : KeyedStatements V) (db : Database V) (left right : From V)
    (onclause : Cond V) (isouter : Bool) (outer : List (JoinRow V)) :
    ((b.scopeJoin left right onclause isouter).eval db outer).filter
        (ownsJoined b (.join left right onclause isouter))
      = joinRows isouter right.nulls (fun row => onclause.eval db (row :: outer))
          ((left.eval db outer).filter (ownsJoined b left))
          ((right.eval db outer).filter (ownsJoined b right)) := by
  unfold KeyedStatements.scopeJoin
  rw [From.eval, joinRows_on_right isouter _ (fun row => onclause.eval db (row :: outer)) _ _ _
    (ownsJoined b right) (fun l r => scopeJoin_on b db right onclause l r outer)]
  cases isouter with
  | false => exact joinRows_filter_inner _ _ _ _ _ _ _ (ownsJoined_inner b left right onclause)
  | true => exact joinRows_filter_left _ _ _ _ _ _ _ (ownsJoined_outer b left right onclause)

mutual
/-- A scoped FROM, filtered by the keys its reader asks for, is the authored FROM over the
restricted database. -/
theorem scopedFrom_eval (b : KeyedStatements V) (db : Database V) :
    ∀ (f : From V) (outer : List (JoinRow V)),
      ((scopedFrom b f).eval db outer).filter (ownsJoined b f) = f.eval (restrict b db) outer
  | .source s, outer => by
    simp only [scopedFrom, From.eval, restrict, List.filter_map]
    congr 1
    apply List.filter_congr
    intro row _
    simp [ownsJoined, preserved, JoinRow.at]
  | .join left right onclause isouter, outer => by
    have hl := scopedFrom_eval b db left outer
    have hr := scopedFrom_eval b db right outer
    have hon := scopedCond_eval b db onclause
    have hjoin := scopeJoin_eval b db (scopedFrom b left) (scopedFrom b right)
      (scopedCond b onclause) isouter outer
    have howns : ownsJoined b (.join (scopedFrom b left) (scopedFrom b right)
        (scopedCond b onclause) isouter) = ownsJoined b (.join left right onclause isouter) := by
      funext row
      simp [ownsJoined, preserved, preserved_scoped]
    rw [howns, ownsJoined_scoped, ownsJoined_scoped, hl, hr, nulls_scoped] at hjoin
    simp only [hon] at hjoin
    simpa only [scopedFrom, From.eval] using hjoin

/-- A scoped condition over the whole database is the authored one over the restricted one. -/
theorem scopedCond_eval (b : KeyedStatements V) (db : Database V) :
    ∀ (c : Cond V) (rows : List (JoinRow V)),
      (scopedCond b c).eval db rows = c.eval (restrict b db) rows
  | .atom holds, rows => by simp [scopedCond, Cond.eval]
  | .and c d, rows => by
    have hc := scopedCond_eval b db c rows
    have hd := scopedCond_eval b db d rows
    simp [scopedCond, Cond.eval, hc, hd]
  | .or c d, rows => by
    have hc := scopedCond_eval b db c rows
    have hd := scopedCond_eval b db d rows
    simp [scopedCond, Cond.eval, hc, hd]
  | .not c, rows => by
    have hc := scopedCond_eval b db c rows
    simp [scopedCond, Cond.eval, hc]
  | .reads from_ criteria verdict, rows => by
    have hf := scopedFrom_eval b db from_ rows
    have hc := scopedCond_eval b db criteria
    simp only [scopedCond, Cond.eval]
    rw [← hf, List.filter_filter]
    congr 1
    apply List.filter_congr
    intro row _
    rw [Bool.eq_iff_iff]
    simp only [decide_eq_true_eq, Bool.and_eq_true, conjunction_eval, List.forall_mem_append,
      List.forall_mem_singleton, keyPredicates_here, ownsJoined_scoped, hc, and_comm]
end

theorem conjunction_scoped (b : KeyedStatements V) (db : Database V) (cs : List (Cond V))
    (rows : List (JoinRow V)) :
    (conjunction (cs.map (scopedCond b))).eval db rows = some true ↔
      (conjunction cs).eval (restrict b db) rows = some true := by
  simp only [conjunction_eval, List.forall_mem_map, scopedCond_eval]

/-! ## Reads -/

theorem select_rows (b : KeyedStatements V) (db : Database V) (from_ : From V)
    (outer : List (JoinRow V)) :
    (b.select from_).rows db outer = (from_.eval db outer).filter (ownsJoined b from_) := by
  unfold Select.rows KeyedStatements.select
  apply List.filter_congr
  intro row _
  rw [Bool.eq_iff_iff]
  simp only [decide_eq_true_eq, conjunction_eval, keyPredicates_here]

/-- A scoped `SELECT` reads the joined rows the authored one reads in the restricted database. -/
theorem scopedSelect_rows (b : KeyedStatements V) (db : Database V) (stmt : Select V)
    (outer : List (JoinRow V)) :
    (scopedSelect b stmt).rows db outer = stmt.rows (restrict b db) outer := by
  have hfrom := scopedFrom_eval b db stmt.from_ outer
  rw [scopedSelect, Select.rows_filtered, select_rows, ownsJoined_scoped, hfrom]
  apply List.filter_congr
  intro row _
  exact decide_eq_decide.mpr (conjunction_scoped b db stmt.criteria (row :: outer))

theorem scopedComputed_eval (b : KeyedStatements V) (db : Database V) (value : Computed V)
    (rows : List (JoinRow V)) :
    (scopedComputed b value).eval db rows = value.eval (restrict b db) rows := by
  simp [scopedComputed, Computed.eval, List.map_map, Function.comp_def, scopedSelect_rows]

theorem scopedSelect_run (b : KeyedStatements V) (db : Database V) (stmt : Select V)
    (cols : List (Computed V)) (outer : List (JoinRow V)) :
    (scopedSelect b stmt).run db (cols.map (scopedComputed b)) outer
      = stmt.run (restrict b db) cols outer := by
  unfold Select.run
  rw [scopedSelect_rows]
  simp [List.map_map, Function.comp_def, scopedComputed_eval]

theorem scopedExists_eval (b : KeyedStatements V) (db : Database V) (stmt : Select V)
    (rows : List (JoinRow V)) :
    (scopedExists b stmt).eval db rows = stmt.existsIn.eval (restrict b db) rows := by
  have h := scopedSelect_rows b db stmt rows
  rw [scopedExists, KeyedStatements.exists_, Select.existsIn_eval, Select.existsIn_eval]
  rw [scopedSelect] at h
  rw [h]

/-! ## Updates and deletes -/

/-- A scoped write reaches the key's rows the authored one reaches in the restricted database. -/
theorem reaches_scoped (b : KeyedStatements V) (db : Database V) (table : String)
    (criteria : List (Cond V)) (row : Row V) :
    reaches db (b.tablePredicates table ++ criteria.map (scopedCond b)) row
      = (ownsRow b table row && reaches (restrict b db) criteria row) := by
  rw [Bool.eq_iff_iff]
  have h := conjunction_scoped b db criteria [.leaf row]
  rw [conjunction_eval] at h
  simp only [reaches, decide_eq_true_eq, Bool.and_eq_true, conjunction_eval db,
    List.forall_mem_append, tablePredicates_eval, h]

theorem scopedUpdate_written (b : KeyedStatements V) (db : Database V) (stmt : Update V)
    (row : Row V) : (scopedUpdate b stmt).written db row = stmt.written (restrict b db) row := by
  simp [Update.written, scopedUpdate, List.find?_map, Function.comp_def, scopedComputed_eval]

/-- A scoped `UPDATE` takes each of the key's rows where the authored one takes it in the
restricted database, and leaves every other row. -/
theorem scopedUpdate_after (b : KeyedStatements V) (db : Database V) (stmt : Update V)
    (row : Row V) : (scopedUpdate b stmt).after db row =
      if ownsRow b stmt.table row then stmt.after (restrict b db) row else row := by
  have hreach := reaches_scoped b db stmt.table stmt.criteria row
  have hwritten := scopedUpdate_written b db stmt row
  have hcriteria : (scopedUpdate b stmt).criteria
      = b.tablePredicates stmt.table ++ stmt.criteria.map (scopedCond b) := rfl
  rw [Update.after, Update.after, hcriteria, hreach, hwritten]
  cases ownsRow b stmt.table row <;> simp

theorem scopedUpdate_run (b : KeyedStatements V) (db : Database V) (stmt : Update V)
    (t : String) : (scopedUpdate b stmt).run db t =
      if t = stmt.table then
        (db t).map fun row => if ownsRow b t row then stmt.after (restrict b db) row else row
      else db t := by
  have hafter : (scopedUpdate b stmt).after db = fun row =>
      if ownsRow b stmt.table row then stmt.after (restrict b db) row else row :=
    funext (scopedUpdate_after b db stmt)
  have htable : (scopedUpdate b stmt).table = stmt.table := rfl
  rw [Update.run, hafter, htable]
  split
  · next h => rw [h]
  · rfl

/-- The rows of the database outside the key's part. -/
def foreign (b : KeyedStatements V) (db : Database V) : Database V := fun t =>
  (db t).filter fun row => !ownsRow b t row

theorem scopedDelete_run (b : KeyedStatements V) (db : Database V) (stmt : Delete V)
    (t : String) : (scopedDelete b stmt).run db t =
      if t = stmt.table then
        (db t).filter fun row => !(ownsRow b t row && reaches (restrict b db) stmt.criteria row)
      else db t := by
  have hreach := reaches_scoped b db stmt.table stmt.criteria
  simp only [Delete.run, scopedDelete, KeyedStatements.delete, hreach]
  split
  · next h => rw [h]
  · rfl

theorem scopedDelete_own (b : KeyedStatements V) (db : Database V) (stmt : Delete V) :
    restrict b ((scopedDelete b stmt).run db) = stmt.run (restrict b db) := by
  funext t
  rw [restrict, scopedDelete_run, Delete.run]
  split
  · rw [restrict, List.filter_filter, List.filter_filter]
    apply List.filter_congr
    intro row _
    cases ownsRow b t row <;> simp
  · rfl

theorem scopedDelete_foreign (b : KeyedStatements V) (db : Database V) (stmt : Delete V) :
    foreign b ((scopedDelete b stmt).run db) = foreign b db := by
  funext t
  rw [foreign, scopedDelete_run, foreign]
  split
  · rw [List.filter_filter]
    apply List.filter_congr
    intro row _
    cases ownsRow b t row <;> simp
  · rfl

/-! ## Inserts -/

/-- An `INSERT` a caller of the builders can execute: the values given to `insert` do not name
the key, which a caller never supplies. -/
inductive BuiltInsert (b : KeyedStatements V) : Insert V → Prop
  | insert (table : String) (own : Values V) (unnamed : own b.scoping.keyColumn = none) :
      BuiltInsert b ((b.insert table).valued own)
  | insertRows {table : String} {rows : List (Values V)} {stmt : Insert V}
      (built : b.insertRows table rows = .ok stmt) : BuiltInsert b stmt
  | insertFromSelect {table : String} {names : List String} {select : Select V}
      {cols : List (Computed V)} {stmt : Insert V}
      (built : b.insertFromSelect table names (scopedSelect b select)
        (cols.map (scopedComputed b)) = .ok stmt) : BuiltInsert b stmt

omit [DecidableEq V] in
theorem insertRows_keyed {b : KeyedStatements V} {table : String} {rows : List (Values V)}
    {stmt : Insert V} (built : b.insertRows table rows = .ok stmt) :
    stmt = .rows table (if b.scoping.isKeyed (.table table) then
      rows.map fun row => row.union b.stamp else rows) := by
  unfold KeyedStatements.insertRows at built
  cases hk : b.scoping.isKeyed (.table table)
  · simp only [hk, Bool.not_false, if_true] at built
    split at built
    · cases built
    · cases built
      simp
  · simp only [hk, Bool.not_true, Bool.false_eq_true, if_false] at built
    split at built
    · cases built
    · split at built
      · cases built
      · cases hc : b.checkRows table rows with
        | error e => rw [hc] at built; cases built
        | ok u =>
          rw [hc] at built
          cases built
          simp

omit [DecidableEq V] in
theorem insertFromSelect_keyed {b : KeyedStatements V} {table : String} {names : List String}
    {select : Select V} {cols : List (Computed V)} {stmt : Insert V}
    (keyed : b.scoping.isKeyed (.table table))
    (built : b.insertFromSelect table names select cols = .ok stmt) :
    b.scoping.keyColumn ∉ names ∧ b.checkNames table names = .ok () ∧
      stmt = .fromSelect table (names ++ [b.scoping.keyColumn]) select
        (cols ++ [{ compute := fun _ _ => some b.key }]) := by
  unfold KeyedStatements.insertFromSelect at built
  simp only [keyed, Bool.not_true, Bool.false_eq_true, if_false] at built
  split at built
  · cases built
  · next hnames =>
    cases hc : b.checkNames table names with
    | error e => rw [hc] at built; cases built
    | ok u =>
      rw [hc] at built
      cases built
      exact ⟨hnames, rfl, rfl⟩

omit [DecidableEq V] in
/-- What an executed insert did: its rows stand after the table's, and no parameter row of a
keyed table named the key. -/
theorem executeInsert_ok {b : KeyedStatements V} {db db' : Database V} {defaults : Row V}
    {stmt : Insert V} {params : List (Values V)}
    (h : executeInsert b db defaults stmt params = .ok db') :
    db' = stmt.run db defaults (executeTimeRows params) ∧
      (b.scoping.isKeyed (.table stmt.table) →
        ∀ row ∈ executeTimeRows params, row b.scoping.keyColumn = none) := by
  simp only [executeInsert, KeyScoping.refuseSuppliedKey] at h
  split at h
  · cases h
  · next hfree =>
    simp only [bind, Except.bind] at h
    split at h
    · cases h
    · cases h
      refine ⟨rfl, fun hk row hrow => ?_⟩
      simp only [hk, Bool.true_and, List.any_eq_true, not_exists, not_and] at hfree
      simpa using hfree row hrow

/-- Every row a built insert adds to a keyed table carries the scope's key. -/
theorem added_stamped {b : KeyedStatements V} (db : Database V) (defaults : Row V)
    {stmt : Insert V} (built : BuiltInsert b stmt) {params : List (Values V)}
    (keyed : b.scoping.isKeyed (.table stmt.table))
    (unnamed : ∀ row ∈ params, row b.scoping.keyColumn = none) :
    ∀ row ∈ stmt.added db defaults params, row b.scoping.keyColumn = some b.key := by
  cases built with
  | insert table own hown =>
    have hk : b.scoping.isKeyed (.table table) := by
      unfold KeyedStatements.insert at keyed
      split at keyed <;> exact keyed
    intro row hrow
    simp only [KeyedStatements.insert, hk, if_true, Insert.valued, Insert.added,
      List.mem_map] at hrow
    obtain ⟨param, hparam, rfl⟩ := hrow
    simp [Values.over, Values.union, KeyedStatements.stamp, unnamed param hparam, hown]
  | @insertRows table rows _ hbuilt =>
    have hstmt := insertRows_keyed hbuilt
    subst hstmt
    have hk : b.scoping.isKeyed (.table table) := keyed
    intro row hrow
    simp only [hk, if_true, Insert.added, List.map_map, List.mem_map, Function.comp] at hrow
    obtain ⟨entries, -, rfl⟩ := hrow
    simp [Values.over, Values.union, KeyedStatements.stamp]
  | @insertFromSelect table names select cols _ hbuilt =>
    have hk : b.scoping.isKeyed (.table table) := by
      cases hk : b.scoping.isKeyed (.table table)
      · simp only [KeyedStatements.insertFromSelect, hk, Bool.not_false, if_true] at hbuilt
        cases hbuilt
        exact absurd keyed (by simp [Insert.table, hk])
      · rfl
    obtain ⟨hfresh, -, rfl⟩ := insertFromSelect_keyed hk hbuilt
    intro row hrow
    simp only [Insert.added] at hrow
    split at hrow
    · next hlen =>
      obtain ⟨record, hrecord, rfl⟩ := List.mem_map.mp hrow
      simp only [Select.run, List.map_append, List.mem_map] at hrecord
      obtain ⟨joined, -, rfl⟩ := hrecord
      have hlength : names.length = (cols.map (scopedComputed b)).length := by
        simp only [List.length_append, List.length_map, List.length_singleton] at hlen ⊢
        omega
      simp only [Values.over, List.map_cons, List.map_nil]
      rw [named_last hfresh (by simpa using hlength)]
      rfl
    · simp at hrow

/-- The rows an insert adds from a scoped `SELECT` are those the authored `SELECT` gives in the
restricted database. -/
theorem insertFromSelect_added {b : KeyedStatements V} (db : Database V) {table : String}
    {names : List String} {select : Select V} {cols : List (Computed V)} {stmt : Insert V}
    (built : b.insertFromSelect table names (scopedSelect b select)
      (cols.map (scopedComputed b)) = .ok stmt) :
    ∃ plain, b.insertFromSelect table names select cols = .ok plain ∧
      ∀ defaults params,
        stmt.added db defaults params = plain.added (restrict b db) defaults params := by
  have hlit : ∀ v : V, scopedComputed b { compute := fun _ _ => some v }
      = { compute := fun _ _ => some v } := fun v => rfl
  have hrun : ∀ (names : List String) (cols : List (Computed V)) (defaults : Row V) params,
      (Insert.fromSelect table names (scopedSelect b select)
          (cols.map (scopedComputed b))).added db defaults params
        = (Insert.fromSelect table names select cols).added (restrict b db) defaults params := by
    intro names cols defaults params
    simp only [Insert.added, List.length_map, scopedSelect_run]
  cases hk : b.scoping.isKeyed (.table table)
  · simp only [KeyedStatements.insertFromSelect, hk, Bool.not_false, if_true] at built ⊢
    cases built
    exact ⟨_, rfl, hrun names cols⟩
  · obtain ⟨hfresh, hcheck, rfl⟩ := insertFromSelect_keyed hk built
    have hplain : b.insertFromSelect table names select cols
        = .ok (.fromSelect table (names ++ [b.scoping.keyColumn]) select
          (cols ++ [{ compute := fun _ _ => some b.key }])) := by
      simp only [KeyedStatements.insertFromSelect, hk, hfresh, hcheck]
      rfl
    refine ⟨_, hplain, ?_⟩
    have h := hrun (names ++ [b.scoping.keyColumn])
      (cols ++ [{ compute := fun _ _ => some b.key }])
    simpa only [List.map_append, List.map_cons, List.map_nil, hlit] using h

/-! ## The whole layer -/

/-- What the builders promise of a database: reads see the key's part of it, writes reach no
row outside it, and inserted rows are the key's. -/
structure Confined (b : KeyedStatements V) (db : Database V) : Prop where
  select : ∀ (stmt : Select V) (cols : List (Computed V)) (outer : List (JoinRow V)),
    (scopedSelect b stmt).rows db outer = stmt.rows (restrict b db) outer ∧
      (scopedSelect b stmt).run db (cols.map (scopedComputed b)) outer
        = stmt.run (restrict b db) cols outer
  exists_ : ∀ (stmt : Select V) (rows : List (JoinRow V)),
    (scopedExists b stmt).eval db rows = stmt.existsIn.eval (restrict b db) rows
  update : ∀ (stmt : Update V) (t : String),
    (scopedUpdate b stmt).run db t =
        (if t = stmt.table then
          (db t).map fun row => if ownsRow b t row then stmt.after (restrict b db) row else row
        else db t) ∧
      stmt.run (restrict b db) t =
        if t = stmt.table then (restrict b db t).map (stmt.after (restrict b db))
        else restrict b db t
  updated : ∀ stmt : Update V,
    (db stmt.table).filter (reaches db (scopedUpdate b stmt).criteria)
      = (restrict b db stmt.table).filter (reaches (restrict b db) stmt.criteria)
  delete : ∀ stmt : Delete V,
    restrict b ((scopedDelete b stmt).run db) = stmt.run (restrict b db) ∧
      foreign b ((scopedDelete b stmt).run db) = foreign b db
  insert : ∀ (stmt : Insert V), BuiltInsert b stmt → ∀ defaults params db',
    executeInsert b db defaults stmt params = .ok db' →
      ∃ added, db' = (fun t => if t = stmt.table then db t ++ added else db t) ∧
        (b.scoping.isKeyed (.table stmt.table) →
          ∀ row ∈ added, row b.scoping.keyColumn = some b.key)
  insertFromSelect : ∀ table names (select : Select V) cols stmt,
    b.insertFromSelect table names (scopedSelect b select) (cols.map (scopedComputed b))
        = .ok stmt →
      ∃ plain, b.insertFromSelect table names select cols = .ok plain ∧
        ∀ defaults params,
          stmt.added db defaults params = plain.added (restrict b db) defaults params

theorem confined (b : KeyedStatements V) (db : Database V) : Confined b db where
  select stmt cols outer :=
    ⟨scopedSelect_rows b db stmt outer, scopedSelect_run b db stmt cols outer⟩
  exists_ := scopedExists_eval b db
  update stmt t := ⟨scopedUpdate_run b db stmt t, rfl⟩
  updated stmt := by
    have hreach := reaches_scoped b db stmt.table stmt.criteria
    rw [restrict, List.filter_filter]
    apply List.filter_congr
    intro row _
    exact (hreach row).trans (Bool.and_comm _ _)
  delete stmt := ⟨scopedDelete_own b db stmt, scopedDelete_foreign b db stmt⟩
  insert stmt built defaults params db' h := by
    obtain ⟨rfl, hunnamed⟩ := executeInsert_ok h
    exact ⟨_, rfl, fun keyed => added_stamped db defaults built keyed (hunnamed keyed)⟩
  insertFromSelect _ _ _ _ _ built := insertFromSelect_added db built

/-- The scoped statements of a tenant are confined to it, in every database. -/
theorem tenant_scoping_complete (columns : String → List Column) (tenant : V)
    (db : Database V) : Confined (scopedStatements columns tenant) db :=
  confined _ db

/-- Values chained onto a scoped insert may name the key, and theirs is the row's: executed over
the empty database, this insert of the first tenant's scope leaves a row of the second. -/
theorem insert_values_override_stamp :
    ∃ db', executeInsert
        (scopedStatements (fun _ => [⟨"tenant_id", false⟩, ⟨"body", false⟩]) "ten_A")
        (fun _ => []) (fun _ => none)
        (((scopedStatements (fun _ => [⟨"tenant_id", false⟩, ⟨"body", false⟩]) "ten_A").insert
          "notes").valued fun c => if c = "tenant_id" then some (some "ten_B") else none) []
          = .ok db' ∧
      ( db' "notes").map (fun row => row "tenant_id") = [some "ten_B"] :=
  ⟨_, rfl, by decide⟩

end Blizzard.TenantIsolation
