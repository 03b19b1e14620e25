import Mathlib.Data.List.Basic

/-! # Queries over trees of joins

Tables are bags of rows, a null is `none`, and conditions are three-valued: a row is kept where
its condition is `some true`. A condition sees the row of its own query first and the rows of the
enclosing queries behind it, so a nested read may correlate. -/
namespace Blizzard.JoinQueries

/-- A row: the value of each column, `none` where it is null. -/
abbrev Row (V : Type) := String → Option V

/-- The rows of each table. -/
abbrev Database (V : Type) := String → List (Row V)

/-- The row of a FROM: one table's row, or the two rows a join pairs. -/
inductive JoinRow (V : Type)
  | leaf (row : Row V)
  | pair (left right : JoinRow V)

/-- A side of a join. -/
inductive Side
  | left
  | right
  deriving DecidableEq, Repr

/-- The table row at the end of a path through a joined row. -/
def JoinRow.at {V : Type} : List Side → JoinRow V → Row V
  | [], .leaf row => row
  | .left :: path, .pair l _ => l.at path
  | .right :: path, .pair _ r => r.at path
  | _, _ => fun _ => none

/-- Three-valued conjunction. -/
def conjoin : Option Bool → Option Bool → Option Bool
  | some true, b => b
  | some false, _ => some false
  | none, some false => some false
  | none, _ => none

/-- Three-valued disjunction. -/
def disjoin : Option Bool → Option Bool → Option Bool
  | some false, b => b
  | some true, _ => some true
  | none, some true => some true
  | none, _ => none

theorem conjoin_eq_true {a b : Option Bool} :
    conjoin a b = some true ↔ a = some true ∧ b = some true := by
  rcases a with _ | _ | _ <;> rcases b with _ | _ | _ <;> simp [conjoin]

/-- A table, or an alias of a table or of another alias. -/
inductive Source
  | table (name : String)
  | alias (name : String) (element : Source)
  deriving DecidableEq, Repr

/-- The table an alias names in the end. -/
def Source.base : Source → String
  | .table name => name
  | .alias _ element => element.base

mutual
/-- A FROM tree: tables and aliases under inner and left outer joins. -/
inductive From (V : Type)
  | source (source : Source)
  | join (left right : From V) (onclause : Cond V) (isouter : Bool)

/-- A condition over the rows in sight. `reads` judges the rows of a nested query, which may
correlate to the rows in sight. -/
inductive Cond (V : Type)
  | atom (holds : List (JoinRow V) → Option Bool)
  | and (a b : Cond V)
  | or (a b : Cond V)
  | not (a : Cond V)
  | reads (from_ : From V) (criteria : Cond V)
      (verdict : List (JoinRow V) → List (JoinRow V) → Option Bool)
end

variable {V : Type}

/-- The right row of an outer join's unmatched left row. -/
def From.nulls : From V → JoinRow V
  | .source _ => .leaf fun _ => none
  | .join left right _ _ => .pair left.nulls right.nulls

/-- What a left row becomes in `left JOIN right ON on`: a pair with each right row it matches, or
with `nulls` where it matches none and the join is outer. -/
def pairings (isouter : Bool) (nulls : JoinRow V) (on : JoinRow V → Option Bool)
    (right : List (JoinRow V)) (a : JoinRow V) : List (JoinRow V) :=
  let matched := right.filter fun b => on (.pair a b) = some true
  if isouter ∧ matched = [] then [.pair a nulls] else matched.map (.pair a)

/-- `left JOIN right ON on`. -/
def joinRows (isouter : Bool) (nulls : JoinRow V) (on : JoinRow V → Option Bool)
    (left right : List (JoinRow V)) : List (JoinRow V) :=
  left.flatMap (pairings isouter nulls on right)

mutual
/-- The rows of a FROM under the rows of the enclosing queries. -/
def From.eval (db : Database V) : From V → List (JoinRow V) → List (JoinRow V)
  | .source s, _ => (db s.base).map .leaf
  | .join left right onclause isouter, outer =>
      joinRows isouter right.nulls (fun row => onclause.eval db (row :: outer))
        (left.eval db outer) (right.eval db outer)

/-- The truth of a condition under the rows in sight. -/
def Cond.eval (db : Database V) : Cond V → List (JoinRow V) → Option Bool
  | .atom holds, rows => holds rows
  | .and a b, rows => conjoin (a.eval db rows) (b.eval db rows)
  | .or a b, rows => disjoin (a.eval db rows) (b.eval db rows)
  | .not a, rows => (a.eval db rows).map (!·)
  | .reads from_ criteria verdict, rows =>
      verdict rows
        ((from_.eval db rows).filter fun row => criteria.eval db (row :: rows) = some true)
end

/-- The conjunction of a WHERE's criteria. -/
def conjunction : List (Cond V) → Cond V
  | [] => .atom fun _ => some true
  | c :: cs => .and c (conjunction cs)

theorem conjunction_eval (db : Database V) (cs : List (Cond V)) (rows : List (JoinRow V)) :
    (conjunction cs).eval db rows = some true ↔ ∀ c ∈ cs, c.eval db rows = some true := by
  induction cs with
  | nil => simp [conjunction, Cond.eval]
  | cons c cs ih => simp [conjunction, Cond.eval, conjoin_eq_true, ih]

theorem and_conjunction_eval (db : Database V) (c : Cond V) (cs : List (Cond V))
    (rows : List (JoinRow V)) : (cs.foldl .and c).eval db rows = some true ↔
      c.eval db rows = some true ∧ ∀ d ∈ cs, d.eval db rows = some true := by
  induction cs generalizing c with
  | nil => simp
  | cons d ds ih =>
    have h := ih (.and c d)
    simp only [List.foldl_cons, h, Cond.eval, conjoin_eq_true, List.forall_mem_cons, and_assoc]

/-! ## Joins under filters -/

theorem pairings_left {isouter : Bool} {nulls : JoinRow V} {on : JoinRow V → Option Bool}
    {right : List (JoinRow V)} {a row : JoinRow V} (h : row ∈ pairings isouter nulls on right a) :
    ∃ b, row = .pair a b := by
  unfold pairings at h
  simp only at h
  split at h
  · exact ⟨nulls, List.mem_singleton.mp h⟩
  · obtain ⟨b, -, rfl⟩ := List.mem_map.mp h
    exact ⟨b, rfl⟩

theorem flatMap_filter_left {α β : Type*} (g : α → List β) (p : α → Bool) (xs : List α) :
    (xs.filter p).flatMap g = xs.flatMap fun x => if p x then g x else [] := by
  induction xs with
  | nil => rfl
  | cons x xs ih => cases hp : p x <;> simp [hp, ih]

/-- A test whose verdict on a joined row is the left row's `p` can be made before the join. -/
theorem joinRows_filter (isouter : Bool) (nulls : JoinRow V) (on : JoinRow V → Option Bool)
    (left right : List (JoinRow V)) (p q : JoinRow V → Bool)
    (hq : ∀ a, ∀ row ∈ pairings isouter nulls on right a, q row = p a) :
    (joinRows isouter nulls on left right).filter q
      = joinRows isouter nulls on (left.filter p) right := by
  have hrow : ∀ a, (pairings isouter nulls on right a).filter q
      = if p a then pairings isouter nulls on right a else [] := by
    intro a
    cases hp : p a
    · apply List.filter_eq_nil_iff.mpr
      intro row hrow
      simp [hq a row hrow, hp]
    · apply List.filter_eq_self.mpr
      intro row hrow
      simp [hq a row hrow, hp]
  unfold joinRows
  rw [List.filter_flatMap, flatMap_filter_left]
  simp only [hrow]

/-- A test of the left row alone can be made before an inner or an outer join. -/
theorem joinRows_filter_left (isouter : Bool) (nulls : JoinRow V)
    (on : JoinRow V → Option Bool) (left right : List (JoinRow V)) (p q : JoinRow V → Bool)
    (hq : ∀ a b, q (.pair a b) = p a) :
    (joinRows isouter nulls on left right).filter q
      = joinRows isouter nulls on (left.filter p) right := by
  apply joinRows_filter
  intro a row hrow
  obtain ⟨b, rfl⟩ := pairings_left hrow
  exact hq a b

/-- An ON that also asks the right row for `p` joins only the right rows that pass it, whether
the join is inner or outer. -/
theorem joinRows_on_right (isouter : Bool) (nulls : JoinRow V)
    (on on' : JoinRow V → Option Bool) (left right : List (JoinRow V)) (p : JoinRow V → Bool)
    (hon : ∀ a b, on' (.pair a b) = some true ↔ on (.pair a b) = some true ∧ p b) :
    joinRows isouter nulls on' left right = joinRows isouter nulls on left (right.filter p) := by
  have hmatched : ∀ a, right.filter (fun b => on' (.pair a b) = some true)
      = (right.filter p).filter (fun b => on (.pair a b) = some true) := by
    intro a
    rw [List.filter_filter]
    apply List.filter_congr
    intro b _
    simp [hon]
  unfold joinRows pairings
  simp only [hmatched]

/-- A test both rows of an inner join must pass is a test of the left row, where only right rows
that pass their part are joined. -/
theorem joinRows_filter_inner (nulls : JoinRow V) (on : JoinRow V → Option Bool)
    (left right : List (JoinRow V)) (p r q : JoinRow V → Bool)
    (hq : ∀ a b, q (.pair a b) = (p a && r b)) :
    (joinRows false nulls on left (right.filter r)).filter q
      = joinRows false nulls on (left.filter p) (right.filter r) := by
  apply joinRows_filter
  intro a row hrow
  simp only [pairings, Bool.false_eq_true, false_and, if_false, List.mem_map,
    List.mem_filter] at hrow
  obtain ⟨b, ⟨⟨-, hr⟩, -⟩, rfl⟩ := hrow
  simp [hq, hr]

/-! ## Statements -/

/-- A `SELECT`: its FROM and the criteria of its WHERE. -/
structure Select (V : Type) where
  from_ : From V
  criteria : List (Cond V) := []

/-- Further criteria on a `SELECT`. -/
def Select.filtered (stmt : Select V) (criteria : List (Cond V)) : Select V :=
  { stmt with criteria := stmt.criteria ++ criteria }

/-- The joined rows a `SELECT` reads under the rows of the enclosing queries. -/
def Select.rows (db : Database V) (stmt : Select V) (outer : List (JoinRow V)) :
    List (JoinRow V) :=
  (stmt.from_.eval db outer).filter fun row =>
    (conjunction stmt.criteria).eval db (row :: outer) = some true

/-- `EXISTS (SELECT …)` as a condition. -/
def Select.existsIn (stmt : Select V) : Cond V :=
  .reads stmt.from_ (conjunction stmt.criteria) fun _ rows => some !rows.isEmpty

/-- A value computed from the rows in sight and from nested reads that correlate to them. -/
structure Computed (V : Type) where
  reads : List (Select V) := []
  compute : List (List (JoinRow V)) → List (JoinRow V) → Option V

def Computed.eval (db : Database V) (value : Computed V) (rows : List (JoinRow V)) : Option V :=
  value.compute (value.reads.map fun stmt => stmt.rows db rows) rows

/-- The records a `SELECT` of `cols` returns. -/
def Select.run (db : Database V) (stmt : Select V) (cols : List (Computed V))
    (outer : List (JoinRow V)) : List (List (Option V)) :=
  (stmt.rows db outer).map fun row => cols.map fun col => col.eval db (row :: outer)

/-- Values by column name: a column the mapping does not name is absent, not null. -/
abbrev Values (V : Type) := String → Option (Option V)

/-- Two mappings as one, the later one's entry standing where both name a column. -/
def Values.union (earlier later : Values V) : Values V := fun c => later c <|> earlier c

/-- The row a mapping writes, columns it does not name read from `rest`. -/
def Values.over (values : Values V) (rest : Row V) : Row V := fun c => (values c).getD (rest c)

/-- An `UPDATE` of one table. -/
structure Update (V : Type) where
  table : String
  criteria : List (Cond V) := []
  values : List (String × Computed V) := []

/-- Whether an `UPDATE` or a `DELETE` with these criteria reaches a row of its table. -/
def reaches (db : Database V) (criteria : List (Cond V)) (row : Row V) : Bool :=
  (conjunction criteria).eval db [.leaf row] = some true

/-- The row an `UPDATE` leaves where it reaches `row`. -/
def Update.written (db : Database V) (stmt : Update V) (row : Row V) : Row V :=
  Values.over
    (fun c => (stmt.values.find? (·.1 = c)).map fun value => value.2.eval db [.leaf row]) row

/-- What a row of its table becomes under an `UPDATE`. -/
def Update.after (db : Database V) (stmt : Update V) (row : Row V) : Row V :=
  if reaches db stmt.criteria row then stmt.written db row else row

/-- The database after an `UPDATE`; every expression reads the database before it. -/
def Update.run (db : Database V) (stmt : Update V) : Database V := fun t =>
  if t = stmt.table then (db t).map (stmt.after db) else db t

/-- A `DELETE` from one table. -/
structure Delete (V : Type) where
  table : String
  criteria : List (Cond V) := []

/-- The database after a `DELETE`. -/
def Delete.run (db : Database V) (stmt : Delete V) : Database V := fun t =>
  if t = stmt.table then (db t).filter fun row => !reaches db stmt.criteria row else db t

/-- An `INSERT`: of one mapping, of several rows, or of the rows a `SELECT` returns. -/
inductive Insert (V : Type)
  | values (table : String) (values : Values V)
  | rows (table : String) (rows : List (Values V))
  | fromSelect (table : String) (names : List String) (select : Select V)
      (cols : List (Computed V))

def Insert.table : Insert V → String
  | .values table _ | .rows table _ | .fromSelect table _ _ _ => table

/-- The entries a record fills `names` with, in order. -/
def Values.named (names : List String) (record : List (Option V)) : Values V := fun c =>
  ((names.zip record).find? (·.1 = c)).map Prod.snd

/-- Further values on an `INSERT` of one mapping, over those it has. -/
def Insert.valued (more : Values V) : Insert V → Insert V
  | .values table own => .values table (own.union more)
  | .rows table entries => .rows table entries
  | .fromSelect table names select cols => .fromSelect table names select cols

/-- The rows an `INSERT` adds, executed with parameter rows that each override the statement's
own values; `defaults` fills the columns nothing names. A `SELECT` whose columns are not as many
as the names it fills is not run. -/
def Insert.added (db : Database V) (defaults : Row V) (params : List (Values V)) :
    Insert V → List (Row V)
  | .values _ own => params.map fun param => (own.union param).over defaults
  | .rows _ entries => entries.map (·.over defaults)
  | .fromSelect _ names select cols =>
      if names.length = cols.length then
        (select.run db cols []).map fun record => (Values.named names record).over defaults
      else []

/-- The database after an `INSERT`. -/
def Insert.run (db : Database V) (defaults : Row V) (params : List (Values V))
    (stmt : Insert V) : Database V := fun t =>
  if t = stmt.table then db t ++ stmt.added db defaults params else db t

theorem Select.rows_filtered (db : Database V) (stmt : Select V) (criteria : List (Cond V))
    (outer : List (JoinRow V)) : (stmt.filtered criteria).rows db outer
      = (stmt.rows db outer).filter fun row =>
          (conjunction criteria).eval db (row :: outer) = some true := by
  unfold Select.rows Select.filtered
  rw [List.filter_filter]
  apply List.filter_congr
  intro row _
  rw [← Bool.decide_and]
  apply decide_eq_decide.mpr
  simp only [conjunction_eval, List.mem_append]
  constructor
  · intro h
    exact ⟨fun c hc => h c (.inr hc), fun c hc => h c (.inl hc)⟩
  · rintro ⟨hnew, hold⟩ c (hc | hc)
    · exact hold c hc
    · exact hnew c hc

theorem Select.existsIn_eval (db : Database V) (stmt : Select V) (rows : List (JoinRow V)) :
    stmt.existsIn.eval db rows = some !(stmt.rows db rows).isEmpty := by
  simp [Select.existsIn, Cond.eval, Select.rows]

/-- A record that fills `names` and one name more gives that name its last entry. -/
theorem named_last {names : List String} {record : List (Option V)} {column : String}
    {value : Option V} (fresh : column ∉ names) (length : names.length = record.length) :
    Values.named (names ++ [column]) (record ++ [value]) column = some value := by
  unfold Values.named
  rw [List.zip_append length, List.find?_append]
  have hnone : (names.zip record).find? (·.1 = column) = none := by
    apply List.find?_eq_none.mpr
    intro entry hentry
    have hname := (List.of_mem_zip (show (entry.1, entry.2) ∈ _ from hentry)).1
    simp only [decide_eq_true_eq]
    intro h
    exact fresh (h ▸ hname)
  simp [hnone]

end Blizzard.JoinQueries
