import Mathlib.Data.List.Nodup

/-! # Tables under a unique constraint

A table no two rows of which share a key. An insert of a key that stands is
refused; an update may change a row's other columns and never its key. -/
namespace Blizzard.UniqueRows

variable {R K : Type*} {key : R → K}

structure UniqueTable (key : R → K) where
  rows : List R
  distinct : (rows.map key).Nodup

namespace UniqueTable

def empty (key : R → K) : UniqueTable key := ⟨[], List.nodup_nil⟩

/-- The table with one row more, `none` where its key stands already. -/
def insert [DecidableEq K] (table : UniqueTable key) (row : R) : Option (UniqueTable key) :=
  if free : key row ∉ table.rows.map key then
    some
      { rows := table.rows ++ [row]
        distinct := by
          rw [List.map_append, List.map_singleton]
          refine table.distinct.append (List.nodup_singleton _) ?_
          intro k held own
          exact free (List.mem_singleton.mp own ▸ held) }
  else none

/-- Every row changed in its columns outside the key. -/
def update (table : UniqueTable key) (change : R → R) (keeps : ∀ row, key (change row) = key row) :
    UniqueTable key where
  rows := table.rows.map change
  distinct := by
    have same : (table.rows.map change).map key = table.rows.map key := by
      rw [List.map_map]
      exact List.map_congr_left fun row _ => keeps row
    rw [same]
    exact table.distinct

variable {table after : UniqueTable key} {row other : R} {change : R → R}
  {keeps : ∀ row, key (change row) = key row}

theorem eq_of_key (mem : row ∈ table.rows) (mem' : other ∈ table.rows)
    (same : key row = key other) : row = other :=
  List.inj_on_of_nodup_map table.distinct mem mem' same

/-- A key stands at one place only. -/
theorem place_of_key {i j : ℕ} (at_ : table.rows[i]? = some row) (at_' : table.rows[j]? = some other)
    (same : key row = key other) : i = j := by
  have below : i < (table.rows.map key).length := by
    rw [List.length_map]
    exact (List.getElem?_eq_some_iff.mp at_).1
  apply (List.getElem?_inj below table.distinct).mp
  rw [List.getElem?_map, List.getElem?_map, at_, at_', Option.map_some, Option.map_some, same]

/-- A row is found by its key. -/
theorem find_of_mem [DecidableEq K] (mem : row ∈ table.rows) :
    table.rows.find? (fun other => decide (key other = key row)) = some row := by
  cases found : table.rows.find? fun other => decide (key other = key row) with
  | none => exact absurd (List.find?_eq_none.mp found row mem) (by simp)
  | some other =>
    have same : key other = key row := by simpa using List.find?_some found
    rw [eq_of_key (List.mem_of_find?_eq_some found) mem same]

section Insert
variable [DecidableEq K]

theorem insert_some (inserted : table.insert row = some after) :
    key row ∉ table.rows.map key ∧ after.rows = table.rows ++ [row] := by
  rw [insert] at inserted
  split at inserted
  · rename_i free
    obtain rfl := Option.some.inj inserted
    exact ⟨free, rfl⟩
  · cases inserted

theorem mem_insert (inserted : table.insert row = some after) :
    other ∈ after.rows ↔ other ∈ table.rows ∨ other = row := by
  rw [(insert_some inserted).2, List.mem_append, List.mem_singleton]

/-- A standing row keeps its place. -/
theorem insert_getElem? (inserted : table.insert row = some after) {i : ℕ}
    (at_ : table.rows[i]? = some other) : after.rows[i]? = some other := by
  rw [(insert_some inserted).2]
  exact List.getElem?_append_left (List.getElem?_eq_some_iff.mp at_).1 ▸ at_

theorem insert_isSome (free : key row ∉ table.rows.map key) :
    ∃ after, table.insert row = some after := ⟨_, dif_pos free⟩

end Insert

theorem mem_update : other ∈ (table.update change keeps).rows ↔
    ∃ row ∈ table.rows, change row = other := List.mem_map

theorem update_getElem? (i : ℕ) :
    (table.update change keeps).rows[i]? = table.rows[i]?.map change := List.getElem?_map

end UniqueTable

end Blizzard.UniqueRows
