import Mathlib.Data.List.MinMax
import Mathlib.Data.Prod.Lex

/-! # Newest rows of a keyed list

Selection by a maximal key, as a log reader does it: `List.argmax` keeps the
first of several maximal rows, `unbeaten` keeps every row no other row beats,
and `maxOrZero` is the maximum of a numeric column with `0` for no rows. -/
namespace Blizzard.LatestRows

variable {α κ : Type*} [LinearOrder κ] {key : α → κ} {rows : List α} {row : α}

/-- `row` is strictly newer than every other row of the list. -/
def Newest (key : α → κ) (rows : List α) (row : α) : Prop :=
  row ∈ rows ∧ ∀ other ∈ rows, other = row ∨ key other < key row

theorem Newest.append_newer (newer : ∀ other ∈ rows, key other < key row) :
    Newest key (rows ++ [row]) row := by
  refine ⟨by simp, ?_⟩
  intro other hother
  rcases List.mem_append.mp hother with old | fresh
  · exact .inr (newer other old)
  · exact .inl (List.mem_singleton.mp fresh)

theorem Newest.unique {row' : α} (h : Newest key rows row) (h' : Newest key rows row') :
    row = row' := by
  rcases h'.2 row h.1 with same | older
  · exact same
  · rcases h.2 row' h'.1 with same | newer
    · exact same.symm
    · exact absurd (older.trans newer) (lt_irrefl _)

theorem Newest.argmax_eq (h : Newest key rows row) : rows.argmax key = some row := by
  cases found : rows.argmax key with
  | none =>
    rw [List.argmax_eq_none] at found
    have hmem := h.1
    simp [found] at hmem
  | some best =>
    have hbest : best ∈ rows.argmax key := by simp [found]
    rcases h.2 best (List.argmax_mem hbest) with same | older
    · rw [same]
    · exact absurd older (not_lt.mpr (List.le_of_mem_argmax h.1 hbest))

/-- The rows with no strictly newer row in the list: a `NOT EXISTS` of a newer rival. -/
def unbeaten (key : α → κ) (rows : List α) : List α :=
  rows.filter fun row => !rows.any fun rival => decide (key row < key rival)

theorem mem_unbeaten :
    row ∈ unbeaten key rows ↔ row ∈ rows ∧ ∀ rival ∈ rows, key rival ≤ key row := by
  simp [unbeaten]

theorem Newest.mem_unbeaten_iff {other : α} (h : Newest key rows row) :
    other ∈ unbeaten key rows ↔ other = row := by
  rw [mem_unbeaten]
  constructor
  · rintro ⟨hother, best⟩
    rcases h.2 other hother with same | older
    · exact same
    · exact absurd older (not_lt.mpr (best row h.1))
  · rintro rfl
    refine ⟨h.1, fun rival hrival => ?_⟩
    rcases h.2 rival hrival with same | older
    · exact le_of_eq (congrArg key same)
    · exact older.le

theorem Newest.unbeaten_getLast? (h : Newest key rows row) :
    (unbeaten key rows).getLast? = some row := by
  cases found : (unbeaten key rows).getLast? with
  | none =>
    have hmem := h.mem_unbeaten_iff.mpr rfl
    rw [List.getLast?_eq_none_iff] at found
    simp [found] at hmem
  | some best =>
    rw [h.mem_unbeaten_iff.mp (List.mem_of_getLast? found)]

theorem argmax_mem_unbeaten {best : α} (h : best ∈ rows.argmax key) : best ∈ unbeaten key rows :=
  mem_unbeaten.mpr ⟨List.argmax_mem h, fun _ hrival => List.le_of_mem_argmax hrival h⟩

/-- The last unbeaten row and the first maximal row carry the same key. -/
theorem unbeaten_getLast?_map_key :
    (unbeaten key rows).getLast?.map key = (rows.argmax key).map key := by
  cases found : rows.argmax key with
  | none => simp [List.argmax_eq_none.mp found, unbeaten]
  | some best =>
    have hbest : best ∈ rows.argmax key := by simp [found]
    cases last : (unbeaten key rows).getLast? with
    | none =>
      have hmem := argmax_mem_unbeaten hbest
      rw [List.getLast?_eq_none_iff] at last
      simp [last] at hmem
    | some tail =>
      have htail := mem_unbeaten.mp (List.mem_of_getLast? last)
      have hkey : key tail = key best :=
        le_antisymm (List.le_of_mem_argmax htail.1 hbest) (htail.2 best (List.argmax_mem hbest))
      simp [hkey]

/-- Some row is newer than `bound` exactly when the last unbeaten row is. -/
theorem unbeaten_getLast?_any_lt (bound : κ) :
    (unbeaten key rows).getLast?.any (fun row => decide (bound < key row)) =
      rows.any fun row => decide (bound < key row) := by
  have same : (unbeaten key rows).getLast?.map key = (rows.argmax key).map key :=
    unbeaten_getLast?_map_key
  cases last : (unbeaten key rows).getLast? with
  | none =>
    rw [last] at same
    have empty : rows.argmax key = none := by simpa using same.symm
    simp [List.argmax_eq_none.mp empty]
  | some tail =>
    have htail := mem_unbeaten.mp (List.mem_of_getLast? last)
    rw [Bool.eq_iff_iff]
    simp only [Option.any_some, decide_eq_true_eq, List.any_eq_true]
    constructor
    · exact fun hlt => ⟨tail, htail.1, hlt⟩
    · rintro ⟨row, hrow, hlt⟩
      exact hlt.trans_le (htail.2 row hrow)

/-- The greatest value of a numeric column, `0` when there is none. -/
def maxOrZero (values : List ℤ) : ℤ := values.max?.getD 0

theorem le_maxOrZero {values : List ℤ} {v : ℤ} (h : v ∈ values) : v ≤ maxOrZero values := by
  cases found : values.max? with
  | none => simp [List.max?_eq_none_iff.mp found] at h
  | some top =>
    simpa [maxOrZero, found] using (List.max?_eq_some_iff.mp found).2 v h

theorem maxOrZero_eq_zero_or_mem (values : List ℤ) :
    maxOrZero values = 0 ∨ maxOrZero values ∈ values := by
  cases found : values.max? with
  | none => exact .inl (by simp [maxOrZero, found])
  | some top =>
    exact .inr (by simpa [maxOrZero, found] using (List.max?_eq_some_iff.mp found).1)

theorem maxOrZero_nonneg {values : List ℤ} (h : ∀ v ∈ values, 0 ≤ v) : 0 ≤ maxOrZero values := by
  rcases maxOrZero_eq_zero_or_mem values with zero | mem
  · exact zero.ge
  · exact h _ mem

end Blizzard.LatestRows
