import Mathlib.Data.List.Nodup

/-! # Dictionaries and unique keys

A dictionary built from pairs keeps the last value of a key; a table with a unique key takes
rows only while its keys stay pairwise distinct. -/
namespace Blizzard.DictionaryRows

variable {α β κ : Type*} [DecidableEq κ]

/-- The value a dictionary built from `entries` holds under a key: the last one wins. -/
def get (entries : List (κ × β)) (key : κ) : Option β :=
  (entries.reverse.find? fun entry => entry.1 = key).map (·.2)

@[simp] theorem get_nil (key : κ) : get ([] : List (κ × β)) key = none := rfl

theorem mem_of_get {entries : List (κ × β)} {key : κ} {value : β}
    (found : get entries key = some value) : (key, value) ∈ entries := by
  obtain ⟨entry, first, rfl⟩ := Option.map_eq_some_iff.mp found
  have same : entry.1 = key := of_decide_eq_true (List.find?_some first :)
  rw [← same]
  exact List.mem_reverse.mp (List.mem_of_find?_eq_some first)

theorem get_isSome {entries : List (κ × β)} {key : κ} (inside : key ∈ entries.map (·.1)) :
    ∃ value, get entries key = some value := by
  obtain ⟨entry, listed, rfl⟩ := List.mem_map.mp inside
  cases found : entries.reverse.find? fun other => other.1 = entry.1 with
  | none =>
    have none_ := List.find?_eq_none.mp found entry (List.mem_reverse.mpr listed)
    exact absurd (decide_eq_true rfl) none_
  | some other => exact ⟨other.2, by rw [get, found, Option.map_some]⟩

theorem get_eq_none {entries : List (κ × β)} {key : κ} :
    get entries key = none ↔ key ∉ entries.map (·.1) := by
  constructor
  · intro none_ inside
    obtain ⟨value, found⟩ := get_isSome inside
    rw [none_] at found
    cases found
  · intro outside
    cases found : get entries key with
    | none => rfl
    | some value => exact absurd (List.mem_map_of_mem (mem_of_get found)) outside

/-- A key that occurs once holds its own value. -/
theorem get_of_mem {entries : List (κ × β)} (keys : (entries.map (·.1)).Nodup) {key : κ}
    {value : β} (inside : (key, value) ∈ entries) : get entries key = some value := by
  obtain ⟨other, found⟩ := get_isSome (List.mem_map_of_mem inside)
  have same := List.inj_on_of_nodup_map keys (mem_of_get found) inside rfl
  rw [found, (Prod.mk.inj same).2]

/-- The items of a dictionary built from `entries`, in the order its keys came first. -/
def items (entries : List (κ × β)) : List (κ × β) :=
  (entries.map (·.1)).eraseDups.filterMap fun key => (get entries key).map fun value => (key, value)

theorem mem_items {entries : List (κ × β)} {key : κ} {value : β} :
    (key, value) ∈ items entries ↔ get entries key = some value := by
  rw [items, List.mem_filterMap]
  constructor
  · rintro ⟨other, -, found⟩
    obtain ⟨held, get_, same⟩ := Option.map_eq_some_iff.mp found
    cases same
    exact get_
  · intro found
    refine ⟨key, ?_, by rw [found, Option.map_some]⟩
    exact List.mem_eraseDups.mpr (List.mem_map_of_mem (mem_of_get found))

/-- Where keys are unique a row is the only one of its key. -/
theorem filter_key {key : α → κ} {rows : List α} (keys : (rows.map key).Nodup) {row : α}
    (inside : row ∈ rows) : rows.filter (fun other => key other = key row) = [row] := by
  induction rows with
  | nil => cases inside
  | cons first rest ih =>
    obtain ⟨alone, keys⟩ := List.nodup_cons.mp keys
    rcases List.mem_cons.mp inside with rfl | later
    · rw [List.filter_cons_of_pos (by simp)]
      congr 1
      rw [List.filter_eq_nil_iff]
      intro other listed same
      exact alone (of_decide_eq_true same ▸ List.mem_map_of_mem listed)
    · rw [List.filter_cons_of_neg, ih keys later]
      intro same
      rw [of_decide_eq_true same] at alone
      exact alone (List.mem_map_of_mem later)

/-- `INSERT` under a unique key: refused where two rows would carry one key. -/
def inserted (key : α → κ) (table rows : List α) : Option (List α) :=
  if ((table ++ rows).map key).Nodup then some (table ++ rows) else none

theorem inserted_eq_some {key : α → κ} {table rows after : List α} :
    inserted key table rows = some after ↔
      ((table ++ rows).map key).Nodup ∧ after = table ++ rows := by
  rw [inserted]
  split
  next distinct =>
    constructor
    · intro same
      exact ⟨distinct, (Option.some.inj same).symm⟩
    · rintro ⟨-, rfl⟩
      rfl
  next clash =>
    constructor
    · intro same
      cases same
    · rintro ⟨distinct, -⟩
      exact absurd distinct clash

end Blizzard.DictionaryRows
