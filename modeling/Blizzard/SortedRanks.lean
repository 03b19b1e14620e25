import Mathlib.Data.List.Sort
import Mathlib.Order.Basic

/-! # Lists ranked by a key

A list ranked by a key whose ties are told apart has one order, so an order
that stands by the key is the one a later ranking derives; and what is placed
between two parts of a ranked list by its key ranks there. -/
namespace Blizzard.SortedRanks

variable {α κ : Type*} [LinearOrder κ] {key : α → κ} {order rows front back : List α} {x : α}

/-- The rows ascending by their key. -/
def ranked (key : α → κ) (rows : List α) : List α :=
  rows.insertionSort fun a b => key a ≤ key b

theorem ranked_perm (key : α → κ) (rows : List α) : (ranked key rows).Perm rows :=
  rows.perm_insertionSort _

theorem mem_ranked : x ∈ ranked key rows ↔ x ∈ rows :=
  (ranked_perm key rows).mem_iff

theorem ranked_sorted (key : α → κ) (rows : List α) :
    (ranked key rows).Pairwise fun a b => key a ≤ key b := by
  have total : Std.Total fun a b : α => key a ≤ key b := ⟨fun a b => le_total (key a) (key b)⟩
  have trans : IsTrans α fun a b => key a ≤ key b := ⟨fun _ _ _ => le_trans⟩
  exact rows.pairwise_insertionSort _

/-- An order that stands by the key is the one the ranking derives. -/
theorem ranked_eq (perm : order.Perm rows)
    (apart : ∀ a ∈ rows, ∀ b ∈ rows, key a = key b → a = b)
    (sorted : order.Pairwise fun a b => key a ≤ key b) : ranked key rows = order := by
  have same : (ranked key rows).Perm order := (ranked_perm key rows).trans perm.symm
  refine same.eq_of_pairwise ?_ (ranked_sorted key rows) sorted
  intro a b ofA ofB le ge
  exact apart a (mem_ranked.mp ofA) b (perm.mem_iff.mp ofB) (le_antisymm le ge)

/-- Rows under distinct keys rank in strict order. -/
theorem ranked_strict (keys : (rows.map key).Nodup) :
    (ranked key rows).Pairwise fun a b => key a < key b := by
  have distinct := List.pairwise_map.mp (((ranked_perm key rows).map key).nodup_iff.mpr keys)
  refine ((ranked_sorted key rows).and distinct).imp ?_
  intro a b both
  exact lt_of_le_of_ne both.1 both.2

/-- What lies between two parts by its key stands between them. -/
theorem sorted_between (sorted : (front ++ back).Pairwise fun a b => key a ≤ key b)
    (below : ∀ a ∈ front, key a ≤ key x) (above : ∀ b ∈ back, key x ≤ key b) :
    (front ++ x :: back).Pairwise fun a b => key a ≤ key b := by
  obtain ⟨first, last, across⟩ := List.pairwise_append.mp sorted
  refine List.pairwise_append.mpr ⟨first, List.pairwise_cons.mpr ⟨above, last⟩, ?_⟩
  intro a ofA b ofB
  rcases List.mem_cons.mp ofB with rfl | ofB
  · exact below a ofA
  · exact across a ofA b ofB

/-- A smaller key stands earlier. -/
theorem ranked_idxOf_lt [DecidableEq α] {a b : α} (ofA : a ∈ rows) (ofB : b ∈ rows)
    (less : key a < key b) : (ranked key rows).idxOf a < (ranked key rows).idxOf b := by
  have inA := List.idxOf_lt_length_iff.mpr (mem_ranked.mpr ofA : a ∈ ranked key rows)
  have inB := List.idxOf_lt_length_iff.mpr (mem_ranked.mpr ofB : b ∈ ranked key rows)
  by_contra notBefore
  rcases (not_lt.mp notBefore).eq_or_lt with same | before
  · have is := (List.idxOf_inj (mem_ranked.mpr ofB : b ∈ ranked key rows)).mp same
    exact less.ne (congrArg key is.symm)
  · have le := List.pairwise_iff_getElem.mp (ranked_sorted key rows) _ _ inB inA before
    rw [List.getElem_idxOf, List.getElem_idxOf] at le
    exact absurd le (not_le_of_gt less)

/-- The row of the least key comes first. -/
theorem ranked_head {a : α} (mem : a ∈ rows) (least : ∀ b ∈ rows, b ≠ a → key a < key b) :
    ∃ rest, ranked key rows = a :: rest := by
  have sorted := ranked_sorted key rows
  have among : a ∈ ranked key rows := mem_ranked.mpr mem
  cases is : ranked key rows with
  | nil =>
    rw [is] at among
    cases among
  | cons first rest =>
    rw [is] at sorted among
    have ofFirst : first ∈ rows := mem_ranked.mp (is ▸ List.mem_cons_self)
    rcases List.mem_cons.mp among with rfl | later
    · exact ⟨rest, rfl⟩
    · have le := (List.pairwise_cons.mp sorted).1 a later
      by_cases same : first = a
      · exact ⟨rest, by rw [same]⟩
      · exact absurd le (not_le_of_gt (least first ofFirst same))

/-- A test that passes no more rows, and misses one the other passes, counts fewer. -/
theorem countP_lt {α : Type} {rows : List α} {p q : α → Bool} {row : α}
    (weaker : ∀ r, p r = true → q r = true) (held : row ∈ rows) (hit : q row = true)
    (missed : p row = false) : rows.countP p < rows.countP q := by
  induction rows with
  | nil => cases held
  | cons r rest ih =>
    rw [List.countP_cons, List.countP_cons]
    have below : rest.countP p ≤ rest.countP q := List.countP_mono_left fun r _ => weaker r
    rcases List.mem_cons.mp held with rfl | later
    · rw [if_pos hit, if_neg (by rw [missed]; decide)]
      omega
    · have shorter := ih later
      by_cases here : p r = true
      · rw [if_pos here, if_pos (weaker r here)]
        omega
      · rw [if_neg here]
        omega

end Blizzard.SortedRanks
