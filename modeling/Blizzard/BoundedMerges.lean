import Mathlib.Data.List.Sort
import Mathlib.Order.Basic

/-! # Merges of bounded reads

Two streams in strict key order, each read up to a limit, merge into the first
rows of the two together, up to the least last key of the reads that came back
full: past it a full read may hold more. -/
namespace Blizzard.BoundedMerges

variable {α κ : Type*} [LinearOrder κ] {key : α → κ} {rows left right : List α} {a b : α}
  {limit : ℕ}

/-- The last key of a read that came back full. -/
def fullBound (key : α → κ) (limit : ℕ) (read : List α) : Option κ :=
  if limit ≤ read.length then read.getLast?.map key else none

/-- The least of the bounds there are. -/
def leastBound : Option κ → Option κ → Option κ
  | none, bound => bound
  | bound, none => bound
  | some first, some second => some (min first second)

/-- The row is not past the bound. -/
def within (key : α → κ) (bound : Option κ) (row : α) : Bool :=
  bound.all fun last => decide (key row ≤ last)

/-- Two streams in key order, the first stream's row before the second's on a tie. -/
def merged (key : α → κ) (left right : List α) : List α :=
  left.merge right fun a b => decide (key a ≤ key b)

theorem merged_perm (key : α → κ) (left right : List α) :
    (merged key left right).Perm (left ++ right) :=
  List.merge_perm_append _

theorem merged_sorted (sortedLeft : left.Pairwise fun a b => key a ≤ key b)
    (sortedRight : right.Pairwise fun a b => key a ≤ key b) :
    (merged key left right).Pairwise fun a b => key a ≤ key b := by
  have merges : (merged key left right).Pairwise fun a b => decide (key a ≤ key b) = true :=
    List.pairwise_merge
    (fun a b c le le' => decide_eq_true ((of_decide_eq_true le).trans (of_decide_eq_true le')))
    (fun a b => by simpa using le_total (key a) (key b)) left right
    (sortedLeft.imp decide_eq_true) (sortedRight.imp decide_eq_true)
  exact merges.imp of_decide_eq_true

theorem within_leastBound {first second : Option κ} :
    within key (leastBound first second) a = (within key first a && within key second a) := by
  cases first with
  | none => rfl
  | some p =>
    cases second with
    | none => simp [leastBound, within]
    | some q => simp [leastBound, within]

/-- What a bound keeps of a list in key order is its first rows. -/
theorem takeWhile_within (sorted : rows.Pairwise fun a b => key a ≤ key b) (bound : Option κ) :
    rows.takeWhile (within key bound) = rows.filter (within key bound) := by
  induction rows with
  | nil => rfl
  | cons row rest ih =>
    obtain ⟨above, sortedRest⟩ := List.pairwise_cons.mp sorted
    rw [List.takeWhile_cons, List.filter_cons, ih sortedRest]
    split
    · rfl
    · rename_i past
      symm
      apply List.filter_eq_nil_iff.mpr
      intro other mem inside
      apply past
      cases bound with
      | none => rfl
      | some last =>
        have le : key other ≤ last := by simpa [within] using inside
        simpa [within] using (above other mem).trans le

/-- A read keeps all its stream holds up to its bound. -/
theorem read_within (some_ : 0 < limit) (sorted : left.Pairwise fun a b => key a < key b) (mem : a ∈ left)
    (inside : within key (fullBound key limit (left.take limit)) a = true) :
    a ∈ left.take limit := by
  by_cases full : limit ≤ (left.take limit).length
  · rw [fullBound, if_pos full] at inside
    cases last : (left.take limit).getLast? with
    | none =>
      have empty := List.getLast?_eq_none_iff.mp last
      rw [empty, List.length_nil] at full
      rcases List.take_eq_nil_iff.mp empty with zero | none_
      · omega
      · rw [none_] at mem
        cases mem
    | some row =>
      rw [last] at inside
      have le : key a ≤ key row := by simpa [within] using inside
      have split := List.take_append_drop limit left
      rw [← split] at mem sorted
      rcases List.mem_append.mp mem with front | back
      · exact front
      · have less := (List.pairwise_append.mp sorted).2.2 row (List.mem_of_getLast? last) a back
        exact absurd le (not_le_of_gt less)
  · rw [List.length_take, not_le] at full
    rwa [List.take_of_length_le (by omega)]

/-- The merge of two reads, up to the least bound of them. -/
def mergedReads (key : α → κ) (limit : ℕ) (left right : List α) : List α :=
  (merged key (left.take limit) (right.take limit)).takeWhile
    (within key (leastBound (fullBound key limit (left.take limit))
      (fullBound key limit (right.take limit))))

theorem key_inj (sorted : rows.Pairwise fun a b => key a < key b) (ofA : a ∈ rows) (ofB : b ∈ rows)
    (same : key a = key b) : a = b := by
  have keys : (rows.map key).Nodup := List.pairwise_map.mpr (sorted.imp fun less => ne_of_lt less)
  exact List.inj_on_of_nodup_map keys ofA ofB same

/-- The merged reads are the first rows of the two streams together. -/
theorem mergedReads_eq (some_ : 0 < limit) (sorted : rows.Pairwise fun a b => key a < key b)
    (sortedLeft : left.Pairwise fun a b => key a < key b)
    (sortedRight : right.Pairwise fun a b => key a < key b)
    (parts : (left ++ right).Perm rows) :
    mergedReads key limit left right = rows.takeWhile
      (within key (leastBound (fullBound key limit (left.take limit))
        (fullBound key limit (right.take limit)))) := by
  have order : (merged key (left.take limit) (right.take limit)).Pairwise
      fun a b => key a ≤ key b :=
    merged_sorted ((sortedLeft.sublist (List.take_sublist _ _)).imp le_of_lt)
      ((sortedRight.sublist (List.take_sublist _ _)).imp le_of_lt)
  have distinct : (left ++ right).Nodup :=
    parts.nodup_iff.mpr (sorted.imp fun less same => less.ne (congrArg key same))
  have distinctReads : (merged key (left.take limit) (right.take limit)).Nodup :=
    (merged_perm _ _ _).nodup_iff.mpr (distinct.sublist
      ((List.take_sublist limit left).append (List.take_sublist limit right)))
  rw [mergedReads, takeWhile_within order, takeWhile_within (sorted.imp le_of_lt)]
  have same : ((merged key (left.take limit) (right.take limit)).filter
      (within key (leastBound (fullBound key limit (left.take limit))
        (fullBound key limit (right.take limit))))).Perm
      (rows.filter (within key (leastBound (fullBound key limit (left.take limit))
        (fullBound key limit (right.take limit))))) := by
    apply (List.perm_ext_iff_of_nodup (distinctReads.filter _)
      ((parts.nodup_iff.mp distinct).filter _)).mpr
    intro a
    rw [List.mem_filter, List.mem_filter, (merged_perm _ _ _).mem_iff, ← parts.mem_iff,
      List.mem_append, List.mem_append]
    constructor
    · rintro ⟨ofLeft | ofRight, inside⟩
      · exact ⟨.inl (List.mem_of_mem_take ofLeft), inside⟩
      · exact ⟨.inr (List.mem_of_mem_take ofRight), inside⟩
    · rintro ⟨of, inside⟩
      refine ⟨?_, inside⟩
      rw [within_leastBound, Bool.and_eq_true] at inside
      rcases of with ofLeft | ofRight
      · exact .inl (read_within some_ sortedLeft ofLeft inside.1)
      · exact .inr (read_within some_ sortedRight ofRight inside.2)
  refine same.eq_of_pairwise ?_ (order.filter _) ((sorted.filter _).imp le_of_lt)
  intro a b ofA ofB le ge
  have inRows := (List.mem_filter.mp (same.mem_iff.mp ofA)).1
  have inRows' := (List.mem_filter.mp ofB).1
  exact key_inj sorted inRows inRows' (le_antisymm le ge)

/-- The first row is within the bound of every read of the rows. -/
theorem first_within {first : α} {read : List α} (least : ∀ row ∈ read, key first ≤ key row) :
    within key (fullBound key limit read) first = true := by
  rw [fullBound]
  split
  · cases last : read.getLast? with
    | none => rfl
    | some row => simpa [within] using least row (List.mem_of_getLast? last)
  · rfl

/-- Where a row is left, one is read. -/
theorem mergedReads_some (some_ : 0 < limit) (sorted : rows.Pairwise fun a b => key a < key b)
    (sortedLeft : left.Pairwise fun a b => key a < key b)
    (sortedRight : right.Pairwise fun a b => key a < key b)
    (parts : (left ++ right).Perm rows) (more : rows ≠ []) :
    mergedReads key limit left right ≠ [] := by
  rw [mergedReads_eq some_ sorted sortedLeft sortedRight parts]
  obtain ⟨first, rest, rfl⟩ := List.exists_cons_of_ne_nil more
  have least : ∀ row ∈ left ++ right, key first ≤ key row := by
    intro row mem
    rcases List.mem_cons.mp (parts.mem_iff.mp mem) with rfl | later
    · exact le_rfl
    · exact ((List.pairwise_cons.mp sorted).1 row later).le
  have inside : within key (leastBound (fullBound key limit (left.take limit))
      (fullBound key limit (right.take limit))) first = true := by
    rw [within_leastBound, Bool.and_eq_true]
    constructor
    · exact first_within fun row mem =>
        least row (List.mem_append_left _ (List.mem_of_mem_take mem))
    · exact first_within fun row mem =>
        least row (List.mem_append_right _ (List.mem_of_mem_take mem))
  rw [List.takeWhile_cons_of_pos inside]
  exact List.cons_ne_nil _ _

end Blizzard.BoundedMerges
