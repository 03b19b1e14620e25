import Mathlib.Data.List.Sort
import Mathlib.Order.Basic

/-! # Keyset paging

A page of a list in strict key order holds the first rows whose key comes after the cursor, and
carries its last row's key while a row is left. Following the cursors from none reads the list
back, whatever the rows are. -/
namespace Blizzard.KeysetPaging

variable {α κ : Type*} [LinearOrder κ] {key : α → κ} {rows : List α}

structure Page (α κ : Type*) where
  items : List α
  next : Option κ
  deriving DecidableEq, Repr

/-- The rows whose key comes after the cursor. -/
def rowsAfter (key : α → κ) (rows : List α) (cursor : Option κ) : List α :=
  rows.filter fun row => cursor.all fun last => decide (last < key row)

/-- One page: at most `limit` rows, and a cursor where more are left. -/
def page (key : α → κ) (rows : List α) (limit : ℕ) (cursor : Option κ) : Page α κ :=
  let after := rowsAfter key rows cursor
  { items := after.take limit
    next := if limit < after.length then (after.take limit).getLast?.map key else none }

/-- The pages a reader gets by handing each page's cursor back; `none` once `fuel` is spent. -/
def follow (fetch : Option κ → Page α κ) : ℕ → Option κ → Option (List (Page α κ))
  | 0, _ => none
  | fuel + 1, cursor =>
    match (fetch cursor).next with
    | none => some [fetch cursor]
    | some last => (follow fetch fuel (some last)).map fun pages => fetch cursor :: pages

/-- After the last row of a page come the rows it left. -/
theorem rowsAfter_next {limit : ℕ} {cursor : Option κ} {last : α}
    (sorted : rows.Pairwise fun a b => key a < key b)
    (h : ((rowsAfter key rows cursor).take limit).getLast? = some last) :
    rowsAfter key rows (some (key last)) = (rowsAfter key rows cursor).drop limit := by
  have hsorted : (rowsAfter key rows cursor).Pairwise fun a b => key a < key b := sorted.filter _
  obtain ⟨front, hfront⟩ := List.getLast?_eq_some_iff.mp h
  have hsplit : rowsAfter key rows cursor
      = front ++ last :: (rowsAfter key rows cursor).drop limit := by
    have hwhole := (List.take_append_drop limit (rowsAfter key rows cursor)).symm
    rw [hfront, List.append_assoc] at hwhole
    exact hwhole
  have hlast : last ∈ rowsAfter key rows cursor := by
    rw [hsplit]
    simp
  have hcursor : ∀ k ∈ cursor, k < key last := by
    intro k hk
    have hpass := (List.mem_filter.mp hlast).2
    cases hk
    simpa using hpass
  have hagain : rowsAfter key rows (some (key last))
      = (rowsAfter key rows cursor).filter fun row => decide (key last < key row) := by
    simp only [rowsAfter, List.filter_filter, Option.all_some]
    apply List.filter_congr
    intro row _
    cases hc : cursor with
    | none => simp
    | some k =>
      have hk := hcursor k hc
      by_cases hrow : key last < key row
      · simp [hrow, hk.trans hrow]
      · simp [hrow]
  rw [hagain]
  rw [hsplit] at hsorted
  rw [List.pairwise_append, List.pairwise_cons] at hsorted
  obtain ⟨-, ⟨hback, -⟩, hcross⟩ := hsorted
  have hfrontOut : front.filter (fun row => decide (key last < key row)) = [] := by
    apply List.filter_eq_nil_iff.mpr
    intro row hrow
    have hlt := hcross row hrow last (by simp)
    simpa using hlt.le
  have hbackIn : ((rowsAfter key rows cursor).drop limit).filter
      (fun row => decide (key last < key row)) = (rowsAfter key rows cursor).drop limit := by
    apply List.filter_eq_self.mpr
    intro row hrow
    simpa using hback row hrow
  conv_lhs => rw [hsplit]
  rw [List.filter_append, List.filter_cons_of_neg (by simp), hfrontOut, hbackIn, List.nil_append]

/-- Following the cursors reads back the rows after a cursor, and only the last page has none. -/
theorem follow_page (sorted : rows.Pairwise fun a b => key a < key b) (n : ℕ) {fuel : ℕ}
    {cursor : Option κ} (enough : (rowsAfter key rows cursor).length < fuel) :
    ∃ pages, follow (page key rows (n + 1)) fuel cursor = some pages ∧
      pages.flatMap (·.items) = rowsAfter key rows cursor ∧
      pages.map (·.next.isSome) = List.replicate (pages.length - 1) true ++ [false] := by
  induction fuel generalizing cursor with
  | zero => omega
  | succ fuel ih =>
    by_cases hmore : n + 1 < (rowsAfter key rows cursor).length
    · have hne : (rowsAfter key rows cursor).take (n + 1) ≠ [] := by
        intro hnil
        have hlen := congrArg List.length hnil
        simp only [List.length_take, List.length_nil] at hlen
        omega
      have hlast := List.getLast?_eq_some_getLast hne
      have hnext : (page key rows (n + 1) cursor).next
          = some (key (((rowsAfter key rows cursor).take (n + 1)).getLast hne)) := by
        simp [page, hmore, hlast]
      have hrest := rowsAfter_next sorted hlast
      have hfewer : (rowsAfter key rows (some (key
          (((rowsAfter key rows cursor).take (n + 1)).getLast hne)))).length < fuel := by
        rw [hrest, List.length_drop]
        omega
      obtain ⟨pages, hpages, hitems, hflags⟩ := ih hfewer
      refine ⟨page key rows (n + 1) cursor :: pages, ?_, ?_, ?_⟩
      · simp [follow, hnext, hpages]
      · rw [List.flatMap_cons, hitems, hrest]
        exact List.take_append_drop ..
      · have hpos : 0 < pages.length := by
          have hlen := congrArg List.length hflags
          simp only [List.length_map, List.length_append, List.length_replicate,
            List.length_singleton] at hlen
          omega
        have hsucc : pages.length = pages.length - 1 + 1 := by omega
        simp only [List.map_cons, hnext, hflags, List.length_cons, Nat.add_sub_cancel,
          Option.isSome_some]
        conv_rhs => rw [hsucc, List.replicate_succ]
        rfl
    · have hnext : (page key rows (n + 1) cursor).next = none := by simp [page, hmore]
      refine ⟨[page key rows (n + 1) cursor], by simp [follow, hnext], ?_, by simp [hnext]⟩
      rw [List.flatMap_singleton]
      exact List.take_of_length_le (by omega)

/-! ## Batches of a reader's own size -/

/-- Where the batches together tell no row twice, a row they tell stands in one of them. -/
theorem batch_once [DecidableEq α] {batches : List (List α)} {row : α}
    (distinct : batches.flatten.Nodup) (mem : row ∈ batches.flatten) :
    (batches.filter fun batch => decide (row ∈ batch)).length = 1 := by
  induction batches with
  | nil => cases mem
  | cons batch rest ih =>
    rw [List.flatten_cons] at distinct mem
    obtain ⟨-, later, apart⟩ := List.nodup_append.mp distinct
    by_cases here : row ∈ batch
    · have none_ : (rest.filter fun batch => decide (row ∈ batch)) = [] := by
        apply List.filter_eq_nil_iff.mpr
        intro other ofRest again
        have twice := List.mem_flatten_of_mem ofRest (of_decide_eq_true again)
        exact apart row here row twice rfl
      rw [List.filter_cons_of_pos (by simpa using here), none_, List.length_singleton]
    · have ofRest := (List.mem_append.mp mem).resolve_left here
      rw [List.filter_cons_of_neg (by simpa using here)]
      exact ih later ofRest

/-- The batches a reader takes, each past its last row's key, until one is empty; none once `fuel`
is spent. -/
def readBatches (key : α → κ) (fetch : κ → List α) : ℕ → κ → Option (List (List α))
  | 0, _ => none
  | fuel + 1, cursor =>
    match (fetch cursor).getLast? with
    | none => some []
    | some last => (readBatches key fetch fuel (key last)).map fun batches => fetch cursor :: batches

/-- A reader that always takes some first rows after its cursor reads all of them. -/
theorem readBatches_reads (sorted : rows.Pairwise fun a b => key a < key b) {fetch : κ → List α}
    (fetches : ∀ cursor, ∃ n, fetch cursor = (rowsAfter key rows (some cursor)).take n ∧
      (rowsAfter key rows (some cursor) ≠ [] → 0 < n)) {fuel : ℕ} {cursor : κ}
    (enough : (rowsAfter key rows (some cursor)).length < fuel) :
    ∃ batches, readBatches key fetch fuel cursor = some batches ∧
      batches.flatten = rowsAfter key rows (some cursor) ∧ ∀ batch ∈ batches, batch ≠ [] := by
  induction fuel generalizing cursor with
  | zero => omega
  | succ fuel ih =>
    obtain ⟨n, taken, some_⟩ := fetches cursor
    rw [readBatches]
    cases last : (fetch cursor).getLast? with
    | none =>
      have empty : (rowsAfter key rows (some cursor)).take n = [] :=
        taken ▸ List.getLast?_eq_none_iff.mp last
      refine ⟨[], rfl, ?_, by simp⟩
      rcases List.take_eq_nil_iff.mp empty with zero | done
      · by_contra left
        have pos := some_ fun nil => left nil.symm
        omega
      · exact done.symm
    | some row =>
      rw [taken] at last
      have rest := rowsAfter_next sorted last
      have nonempty : (rowsAfter key rows (some cursor)).take n ≠ [] := by
        intro nil
        rw [nil] at last
        cases last
      have fewer : (rowsAfter key rows (some (key row))).length < fuel := by
        rw [rest, List.length_drop]
        have pos := List.length_pos_iff.mpr nonempty
        rw [List.length_take] at pos
        omega
      obtain ⟨batches, drained, flat, full⟩ := ih fewer
      refine ⟨fetch cursor :: batches, by simp only [drained, Option.map_some], ?_, ?_⟩
      · rw [List.flatten_cons, flat, taken, rest]
        exact List.take_append_drop ..
      · intro batch mem
        rcases List.mem_cons.mp mem with rfl | later
        · rwa [taken]
        · exact full batch later

/-- A reader that takes one row at a time, each past its cursor, takes them in strict key order. -/
theorem readBatches_increases {fetch : κ → List α} (past : ∀ cursor, ∀ row ∈ fetch cursor, cursor < key row)
    (single : ∀ cursor, (fetch cursor).length ≤ 1) {fuel : ℕ} {cursor : κ} {batches : List (List α)}
    (drained : readBatches key fetch fuel cursor = some batches) :
    (batches.flatten.Pairwise fun a b => key a < key b) ∧
      ∀ row ∈ batches.flatten, cursor < key row := by
  induction fuel generalizing cursor batches with
  | zero => cases drained
  | succ fuel ih =>
    rw [readBatches] at drained
    cases last : (fetch cursor).getLast? with
    | none =>
      rw [last] at drained
      obtain rfl := Option.some.inj drained
      simp
    | some row =>
      simp only [last, Option.map_eq_some_iff] at drained
      obtain ⟨rest, restDrained, rfl⟩ := drained
      obtain ⟨sorted, above⟩ := ih restDrained
      have alone : fetch cursor = [row] := by
        obtain ⟨front, is⟩ := List.getLast?_eq_some_iff.mp last
        have length := single cursor
        rw [is, List.length_append, List.length_singleton] at length
        have none_ : front = [] := List.length_eq_zero_iff.mp (by omega)
        rw [is, none_]
        rfl
      have first : cursor < key row := past cursor row (alone ▸ List.mem_singleton_self _)
      rw [List.flatten_cons, alone, List.singleton_append]
      refine ⟨List.pairwise_cons.mpr ⟨above, sorted⟩, ?_⟩
      intro other mem
      rcases List.mem_cons.mp mem with rfl | later
      · exact first
      · exact first.trans (above other later)

end Blizzard.KeysetPaging
