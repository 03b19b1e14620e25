import Blizzard.KeysetPaging
import Blizzard.QueueWrites
import Blizzard.QueueCursors

/-! # Paging a list

A page holds the ranked chunks after its cursor, narrowed to one project when one
is named, each at its index in the whole order. Following the cursors reads the
narrowed order back. -/
namespace Blizzard.QueuePages
open HubTables SortedRanks KeysetPaging QueueRanking QueueWrites QueueCursors

/-- A paged row: the chunk and its place in the whole list. -/
structure QueueEntry where
  chunk : Chunk
  position : ℕ
  deriving DecidableEq, Repr

structure QueuePage where
  entries : List QueueEntry
  nextCursor : Option String
  deriving DecidableEq, Repr

inductive PageRefused
  | limit (limit : ℕ)
  | malformedCursor (cursor : String)
  deriving DecidableEq, Repr

/-- The ranked order's entries, narrowed to a project. -/
def narrowed (ranking : QueueRanking) (candidates : List Chunk) (project : Option String) :
    List QueueEntry :=
  ((ranking.ordered candidates).zipIdx.map fun keyed => ⟨keyed.1, keyed.2⟩).filter fun entry =>
    project.all fun id => decide (entry.chunk.projectId = id)

/-- The page after a key: one entry more than the limit tells whether it is the last. -/
def pageAfter (ranking : QueueRanking) (text : FloatText) (candidates : List Chunk)
    (after : Option (ℚ × String)) (limit : ℕ) (project : Option String) : QueuePage :=
  let entries := ((narrowed ranking candidates project).filter fun entry =>
    after.all fun last => !decide (ranking.key entry.chunk ≤ toLex last)).take (limit + 1)
  { entries := entries.take limit
    nextCursor :=
      if limit < entries.length then
        entries[limit - 1]?.map fun entry =>
          encodeCursor text (ranking.effectivePosition entry.chunk) entry.chunk.chunkId
      else none }

/-- A keyset page of the ordered candidates. -/
def page (ranking : QueueRanking) (text : FloatText) (candidates : List Chunk)
    (cursor : Option String) (limit : ℕ) (project : Option String) :
    Except PageRefused QueuePage :=
  if limit < 1 then .error (.limit limit)
  else
    match cursor with
    | none => .ok (pageAfter ranking text candidates none limit project)
    | some cursor =>
      match decodeCursor text cursor with
      | none => .error (.malformedCursor cursor)
      | some after => .ok (pageAfter ranking text candidates (some after) limit project)

/-- The pages a reader gets from a cursor on, handing each page's cursor back. -/
def pagesFrom (ranking : QueueRanking) (text : FloatText) (candidates : List Chunk) (limit : ℕ)
    (project : Option String) : ℕ → Option String → Option (List QueuePage)
  | 0, _ => none
  | fuel + 1, cursor =>
    match page ranking text candidates cursor limit project with
    | .error _ => none
    | .ok page =>
      match page.nextCursor with
      | none => some [page]
      | some next =>
        (pagesFrom ranking text candidates limit project fuel (some next)).map fun pages =>
          page :: pages

variable {ranking : QueueRanking} {text : FloatText} {candidates : List Chunk} {limit : ℕ}
  {project : Option String}

def entryKey (ranking : QueueRanking) (entry : QueueEntry) : ℚ ×ₗ String :=
  ranking.key entry.chunk

/-- The cursor that carries a key. -/
def cursorOf (text : FloatText) (key : ℚ ×ₗ String) : String :=
  encodeCursor text (ofLex key).1 (ofLex key).2

/-- The narrowed entries stand in strict key order. -/
theorem narrowed_sorted (nodup : (candidates.map (·.chunkId)).Nodup) :
    (narrowed ranking candidates project).Pairwise fun a b =>
      entryKey ranking a < entryKey ranking b := by
  have ids : ((ranking.ordered candidates).map (·.chunkId)).Nodup :=
    ((ranked_perm ranking.key candidates).map (·.chunkId)).nodup_iff.mpr nodup
  have strict : (ranking.ordered candidates).Pairwise fun a b => ranking.key a < ranking.key b := by
    refine ((ranked_sorted ranking.key candidates).and
      (List.pairwise_map.mp ids)).imp ?_
    rintro a b ⟨le, apart⟩
    exact lt_of_le_of_ne le fun same => apart (chunkId_of_key_eq same)
  refine List.Pairwise.filter _ ?_
  rw [List.pairwise_map]
  have firsts : ((ranking.ordered candidates).zipIdx.map Prod.fst).Pairwise fun a b =>
      ranking.key a < ranking.key b := by
    rw [List.zipIdx_map_fst]
    exact strict
  have entries := List.pairwise_map.mp firsts
  exact entries

/-- A page is a keyset page of the narrowed entries, its cursor the next key's. -/
theorem pageAfter_eq (least : 1 ≤ limit) (after : Option (ℚ ×ₗ String)) :
    pageAfter ranking text candidates (after.map ofLex) limit project =
      { entries := (KeysetPaging.page (entryKey ranking) (narrowed ranking candidates project) limit
          after).items
        nextCursor := (KeysetPaging.page (entryKey ranking)
          (narrowed ranking candidates project) limit after).next.map (cursorOf text) } := by
  have kept : ((narrowed ranking candidates project).filter fun entry =>
      (after.map ofLex).all fun last => !decide (ranking.key entry.chunk ≤ toLex last)) =
      rowsAfter (entryKey ranking) (narrowed ranking candidates project) after := by
    apply List.filter_congr
    intro entry _
    cases after with
    | none => rfl
    | some last =>
      show (!decide (ranking.key entry.chunk ≤ last)) = decide (last < ranking.key entry.chunk)
      rw [← decide_not]
      simp only [not_le]
  simp only [pageAfter, kept, KeysetPaging.page]
  generalize rowsAfter (entryKey ranking) (narrowed ranking candidates project) after = rows
  have first : (rows.take (limit + 1)).take limit = rows.take limit := by
    rw [List.take_take, Nat.min_eq_left (Nat.le_succ limit)]
  rw [first]
  congr 1
  by_cases more : limit < rows.length
  · have longer : limit < (rows.take (limit + 1)).length := by
      rw [List.length_take]
      omega
    rw [if_pos more, if_pos longer, List.getLast?_eq_getElem?, List.length_take,
      List.getElem?_take_of_lt (by omega), List.getElem?_take_of_lt (by omega),
      Nat.min_eq_left more.le, Option.map_map]
    rfl
  · have shorter : ¬ limit < (rows.take (limit + 1)).length := by
      rw [List.length_take]
      omega
    rw [if_neg more, if_neg shorter]
    rfl

/-- A cursor a page carries is a candidate's key. -/
theorem next_known {after : Option (ℚ ×ₗ String)} {key : ℚ ×ₗ String}
    (next : (KeysetPaging.page (entryKey ranking) (narrowed ranking candidates project) limit
      after).next = some key) : ∃ chunk ∈ candidates, ranking.key chunk = key := by
  simp only [KeysetPaging.page] at next
  split at next
  · obtain ⟨entry, last, rfl⟩ := Option.map_eq_some_iff.mp next
    have kept := List.mem_of_mem_take (List.mem_of_getLast? last)
    have entries := (List.mem_filter.mp (List.mem_filter.mp kept).1).1
    obtain ⟨⟨chunk, index⟩, keyed, rfl⟩ := List.mem_map.mp entries
    exact ⟨chunk, mem_ranked.mp (List.fst_mem_of_mem_zipIdx keyed), rfl⟩
  · cases next

/-- The page at a cursor a page carried is the page after the key it holds. -/
theorem page_cursorOf (least : 1 ≤ limit)
    (reads : ∀ chunk ∈ candidates, text.Reads (ranking.effectivePosition chunk))
    {after : Option (ℚ ×ₗ String)}
    (known : ∀ key, after = some key → ∃ chunk ∈ candidates, ranking.key chunk = key) :
    page ranking text candidates (after.map (cursorOf text)) limit project =
      .ok (pageAfter ranking text candidates (after.map ofLex) limit project) := by
  have allowed : ¬ limit < 1 := by omega
  cases after with
  | none => simp only [Option.map_none, page, if_neg allowed]
  | some key =>
    obtain ⟨chunk, mem, rfl⟩ := known key rfl
    have back : decodeCursor text (cursorOf text (ranking.key chunk)) =
        some (ofLex (ranking.key chunk)) :=
      decodeCursor_encodeCursor (reads chunk mem) chunk.chunkId
    simp only [Option.map_some, page, if_neg allowed, back]

/-- Following the cursors is following the keys they carry. -/
theorem pagesFrom_eq (project : Option String) (least : 1 ≤ limit)
    (reads : ∀ chunk ∈ candidates, text.Reads (ranking.effectivePosition chunk)) (fuel : ℕ)
    (after : Option (ℚ ×ₗ String))
    (known : ∀ key, after = some key → ∃ chunk ∈ candidates, ranking.key chunk = key) :
    pagesFrom ranking text candidates limit project fuel (after.map (cursorOf text)) =
      (follow (KeysetPaging.page (entryKey ranking) (narrowed ranking candidates project) limit)
        fuel after).map fun pages => pages.map fun page =>
          ⟨page.items, page.next.map (cursorOf text)⟩ := by
  induction fuel generalizing after with
  | zero => rfl
  | succ fuel ih =>
    rw [pagesFrom, page_cursorOf least reads known, pageAfter_eq least, follow]
    cases next : (KeysetPaging.page (entryKey ranking) (narrowed ranking candidates project) limit
      after).next with
    | none => simp [next]
    | some key =>
      have later := ih (some key) fun other same => by
        obtain rfl := Option.some.inj same
        exact next_known next
      rw [Option.map_some] at later
      simp only [next, Option.map_some, later, Option.map_map]
      congr 1
      funext pages
      simp [next]

/-- Following the cursors ends, and reads back the filtered order: each chunk once, in order, at its
index in the whole order; only the last page carries none. -/
theorem pages_read_back (ranking : QueueRanking) (text : FloatText) (candidates : List Chunk)
    (nodup : (candidates.map (·.chunkId)).Nodup)
    (reads : ∀ chunk ∈ candidates, text.Reads (ranking.effectivePosition chunk)) (limit : ℕ)
    (least : 1 ≤ limit) (project : Option String) :
    ∃ pages, pagesFrom ranking text candidates limit project (candidates.length + 1) none =
        some pages ∧
      pages.flatMap (·.entries) =
        ((ranking.ordered candidates).zipIdx.filter fun keyed =>
          project.all fun id => decide (keyed.1.projectId = id)).map
            (fun keyed => ⟨keyed.1, keyed.2⟩) ∧
      pages.map (·.nextCursor.isSome) = List.replicate (pages.length - 1) true ++ [false] := by
  obtain ⟨n, rfl⟩ : ∃ n, limit = n + 1 := ⟨limit - 1, by omega⟩
  have sorted : (narrowed ranking candidates project).Pairwise fun a b =>
      entryKey ranking a < entryKey ranking b := narrowed_sorted nodup
  have all : rowsAfter (entryKey ranking) (narrowed ranking candidates project) none =
      narrowed ranking candidates project := List.filter_eq_self.mpr fun _ _ => rfl
  have few : (rowsAfter (entryKey ranking) (narrowed ranking candidates project) none).length <
      candidates.length + 1 := by
    have le : (narrowed ranking candidates project).length ≤
        ((ranking.ordered candidates).zipIdx.map fun keyed =>
          (⟨keyed.1, keyed.2⟩ : QueueEntry)).length := List.length_filter_le _ _
    have whole : (ranking.ordered candidates).length = candidates.length :=
      (ranked_perm ranking.key candidates).length_eq
    rw [List.length_map, List.length_zipIdx] at le
    rw [all]
    omega
  obtain ⟨pages, followed, items, flags⟩ := follow_page sorted n few
  have same := pagesFrom_eq project least reads (candidates.length + 1) none (by simp)
  rw [followed] at same
  refine ⟨_, same, ?_, ?_⟩
  · rw [List.flatMap_map]
    rw [all] at items
    show pages.flatMap (·.items) = _
    rw [items, narrowed, List.filter_map]
    rfl
  · rw [List.map_map, List.length_map, ← flags]
    apply List.map_congr_left
    intro page _
    simp

/-- The texts of the two floats `0.0` and `1.0`. -/
def shortText : FloatText where
  repr x := if x = 0 then ['0', '.', '0'] else ['1', '.', '0']
  parse token :=
    if token = ['0', '.', '0'] then some 0 else if token = ['1', '.', '0'] then some 1 else none

theorem shortText_reads {x : ℚ} (short : x = 0 ∨ x = 1) : shortText.Reads x := by
  rcases short with rfl | rfl
  · exact ⟨List.all_eq_true.mp (by decide), by decide⟩
  · exact ⟨List.all_eq_true.mp (by decide), by decide⟩

/-- Three chunks, two of them tied, of which one project keeps two. -/
def tiedQueue : List Chunk := [⟨"c", "p", 0⟩, ⟨"b", "q", 0⟩, ⟨"a", "p", 0⟩]

/-- The tied queue, narrowed to a project and paged one by one, is read back. -/
theorem tied_queue_pages :
    ∃ pages, pagesFrom ⟨fun id => if id = "c" then some 0 else some 1, fun _ => none⟩ shortText
        tiedQueue 1 (some "p") 4 none = some pages ∧
      pages.flatMap (·.entries) =
        ((QueueRanking.ordered ⟨fun id => if id = "c" then some 0 else some 1, fun _ => none⟩
          tiedQueue).zipIdx.filter fun keyed =>
            (some "p").all fun id => decide (keyed.1.projectId = id)).map
              (fun keyed => ⟨keyed.1, keyed.2⟩) ∧
      pages.map (·.nextCursor.isSome) = List.replicate (pages.length - 1) true ++ [false] := by
  refine pages_read_back _ shortText tiedQueue (by decide) ?_ 1 (by decide) (some "p")
  intro chunk _
  apply shortText_reads
  by_cases front : chunk.chunkId = "c"
  · left
    simp [QueueRanking.effectivePosition, front]
  · right
    simp [QueueRanking.effectivePosition, front]

end Blizzard.QueuePages
