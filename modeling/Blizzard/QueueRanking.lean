import Mathlib.Data.Prod.Lex
import Mathlib.Data.String.Basic
import Blizzard.HubTables
import Blizzard.SortedRanks
import Blizzard.FloatSlots

/-! # One list's ranking

A chunk ranks by its newest explicit position, else its promotion instant, else
its mint, ties by its id. Positions are exact, and a landing is a slot of the
ranked list with the list renumbered where the gap is spent. -/
namespace Blizzard.QueueRanking
open HubTables SortedRanks FloatSlots

structure Chunk where
  chunkId : ChunkId
  projectId : String
  mintedAt : Instant
  deriving DecidableEq, Repr

/-- One list's candidates' newest explicit positions and promotion instants. -/
structure QueueRanking where
  positions : ChunkId → Option ℚ
  promotedAts : ChunkId → Option Instant

/-- An instant as a unix timestamp. -/
def timestamp (at_ : Instant) : ℚ := at_ / 1000000

/-- Where a chunk lands, and the whole-number positions to write to the list's members first. -/
structure Landing where
  position : ℚ
  renormalized : List (ChunkId × ℚ) := []
  deriving DecidableEq, Repr

namespace QueueRanking
variable (ranking : QueueRanking)

def effectivePosition (chunk : Chunk) : ℚ :=
  match ranking.positions chunk.chunkId with
  | some explicit => explicit
  | none =>
    match ranking.promotedAts chunk.chunkId with
    | some promotedAt => timestamp promotedAt
    | none => timestamp chunk.mintedAt

def key (chunk : Chunk) : ℚ ×ₗ String :=
  toLex (ranking.effectivePosition chunk, chunk.chunkId)

/-- The candidates ascending by effective position, the id breaking a tie. -/
def ordered (candidates : List Chunk) : List Chunk := ranked ranking.key candidates

/-- One past every candidate's effective position; zero for none. -/
def tail (candidates : List Chunk) : ℚ :=
  ((candidates.map ranking.effectivePosition).max?).getD (-1) + 1

def indexOf (ordered : List Chunk) (after : Option Chunk) : Option ℕ :=
  after.map fun anchor => ordered.findIdx fun chunk => decide (chunk.chunkId = anchor.chunkId)

/-- The landing right after `after` in `ordered`, the list without the moving chunk. -/
def landAfter (spent : ℚ → ℚ → Bool) (ordered : List Chunk) (after : Option Chunk) :
    Option Landing :=
  (FloatSlots.landAfter spent (ordered.map ranking.effectivePosition) (indexOf ordered after) 0).map
    fun slot => ⟨slot.position, (ordered.map (·.chunkId)).zip slot.renumbered⟩

end QueueRanking

/-- The newest of the positions written for a chunk. -/
def newestPosition (written : List (ChunkId × ℚ)) (chunkId : ChunkId) : Option ℚ :=
  (written.filter fun pair => decide (pair.1 = chunkId)).getLast?.map Prod.snd

variable {ranking after : QueueRanking} {members others : List Chunk} {moving a b : Chunk}
  {slot : Slot} {index : Option ℕ} {written : List (ChunkId × ℚ)} {chunkId : ChunkId}

theorem key_le_iff : ranking.key a ≤ ranking.key b ↔
    ranking.effectivePosition a < ranking.effectivePosition b ∨
      ranking.effectivePosition a = ranking.effectivePosition b ∧ a.chunkId ≤ b.chunkId :=
  Prod.Lex.toLex_le_toLex

theorem key_le_of_lt (less : ranking.effectivePosition a < ranking.effectivePosition b) :
    ranking.key a ≤ ranking.key b :=
  key_le_iff.mpr (.inl less)

theorem chunkId_of_key_eq (same : ranking.key a = ranking.key b) : a.chunkId = b.chunkId :=
  congrArg Prod.snd (toLex.injective same)

theorem position_le_of_key_le (le : ranking.key a ≤ ranking.key b) :
    ranking.effectivePosition a ≤ ranking.effectivePosition b := by
  rcases key_le_iff.mp le with less | ⟨same, -⟩
  · exact less.le
  · exact same.le

/-- Members of distinct ids have one order. -/
theorem ordered_eq {order : List Chunk} (nodup : (members.map (·.chunkId)).Nodup)
    (perm : order.Perm members)
    (sorted : order.Pairwise fun a b => ranking.key a ≤ ranking.key b) :
    ranking.ordered members = order := by
  refine ranked_eq perm ?_ sorted
  intro a ofA b ofB same
  exact List.inj_on_of_nodup_map nodup ofA ofB (chunkId_of_key_eq same)

/-- A slot's positions keep the list's members in line. -/
theorem sorted_standing (sorted : others.Pairwise fun a b => ranking.key a ≤ ranking.key b)
    (lands : slot.Lands (others.map ranking.effectivePosition) index)
    (standing : others.map after.effectivePosition =
      slot.standing (others.map ranking.effectivePosition)) :
    others.Pairwise fun a b => after.key a ≤ after.key b := by
  rcases lands.renumbered with unwritten | ⟨length, strict⟩
  · rw [Slot.standing, if_pos unwritten, List.map_inj_left] at standing
    refine sorted.imp_of_mem ?_
    intro a b ofA ofB le
    rw [key_le_iff] at le ⊢
    rw [standing a ofA, standing b ofB]
    exact le
  · cases others with
    | nil => exact List.Pairwise.nil
    | cons first rest =>
      have some_ : slot.renumbered ≠ [] := by
        intro empty
        simp [empty] at length
      rw [Slot.standing, if_neg some_] at standing
      rw [← standing, List.pairwise_map] at strict
      exact strict.imp key_le_of_lt

/-- Once a landing is written, the moving chunk stands at its place and the others in their order. -/
theorem ordered_landed (sorted : others.Pairwise fun a b => ranking.key a ≤ ranking.key b)
    (lands : slot.Lands (others.map ranking.effectivePosition) index)
    (standing : others.map after.effectivePosition =
      slot.standing (others.map ranking.effectivePosition))
    (at_ : after.effectivePosition moving = slot.position)
    (perm : (moving :: others).Perm members) (nodup : (members.map (·.chunkId)).Nodup) :
    after.ordered members = others.take (place index) ++ moving :: others.drop (place index) := by
  apply ordered_eq nodup
  · refine List.perm_middle.trans ?_
    rw [List.take_append_drop]
    exact perm
  · apply sorted_between
    · rw [List.take_append_drop]
      exact sorted_standing sorted lands standing
    · intro a mem
      apply key_le_of_lt
      rw [at_]
      apply lands.below
      rw [← standing, ← List.map_take]
      exact List.mem_map_of_mem mem
    · intro b mem
      apply key_le_of_lt
      rw [at_]
      apply lands.above
      rw [← standing, ← List.map_drop]
      exact List.mem_map_of_mem mem

theorem newestPosition_append (written more : List (ChunkId × ℚ)) (chunkId : ChunkId) :
    newestPosition (written ++ more) chunkId =
      (newestPosition more chunkId).or (newestPosition written chunkId) := by
  rw [newestPosition, List.filter_append, List.getLast?_append]
  simp only [newestPosition]
  cases (more.filter fun pair => decide (pair.1 = chunkId)).getLast? <;> rfl

theorem newestPosition_of_absent (absent : chunkId ∉ written.map Prod.fst) :
    newestPosition written chunkId = none := by
  have none_ : (written.filter fun pair => decide (pair.1 = chunkId)) = [] := by
    apply List.filter_eq_nil_iff.mpr
    intro pair mem is
    exact absent (List.mem_map.mpr ⟨pair, mem, of_decide_eq_true is⟩)
  rw [newestPosition, none_]
  rfl

/-- Each of distinct members reads back the position written beside it. -/
theorem newestPosition_zip {ids : List ChunkId} {whole : List ℚ} (nodup : ids.Nodup)
    (length : whole.length = ids.length) :
    ids.map (newestPosition (ids.zip whole)) = whole.map some := by
  induction ids generalizing whole with
  | nil => rw [List.length_eq_zero_iff.mp length]; rfl
  | cons id ids ih =>
    obtain ⟨fresh, nodup⟩ := List.nodup_cons.mp nodup
    obtain ⟨position, whole, rfl⟩ : ∃ p w, whole = p :: w := by
      cases whole with
      | nil => simp at length
      | cons p w => exact ⟨p, w, rfl⟩
    have length : whole.length = ids.length := by simpa using length
    have rest : newestPosition (ids.zip whole) id = none := by
      apply newestPosition_of_absent
      rw [List.map_fst_zip (by omega)]
      exact fresh
    have split : ∀ other, newestPosition ((id, position) :: ids.zip whole) other =
        (newestPosition (ids.zip whole) other).or (newestPosition [(id, position)] other) :=
      fun other => newestPosition_append [(id, position)] (ids.zip whole) other
    rw [List.zip_cons_cons, List.map_cons, List.map_cons, split, rest]
    congr 1
    · simp [newestPosition]
    · rw [← ih nodup length]
      apply List.map_congr_left
      intro other mem
      have apart : id ≠ other := fun same => fresh (same ▸ mem)
      have none_ : newestPosition [(id, position)] other = none := by
        simp [newestPosition, apart]
      rw [split, none_, Option.or_none]

end Blizzard.QueueRanking
