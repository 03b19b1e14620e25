import Mathlib
import Blizzard.BoundedLoops

/-! # Depths relaxed along forward edges

Every node starts at depth zero and an edge pushes its end at least one deeper
than its start, pass after pass, until a pass changes nothing. Where a rank rises
along every edge, the depths stay below it and the passes end. -/
namespace Blizzard.ForwardLayers
open BoundedLoops

variable {α : Type*}

section Passes
variable [DecidableEq α]

/-- Push an edge's end below its start; whether any push changed a depth. -/
def relaxEdge (s : (α → ℕ) × Bool) (edge : α × α) : (α → ℕ) × Bool :=
  if s.1 edge.1 + 1 > s.1 edge.2 then
    (Function.update s.1 edge.2 (s.1 edge.1 + 1), true)
  else s

/-- One pass over the nodes' forward edges. -/
def relaxPass (nodes : List α) (forward : α → List α) (depth : α → ℕ) : (α → ℕ) × Bool :=
  nodes.foldl (fun s node => (forward node).foldl (fun s next => relaxEdge s (node, next)) s)
    (depth, false)

/-- Another pass while the last one changed a depth. -/
def relax (nodes : List α) (forward : α → List α) (depth : α → ℕ) : Option (α → ℕ) :=
  match relaxPass nodes forward depth with
  | (depth, true) => some depth
  | (_, false) => none

/-- The depths no pass changes; none where `fuel` passes do not reach them. -/
def relaxed (fuel : ℕ) (nodes : List α) (forward : α → List α) : Option (α → ℕ) :=
  loop (relax nodes forward) fuel fun _ => 0

end Passes

/-- The edges of one pass, in its order. -/
def edgesOf (nodes : List α) (forward : α → List α) : List (α × α) :=
  nodes.flatMap fun node => (forward node).map fun next => (node, next)

variable {nodes : List α} {forward : α → List α} {edges : List (α × α)} {depth : α → ℕ}
  {s : (α → ℕ) × Bool} {rank : α → ℕ} {edge : α × α}

theorem mem_edgesOf {a b : α} : (a, b) ∈ edgesOf nodes forward ↔ a ∈ nodes ∧ b ∈ forward a := by
  simp [edgesOf]

/-- How far the nodes' depths are below their ranks. -/
def slack (nodes : List α) (rank depth : α → ℕ) : ℕ := (nodes.map fun a => rank a - depth a).sum

theorem slack_lt {depth' : α → ℕ} {a : α} (mem : a ∈ nodes) (grew : depth a < depth' a)
    (le : ∀ a, depth a ≤ depth' a) (bound : ∀ a, depth' a ≤ rank a) :
    slack nodes rank depth' < slack nodes rank depth := by
  apply List.sum_lt_sum
  · intro b _
    have less := le b
    omega
  · refine ⟨a, mem, ?_⟩
    have top := bound a
    omega

variable [DecidableEq α]

theorem relaxPass_eq (nodes : List α) (forward : α → List α) (depth : α → ℕ) :
    relaxPass nodes forward depth = (edgesOf nodes forward).foldl relaxEdge (depth, false) := by
  rw [relaxPass, edgesOf, List.foldl_flatMap]
  simp only [List.foldl_map]

/-! ## One edge -/

/-- A push deepens its edge's end to below the start, and nothing else. -/
theorem relaxEdge_depth (s : (α → ℕ) × Bool) (edge : α × α) (a : α) : (relaxEdge s edge).1 a =
    if a = edge.2 then max (s.1 a) (s.1 edge.1 + 1) else s.1 a := by
  rw [relaxEdge]
  split
  · rename_i deeper
    by_cases is : a = edge.2
    · subst is
      simp only [Function.update_self, if_true]
      omega
    · simp only [Function.update_of_ne is, if_neg is]
  · rename_i deep
    by_cases is : a = edge.2
    · subst is
      rw [if_pos rfl]
      omega
    · rw [if_neg is]

theorem relaxEdge_le (s : (α → ℕ) × Bool) (edge : α × α) (a : α) : s.1 a ≤ (relaxEdge s edge).1 a := by
  rw [relaxEdge_depth]
  split
  · exact le_max_left _ _
  · exact le_rfl

theorem relaxEdge_target (s : (α → ℕ) × Bool) {a : α} (other : a ≠ edge.2) :
    (relaxEdge s edge).1 a = s.1 a := by
  rw [relaxEdge_depth, if_neg other]

theorem relaxEdge_bound (rises : rank edge.1 < rank edge.2) (bound : ∀ a, s.1 a ≤ rank a) (a : α) :
    (relaxEdge s edge).1 a ≤ rank a := by
  rw [relaxEdge_depth]
  split
  · rename_i is
    subst is
    have le := bound edge.1
    exact max_le (bound _) (by omega)
  · exact bound a

theorem relaxEdge_changed (s : (α → ℕ) × Bool) (edge : α × α) :
    (relaxEdge s edge = s ∧ s.1 edge.1 < s.1 edge.2) ∨
      (relaxEdge s edge).2 = true ∧ s.1 edge.2 < (relaxEdge s edge).1 edge.2 := by
  by_cases deeper : s.1 edge.1 + 1 > s.1 edge.2
  · right
    rw [relaxEdge_depth, if_pos rfl, relaxEdge, if_pos deeper]
    exact ⟨rfl, by omega⟩
  · left
    rw [relaxEdge, if_neg deeper]
    exact ⟨rfl, by omega⟩

/-! ## One pass -/

theorem pass_le (edges : List (α × α)) (s : (α → ℕ) × Bool) (a : α) :
    s.1 a ≤ (edges.foldl relaxEdge s).1 a := by
  induction edges generalizing s with
  | nil => exact le_rfl
  | cons edge edges ih => exact (relaxEdge_le s edge a).trans (ih (relaxEdge s edge))

theorem pass_target {a : α} (other : ∀ edge ∈ edges, a ≠ edge.2) (s : (α → ℕ) × Bool) :
    (edges.foldl relaxEdge s).1 a = s.1 a := by
  induction edges generalizing s with
  | nil => rfl
  | cons edge edges ih =>
    have later := ih (fun e mem => other e (List.mem_cons_of_mem _ mem)) (relaxEdge s edge)
    exact later.trans (relaxEdge_target s (other edge List.mem_cons_self))

theorem pass_bound (rises : ∀ edge ∈ edges, rank edge.1 < rank edge.2) (s : (α → ℕ) × Bool)
    (bound : ∀ a, s.1 a ≤ rank a) (a : α) : (edges.foldl relaxEdge s).1 a ≤ rank a := by
  induction edges generalizing s with
  | nil => exact bound a
  | cons edge edges ih =>
    apply ih fun e mem => rises e (List.mem_cons_of_mem _ mem)
    exact relaxEdge_bound (rises edge List.mem_cons_self) bound

/-- A pass that changed nothing before changes a depth or finds every end deeper than its start. -/
theorem pass_changed (edges : List (α × α)) (depth : α → ℕ) :
    (edges.foldl relaxEdge (depth, false) = (depth, false) ∧
      ∀ edge ∈ edges, depth edge.1 < depth edge.2) ∨
    (edges.foldl relaxEdge (depth, false)).2 = true ∧
      ∃ edge ∈ edges, depth edge.2 < (edges.foldl relaxEdge (depth, false)).1 edge.2 := by
  induction edges with
  | nil =>
    left
    exact ⟨rfl, by simp⟩
  | cons edge edges ih =>
    rw [List.foldl_cons]
    rcases relaxEdge_changed (depth, false) edge with ⟨same, deeper⟩ | ⟨changed, deeper⟩
    · rw [same]
      rcases ih with ⟨still, all⟩ | ⟨now, e, mem, grew⟩
      · left
        refine ⟨still, ?_⟩
        intro e mem
        rcases List.mem_cons.mp mem with rfl | later
        · exact deeper
        · exact all e later
      · right
        exact ⟨now, e, List.mem_cons_of_mem _ mem, grew⟩
    · right
      have kept : ∀ (edges : List (α × α)) (s : (α → ℕ) × Bool), s.2 = true →
          (edges.foldl relaxEdge s).2 = true := by
        intro edges
        induction edges with
        | nil => exact fun s is => is
        | cons e edges ih =>
          intro s is
          apply ih
          rcases relaxEdge_changed s e with ⟨same, -⟩ | ⟨now, -⟩
          · rw [same]
            exact is
          · exact now
      exact ⟨kept edges _ changed, edge, List.mem_cons_self,
        deeper.trans_le (pass_le edges _ edge.2)⟩

/-! ## The loop -/

/-- What every pass keeps: no depth passes its rank, and what no edge ends at stays at the top. -/
structure Held (nodes : List α) (forward : α → List α) (rank depth : α → ℕ) : Prop where
  bound : ∀ a, depth a ≤ rank a
  top : ∀ a, (∀ b ∈ nodes, a ∉ forward b) → depth a = 0

/-- A pass that goes on changed a depth. -/
theorem relax_some {depth' : α → ℕ} (next : relax nodes forward depth = some depth') :
    depth' = ((edgesOf nodes forward).foldl relaxEdge (depth, false)).1 ∧
      ((edgesOf nodes forward).foldl relaxEdge (depth, false)).2 = true := by
  rw [relax, relaxPass_eq] at next
  split at next
  · rename_i now is
    rw [is]
    exact ⟨(Option.some.inj next).symm, rfl⟩
  · cases next

theorem relax_none (still : relax nodes forward depth = none) :
    ((edgesOf nodes forward).foldl relaxEdge (depth, false)).2 = false := by
  rw [relax, relaxPass_eq] at still
  split at still
  · cases still
  · rename_i now is
    rw [is]

theorem relax_held (rises : ∀ a ∈ nodes, ∀ b ∈ forward a, rank a < rank b)
    (held : Held nodes forward rank depth) {depth' : α → ℕ}
    (next : relax nodes forward depth = some depth') : Held nodes forward rank depth' := by
  obtain ⟨rfl, -⟩ := relax_some next
  constructor
  · apply pass_bound _ _ held.bound
    intro edge mem
    obtain ⟨of, follows⟩ := mem_edgesOf.mp mem
    exact rises edge.1 of edge.2 follows
  · intro a untouched
    rw [pass_target]
    · exact held.top a untouched
    · intro edge mem is
      obtain ⟨of, follows⟩ := mem_edgesOf.mp mem
      exact untouched edge.1 of (is ▸ follows)

theorem relax_falls (rises : ∀ a ∈ nodes, ∀ b ∈ forward a, rank a < rank b)
    (inNodes : ∀ a ∈ nodes, forward a ⊆ nodes) (held : Held nodes forward rank depth)
    {depth' : α → ℕ} (next : relax nodes forward depth = some depth') :
    slack nodes rank depth' < slack nodes rank depth := by
  have after := relax_held rises held next
  obtain ⟨rfl, changed⟩ := relax_some next
  rcases pass_changed (edgesOf nodes forward) depth with ⟨same, -⟩ | ⟨-, edge, mem, grew⟩
  · rw [same] at changed
    cases changed
  · obtain ⟨of, follows⟩ := mem_edgesOf.mp mem
    exact slack_lt (inNodes edge.1 of follows) grew
      (fun a => pass_le (edgesOf nodes forward) (depth, false) a) after.bound

/-- Where a rank rises along every forward edge the passes end, with every edge's end deeper than
its start and what no edge ends at left at the top. -/
theorem relaxed_layers (rises : ∀ a ∈ nodes, ∀ b ∈ forward a, rank a < rank b)
    (inNodes : ∀ a ∈ nodes, forward a ⊆ nodes) {fuel : ℕ}
    (enough : (nodes.map rank).sum < fuel) :
    ∃ depth, relaxed fuel nodes forward = some depth ∧
      (∀ a ∈ nodes, ∀ b ∈ forward a, depth a < depth b) ∧
      ∀ a, (∀ b ∈ nodes, a ∉ forward b) → depth a = 0 := by
  have start : Held nodes forward rank fun _ => 0 := ⟨fun _ => Nat.zero_le _, fun _ _ => rfl⟩
  have kept : ∀ s t, Held nodes forward rank s → relax nodes forward s = some t →
      Held nodes forward rank t := fun _ _ held next => relax_held rises held next
  have falls : ∀ s t, Held nodes forward rank s → relax nodes forward s = some t →
      slack nodes rank t < slack nodes rank s :=
    fun _ _ held next => relax_falls rises inNodes held next
  obtain ⟨depth, ends, held, still⟩ := loop_rule (slack nodes rank) kept falls start enough
  refine ⟨depth, ends, ?_, held.top⟩
  intro a of b next
  rcases pass_changed (edgesOf nodes forward) depth with ⟨-, all⟩ | ⟨changed, -⟩
  · exact all (a, b) (mem_edgesOf.mpr ⟨of, next⟩)
  · rw [relax_none still] at changed
    cases changed

end Blizzard.ForwardLayers
