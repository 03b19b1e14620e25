import Mathlib.Data.List.Nodup
import Mathlib.Data.List.Perm.Basic
import Mathlib.Logic.Relation

/-! # Depth-first walks and their forward edges

A walk enters each node once, in discovery order, and records at its finish the
edges that do not close back onto the walk's path. A recorded edge ends at a node
that finished before, and every other edge closes a cycle of recorded ones. -/
namespace Blizzard.ForwardWalks
open Relation

variable {α : Type*}

/-- A walk so far: the nodes seen, in discovery order, those on its path, deepest first, and the
forward edges of the finished ones, last finished first. -/
structure Walk (α : Type*) where
  discovery : List α := []
  onPath : List α := []
  forward : List (α × List α) := []
  deriving DecidableEq, Repr

def Walk.finished (w : Walk α) : List α := w.forward.map Prod.fst

section Walks
variable [DecidableEq α]

/-- The loop over a node's edges: those off the path are forward, and `enter` walks the unseen. -/
def follow (enter : α → Walk α → Option (Walk α)) :
    List α → List α → Walk α → Option (List α × Walk α)
  | [], nexts, w => some (nexts, w)
  | target :: targets, nexts, w =>
    if target ∈ w.onPath then follow enter targets nexts w
    else if target ∈ w.discovery then follow enter targets (nexts ++ [target]) w
    else
      match enter target w with
      | none => none
      | some w => follow enter targets (nexts ++ [target]) w

/-- Enter a node and walk everything below it; none where `fuel` nested entries do not reach. -/
def walk (out : α → List α) : ℕ → α → Walk α → Option (Walk α)
  | 0, _, _ => none
  | fuel + 1, node, w =>
    match follow (walk out fuel) (out node) []
        { w with discovery := w.discovery ++ [node], onPath := node :: w.onPath } with
    | none => none
    | some (nexts, w) =>
      some { w with onPath := w.onPath.erase node, forward := (node, nexts) :: w.forward }

end Walks

/-- One of the recorded edges. -/
def Forward (forward : List (α × List α)) (a b : α) : Prop :=
  ∃ nexts, (a, nexts) ∈ forward ∧ b ∈ nexts

/-- Every recorded edge ends at a node that finished before its start. -/
def Layered : List (α × List α) → Prop
  | [] => True
  | (_, nexts) :: before => (∀ b ∈ nexts, b ∈ before.map Prod.fst) ∧ Layered before

/-- What holds of a walk between two of its steps. -/
structure Walk.Sound (out : α → List α) (w : Walk α) : Prop where
  seen : w.discovery.Perm (w.onPath ++ w.finished)
  once : w.discovery.Nodup
  layered : Layered w.forward
  edges : ∀ a b, Forward w.forward a b → b ∈ out a

/-- What an entry at `node` does: the walk below records the edges of the nodes it discovers, each
reached by recorded edges, and leaves out just those that close a cycle or reach the path. -/
structure Entered (out : α → List α) (node : α) (w w' : Walk α)
    (new : List (α × List α)) : Prop where
  sound : w'.Sound out
  onPath : w'.onPath = w.onPath
  forward : w'.forward = new ++ w.forward
  discovery : ∃ rest, w'.discovery = w.discovery ++ node :: rest
  finished : node ∈ new.map Prod.fst
  below : ∀ a ∈ new.map Prod.fst, ReflTransGen (Forward new) node a
  back : ∀ a ∈ new.map Prod.fst, ∀ b ∈ out a,
    Forward new a b ∨ b ∈ w.onPath ∨ ReflTransGen (Forward new) b a

/-- What following a node's edges does. -/
structure Followed (out : α → List α) (targets added : List α) (w w' : Walk α)
    (new : List (α × List α)) : Prop where
  sound : w'.Sound out
  onPath : w'.onPath = w.onPath
  forward : w'.forward = new ++ w.forward
  discovery : ∃ rest, w'.discovery = w.discovery ++ rest
  ofTargets : added ⊆ targets
  finished : ∀ b ∈ added, b ∈ w'.finished
  split : ∀ b ∈ targets, b ∈ added ∨ b ∈ w.onPath
  below : ∀ a ∈ new.map Prod.fst, ∃ c ∈ added, ReflTransGen (Forward new) c a
  back : ∀ a ∈ new.map Prod.fst, ∀ b ∈ out a,
    Forward new a b ∨ b ∈ w.onPath ∨ ReflTransGen (Forward new) b a

variable {out : α → List α} {w w' : Walk α} {new later : List (α × List α)} {a b node : α}

theorem Forward.mono {first second : List (α × List α)} (sub : first ⊆ second)
    (edge : Forward first a b) : Forward second a b := by
  obtain ⟨nexts, mem, next⟩ := edge
  exact ⟨nexts, sub mem, next⟩

theorem reaches_mono {first second : List (α × List α)} (sub : first ⊆ second)
    (walks : ReflTransGen (Forward first) a b) : ReflTransGen (Forward second) a b :=
  ReflTransGen.mono (fun _ _ => Forward.mono sub) _ _ walks

theorem Walk.Sound.start (out : α → List α) : Walk.Sound out {} where
  seen := .refl _
  once := List.nodup_nil
  layered := trivial
  edges a b edge := by
    obtain ⟨nexts, mem, -⟩ := edge
    cases mem

/-- A recorded edge ends at a finished node. -/
theorem Forward.finished {forward : List (α × List α)} (layered : Layered forward)
    (edge : Forward forward a b) : b ∈ forward.map Prod.fst := by
  induction forward with
  | nil =>
    obtain ⟨nexts, mem, -⟩ := edge
    cases mem
  | cons entry before ih =>
    obtain ⟨nexts, mem, next⟩ := edge
    rcases List.mem_cons.mp mem with rfl | later
    · exact List.mem_cons_of_mem _ (layered.1 b next)
    · exact List.mem_cons_of_mem _ (ih layered.2 ⟨nexts, later, next⟩)

theorem Walk.Sound.onPath_seen (sound : w.Sound out) (mem : a ∈ w.onPath) : a ∈ w.discovery :=
  sound.seen.mem_iff.mpr (List.mem_append_left _ mem)

theorem Walk.Sound.finished_of_seen (sound : w.Sound out) (seen : a ∈ w.discovery)
    (off : a ∉ w.onPath) : a ∈ w.finished :=
  (List.mem_append.mp (sound.seen.mem_iff.mp seen)).resolve_left off

/-- Following no edge does nothing. -/
theorem Followed.refl (sound : w.Sound out) : Followed out [] [] w w [] where
  sound := sound
  onPath := rfl
  forward := rfl
  discovery := ⟨[], (List.append_nil _).symm⟩
  ofTargets := List.Subset.refl _
  finished := by simp
  split := by simp
  below := by simp
  back := by simp

/-- An edge back onto the path is passed over. -/
theorem Followed.passed {target : α} {targets added : List α} (on : target ∈ w.onPath)
    (rest : Followed out targets added w w' new) : Followed out (target :: targets) added w w' new where
  sound := rest.sound
  onPath := rest.onPath
  forward := rest.forward
  discovery := rest.discovery
  ofTargets := List.subset_cons_of_subset _ rest.ofTargets
  finished := rest.finished
  split b mem := by
    rcases List.mem_cons.mp mem with rfl | later
    · exact .inr on
    · exact rest.split b later
  below := rest.below
  back := rest.back

/-- An edge to a node that has finished is forward. -/
theorem Followed.known {target : α} {targets added : List α} (done : target ∈ w.finished)
    (rest : Followed out targets added w w' new) :
    Followed out (target :: targets) (target :: added) w w' new where
  sound := rest.sound
  onPath := rest.onPath
  forward := rest.forward
  discovery := rest.discovery
  ofTargets := List.cons_subset_cons _ rest.ofTargets
  finished b mem := by
    rcases List.mem_cons.mp mem with rfl | later
    · rw [Walk.finished, rest.forward, List.map_append]
      exact List.mem_append_right _ done
    · exact rest.finished b later
  split b mem := by
    rcases List.mem_cons.mp mem with rfl | later
    · exact .inl List.mem_cons_self
    · exact (rest.split b later).imp_left (List.mem_cons_of_mem _)
  below a mem := by
    obtain ⟨c, of, walks⟩ := rest.below a mem
    exact ⟨c, List.mem_cons_of_mem _ of, walks⟩
  back := rest.back

/-- An edge to an unseen node is forward, and the walk below it comes first. -/
theorem Followed.entered {target : α} {targets added : List α} {mid : Walk α}
    (entry : Entered out target w mid new) (rest : Followed out targets added mid w' later) :
    Followed out (target :: targets) (target :: added) w w' (later ++ new) where
  sound := rest.sound
  onPath := rest.onPath.trans entry.onPath
  forward := by rw [rest.forward, entry.forward, List.append_assoc]
  discovery := by
    obtain ⟨below, first⟩ := entry.discovery
    obtain ⟨more, then_⟩ := rest.discovery
    exact ⟨target :: below ++ more, by rw [then_, first, List.append_assoc]⟩
  ofTargets := List.cons_subset_cons _ rest.ofTargets
  finished b mem := by
    rcases List.mem_cons.mp mem with rfl | later
    · rw [Walk.finished, rest.forward, entry.forward, List.map_append, List.map_append]
      exact List.mem_append_right _ (List.mem_append_left _ entry.finished)
    · exact rest.finished b later
  split b mem := by
    rcases List.mem_cons.mp mem with rfl | later
    · exact .inl List.mem_cons_self
    · rw [← entry.onPath]
      exact (rest.split b later).imp_left (List.mem_cons_of_mem _)
  below a mem := by
    rw [List.map_append, List.mem_append] at mem
    rcases mem with ofLater | ofNew
    · obtain ⟨c, of, walks⟩ := rest.below a ofLater
      exact ⟨c, List.mem_cons_of_mem _ of, reaches_mono (List.subset_append_left _ _) walks⟩
    · exact ⟨target, List.mem_cons_self,
        reaches_mono (List.subset_append_right _ _) (entry.below a ofNew)⟩
  back a mem b edge := by
    rw [List.map_append, List.mem_append] at mem
    rcases mem with ofLater | ofNew
    · rcases rest.back a ofLater b edge with next | on | up
      · exact .inl (next.mono (List.subset_append_left _ _))
      · exact .inr (.inl (entry.onPath ▸ on))
      · exact .inr (.inr (reaches_mono (List.subset_append_left _ _) up))
    · rcases entry.back a ofNew b edge with next | on | up
      · exact .inl (next.mono (List.subset_append_right _ _))
      · exact .inr (.inl on)
      · exact .inr (.inr (reaches_mono (List.subset_append_right _ _) up))

/-- Standing on a fresh node keeps the walk sound. -/
theorem Walk.Sound.enter (sound : w.Sound out) (fresh : node ∉ w.discovery) :
    Walk.Sound out
      { w with discovery := w.discovery ++ [node], onPath := node :: w.onPath } where
  seen := by
    change (w.discovery ++ [node]).Perm (node :: (w.onPath ++ w.finished))
    exact (List.perm_append_singleton _ _).trans (sound.seen.cons node)
  once := by
    rw [List.nodup_append]
    refine ⟨sound.once, List.nodup_singleton _, ?_⟩
    intro a mem b isNode same
    exact fresh (List.mem_singleton.mp isNode ▸ same ▸ mem)
  layered := sound.layered
  edges := sound.edges

section Walks
variable [DecidableEq α]

theorem follow_followed {enter : α → Walk α → Option (Walk α)}
    (enters : ∀ c w w', w.Sound out → c ∉ w.discovery → enter c w = some w' →
      ∃ new, Entered out c w w' new)
    (targets nexts : List α) (w : Walk α) (sound : w.Sound out) {result : List α × Walk α}
    (followed : follow enter targets nexts w = some result) :
    ∃ added new, result.1 = nexts ++ added ∧ Followed out targets added w result.2 new := by
  induction targets generalizing nexts w with
  | nil =>
    obtain rfl := Option.some.inj followed
    exact ⟨[], [], (List.append_nil _).symm, .refl sound⟩
  | cons target targets ih =>
    rw [follow] at followed
    split at followed
    · rename_i on
      obtain ⟨added, new, is, rest⟩ := ih nexts w sound followed
      exact ⟨added, new, is, .passed on rest⟩
    · rename_i off
      split at followed
      · rename_i seen
        obtain ⟨added, new, is, rest⟩ := ih _ w sound followed
        refine ⟨target :: added, new, ?_, .known (sound.finished_of_seen seen off) rest⟩
        rw [is, List.append_assoc]
        rfl
      · rename_i fresh
        split at followed
        · cases followed
        · rename_i mid entry
          obtain ⟨new, entered⟩ := enters target w mid sound fresh entry
          obtain ⟨added, later, is, rest⟩ := ih _ mid entered.sound followed
          refine ⟨target :: added, later ++ new, ?_, .entered entered rest⟩
          rw [is, List.append_assoc]
          rfl

/-- A node finishes with the forward edges followed from it. -/
theorem Followed.leave {added : List α} (fresh : node ∉ w.discovery)
    (followed : Followed out (out node) added
      { w with discovery := w.discovery ++ [node], onPath := node :: w.onPath } w' new) :
    Entered out node w
      { w' with onPath := w'.onPath.erase node, forward := (node, added) :: w'.forward }
      ((node, added) :: new) := by
  have path : w'.onPath = node :: w.onPath := followed.onPath
  have reaches : ∀ a ∈ ((node, added) :: new).map Prod.fst,
      ReflTransGen (Forward ((node, added) :: new)) node a := by
    intro a mem
    rcases List.mem_cons.mp mem with rfl | below
    · exact .refl
    · obtain ⟨c, next, walks⟩ := followed.below a below
      exact .head ⟨added, List.mem_cons_self, next⟩ (reaches_mono (List.subset_cons_self _ _) walks)
  refine ⟨⟨?_, followed.sound.once, ⟨followed.finished, followed.sound.layered⟩, ?_⟩, ?_, ?_, ?_, ?_,
    reaches, ?_⟩
  · have seen := followed.sound.seen
    rw [path] at seen
    rw [path, List.erase_cons_head]
    refine seen.trans (List.Perm.trans ?_ List.perm_middle.symm)
    exact .refl _
  · rintro a b ⟨nexts, mem, next⟩
    rcases List.mem_cons.mp mem with is | before
    · cases is
      exact followed.ofTargets next
    · exact followed.sound.edges a b ⟨nexts, before, next⟩
  · rw [path, List.erase_cons_head]
  · change (node, added) :: w'.forward = (node, added) :: (new ++ w.forward)
    rw [followed.forward]
  · obtain ⟨rest, is⟩ := followed.discovery
    refine ⟨rest, is.trans ?_⟩
    exact List.append_assoc _ _ _
  · exact List.mem_cons_self
  · intro a mem b edge
    rcases List.mem_cons.mp mem with is | below
    · subst is
      rcases followed.split b edge with next | on
      · exact .inl ⟨added, List.mem_cons_self, next⟩
      · rcases List.mem_cons.mp on with rfl | above
        · exact .inr (.inr .refl)
        · exact .inr (.inl above)
    · rcases followed.back a below b edge with next | on | up
      · exact .inl (next.mono (List.subset_cons_self _ _))
      · rcases List.mem_cons.mp on with rfl | above
        · exact .inr (.inr (reaches a (List.mem_cons_of_mem _ below)))
        · exact .inr (.inl above)
      · exact .inr (.inr (reaches_mono (List.subset_cons_self _ _) up))

theorem walk_entered (fuel : ℕ) (node : α) (w : Walk α) (sound : w.Sound out)
    (fresh : node ∉ w.discovery) (walked : walk out fuel node w = some w') :
    ∃ new, Entered out node w w' new := by
  induction fuel generalizing node w w' with
  | zero => cases walked
  | succ fuel ih =>
    rw [walk] at walked
    split at walked
    · cases walked
    · rename_i nexts mid followed
      obtain rfl := Option.some.inj walked
      obtain ⟨added, new, is, below⟩ := follow_followed
        (fun c w w' sound fresh entry => ih c w sound fresh entry) _ _ _ (sound.enter fresh) followed
      obtain rfl : nexts = added := is
      exact ⟨_, below.leave fresh⟩

/-! ## Every walk ends -/

/-- The nodes of a universe a walk can still enter. -/
def unseen (nodes : List α) (w : Walk α) : ℕ := nodes.countP fun a => decide (a ∉ w.discovery)

theorem unseen_le (nodes : List α) {rest : List α} (grown : w'.discovery = w.discovery ++ rest) :
    unseen nodes w' ≤ unseen nodes w := by
  refine List.countP_mono_left fun a _ new => ?_
  rw [grown, decide_eq_true_eq, List.mem_append, not_or] at new
  exact decide_eq_true new.1

theorem unseen_lt (w' : Walk α) {nodes : List α} (mem : node ∈ nodes) (fresh : node ∉ w.discovery)
    (grown : w'.discovery = w.discovery ++ [node]) : unseen nodes w' < unseen nodes w := by
  obtain ⟨front, back, rfl⟩ := List.append_of_mem mem
  have ahead := unseen_le front grown
  have behind := unseen_le back grown
  have here : node ∈ w'.discovery := by
    rw [grown]
    exact List.mem_append_right _ (List.mem_singleton_self _)
  simp only [unseen, List.countP_append, List.countP_cons, here, fresh, not_true_eq_false,
    not_false_eq_true, decide_true, decide_false, if_true, Bool.false_eq_true, if_false]
    at ahead behind ⊢
  omega

theorem follow_answers {enter : α → Walk α → Option (Walk α)} {nodes : List α} {fuel : ℕ}
    (enters : ∀ c w w', w.Sound out → c ∉ w.discovery → enter c w = some w' →
      ∃ new, Entered out c w w' new)
    (answers : ∀ c w, w.Sound out → c ∈ nodes → c ∉ w.discovery → unseen nodes w ≤ fuel →
      ∃ w', enter c w = some w')
    (targets nexts : List α) (w : Walk α) (sound : w.Sound out) (inNodes : targets ⊆ nodes)
    (enough : unseen nodes w ≤ fuel) : ∃ result, follow enter targets nexts w = some result := by
  induction targets generalizing nexts w with
  | nil => exact ⟨_, rfl⟩
  | cons target targets ih =>
    have later := (List.cons_subset.mp inNodes).2
    rw [follow]
    split
    · exact ih nexts w sound later enough
    · split
      · exact ih _ w sound later enough
      · rename_i fresh
        obtain ⟨mid, entry⟩ := answers target w sound (inNodes List.mem_cons_self) fresh enough
        obtain ⟨new, entered⟩ := enters target w mid sound fresh entry
        obtain ⟨rest, grown⟩ := entered.discovery
        rw [entry]
        exact ih _ mid entered.sound later (Nat.le_trans (unseen_le nodes grown) enough)

/-- With fuel for every unseen node of a closed universe, a walk answers. -/
theorem walk_answers {nodes : List α} (closed : ∀ a ∈ nodes, out a ⊆ nodes) (fuel : ℕ) (node : α)
    (w : Walk α) (sound : w.Sound out) (mem : node ∈ nodes) (fresh : node ∉ w.discovery)
    (enough : unseen nodes w ≤ fuel) : ∃ w', walk out fuel node w = some w' := by
  induction fuel generalizing node w with
  | zero =>
    have less := unseen_lt { w with discovery := w.discovery ++ [node] } mem fresh rfl
    omega
  | succ fuel ih =>
    have less := unseen_lt
      { w with discovery := w.discovery ++ [node], onPath := node :: w.onPath } mem fresh rfl
    obtain ⟨result, followed⟩ := follow_answers
      (fun c w w' sound fresh entry => walk_entered fuel c w sound fresh entry)
      (fun c w sound mem fresh enough => ih c w sound mem fresh enough)
      (out node) [] _ (sound.enter fresh) (closed node mem) (by omega)
    rw [walk, followed]
    exact ⟨_, rfl⟩

/-! ## A whole walk -/

/-- What a walk from an entry leaves: the nodes reachable from it, each once and it first, with the
recorded edges layered and every other one closing a cycle of them. -/
structure Walked (out : α → List α) (entry : α) (w : Walk α) : Prop where
  finished : w.discovery.Perm w.finished
  once : w.discovery.Nodup
  first : ∃ rest, w.discovery = entry :: rest
  reached : ∀ a, a ∈ w.discovery ↔ ReflTransGen (fun a b => b ∈ out a) entry a
  layered : Layered w.forward
  edges : ∀ a b, Forward w.forward a b → b ∈ out a
  below : ∀ a ∈ w.discovery, ReflTransGen (Forward w.forward) entry a
  back : ∀ a ∈ w.discovery, ∀ b ∈ out a,
    Forward w.forward a b ∨ ReflTransGen (Forward w.forward) b a

theorem walk_walked {fuel : ℕ} {entry : α} (walked : walk out fuel entry {} = some w) :
    Walked out entry w := by
  obtain ⟨new, entered⟩ := walk_entered fuel entry {} (.start out) (List.not_mem_nil) walked
  have onPath : w.onPath = [] := entered.onPath
  have forward : w.forward = new := entered.forward.trans (List.append_nil _)
  have finished : w.discovery.Perm w.finished := by
    have seen := entered.sound.seen
    rwa [onPath] at seen
  have inNew : ∀ a, a ∈ w.discovery ↔ a ∈ new.map Prod.fst := by
    intro a
    rw [finished.mem_iff, Walk.finished, forward]
  have back : ∀ a ∈ w.discovery, ∀ b ∈ out a,
      Forward w.forward a b ∨ ReflTransGen (Forward w.forward) b a := by
    intro a mem b edge
    rw [forward]
    rcases entered.back a ((inNew a).mp mem) b edge with next | on | up
    · exact .inl next
    · exact absurd on List.not_mem_nil
    · exact .inr up
  have ends : ∀ {a b}, Forward w.forward a b → b ∈ w.discovery := by
    intro a b edge
    exact finished.mem_iff.mpr (edge.finished entered.sound.layered)
  have starts : ∀ {a b}, Forward w.forward a b → a ∈ w.discovery := by
    intro a b edge
    obtain ⟨nexts, mem, -⟩ := edge
    exact finished.mem_iff.mpr (List.mem_map_of_mem (f := Prod.fst) mem)
  have below : ∀ a ∈ w.discovery, ReflTransGen (Forward w.forward) entry a := by
    intro a mem
    rw [forward]
    exact entered.below a ((inNew a).mp mem)
  refine ⟨finished, entered.sound.once, ?_, ?_, entered.sound.layered, entered.sound.edges, below,
    back⟩
  · obtain ⟨rest, is⟩ := entered.discovery
    exact ⟨rest, is⟩
  · intro a
    constructor
    · intro mem
      exact ReflTransGen.mono (fun a b edge => entered.sound.edges a b edge) _ _ (below a mem)
    · intro walks
      induction walks with
      | refl => exact (inNew entry).mpr entered.finished
      | tail _ edge ih =>
        rename_i b c _
        rcases back b ih c edge with next | up
        · exact ends next
        · rcases ReflTransGen.cases_head up with same | ⟨d, next, -⟩
          · exact same ▸ ih
          · exact starts next

/-- A recorded edge rises through the nodes, last finished first. -/
theorem layered_idxOf_lt {forward : List (α × List α)} (layered : Layered forward)
    (once : (forward.map Prod.fst).Nodup) (edge : Forward forward a b) :
    (forward.map Prod.fst).idxOf a < (forward.map Prod.fst).idxOf b := by
  induction forward with
  | nil =>
    obtain ⟨nexts, mem, -⟩ := edge
    cases mem
  | cons entry before ih =>
    obtain ⟨fresh, rest⟩ := List.nodup_cons.mp once
    obtain ⟨nexts, mem, next⟩ := edge
    rw [List.map_cons]
    rcases List.mem_cons.mp mem with rfl | later
    · have ends := layered.1 b next
      have apart : a ≠ b := fun is => fresh (by rwa [← is] at ends)
      rw [List.idxOf_cons_self, List.idxOf_cons_ne _ apart]
      exact Nat.succ_pos _
    · have starts := List.mem_map_of_mem (f := Prod.fst) later
      have ends := Forward.finished layered.2 ⟨nexts, later, next⟩
      have apartA : entry.1 ≠ a := fun is => fresh (by rwa [← is] at starts)
      have apartB : entry.1 ≠ b := fun is => fresh (by rwa [← is] at ends)
      rw [List.idxOf_cons_ne _ apartA, List.idxOf_cons_ne _ apartB]
      exact Nat.succ_lt_succ (ih layered.2 rest ⟨nexts, later, next⟩)

/-- The forward edges recorded for a node; none for one that has not finished. -/
def Walk.nexts (w : Walk α) (node : α) : List α :=
  match w.forward.find? fun entry => decide (entry.1 = node) with
  | some entry => entry.2
  | none => []

theorem mem_nexts (once : w.finished.Nodup) : b ∈ w.nexts a ↔ Forward w.forward a b := by
  rw [Walk.nexts]
  constructor
  · intro next
    split at next
    · rename_i entry found
      have is : entry.1 = a := of_decide_eq_true
        (List.find?_some (p := fun entry : α × List α => decide (entry.1 = a)) found)
      exact ⟨entry.2, is ▸ List.mem_of_find?_eq_some found, next⟩
    · cases next
  · rintro ⟨nexts, mem, next⟩
    cases found : w.forward.find? fun entry => decide (entry.1 = a) with
    | none =>
      have absent := List.find?_eq_none.mp found _ mem
      simp at absent
    | some entry =>
      have is : entry.1 = a := of_decide_eq_true
        (List.find?_some (p := fun entry : α × List α => decide (entry.1 = a)) found)
      have same := List.inj_on_of_nodup_map once (List.mem_of_find?_eq_some found) mem is
      rw [same]
      exact next

end Walks

end Blizzard.ForwardWalks
