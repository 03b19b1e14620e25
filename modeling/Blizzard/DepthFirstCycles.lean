import Mathlib.Data.List.Nodup
import Mathlib.Logic.Function.Basic
import Mathlib.Logic.Relation

/-! # Three-colour depth-first cycle search

A node is white before the search enters it, gray while it is on the search
path and black once everything below it is explored. Meeting a gray neighbour
closes a cycle; a black node has no infinite walk below it. Both directions,
and that fuel for every node suffices, are proved for any successor function. -/
namespace Blizzard.DepthFirstCycles
open Relation

inductive Color | white | gray | black
  deriving DecidableEq, Repr

abbrev Colors (α : Type*) := α → Color

variable {α : Type*}

/-- The loop over a node's neighbours: `visit` is entered at the white ones. -/
def scan (visit : Colors α → α → Option (Bool × Colors α)) :
    Colors α → List α → Option (Bool × Colors α)
  | color, [] => some (false, color)
  | color, m :: ms =>
    match color m with
    | .gray => some (true, color)
    | .black => scan visit color ms
    | .white =>
      match visit color m with
      | none => none
      | some (true, color') => some (true, color')
      | some (false, color') => scan visit color' ms

section Search
variable [DecidableEq α]

/-- Enter a node: gray, scan its neighbours, black unless a cycle was met. -/
def visit (graph : α → List α) : ℕ → Colors α → α → Option (Bool × Colors α)
  | 0, _, _ => none
  | fuel + 1, color, node =>
    match scan (visit graph fuel) (Function.update color node .gray) (graph node) with
    | none => none
    | some (true, color') => some (true, color')
    | some (false, color') => some (false, Function.update color' node .black)

/-- Search from every white root in turn. -/
def search (graph : α → List α) (fuel : ℕ) : Colors α → List α → Option (Bool × Colors α)
  | color, [] => some (false, color)
  | color, root :: roots =>
    match color root with
    | .white =>
      match visit graph fuel color root with
      | none => none
      | some (true, color') => some (true, color')
      | some (false, color') => search graph fuel color' roots
    | _ => search graph fuel color roots

end Search

/-- `b` is a successor of `a`. -/
def Edge (graph : α → List α) (a b : α) : Prop := b ∈ graph a

/-- Some node is on a cycle. -/
def Cyclic (R : α → α → Prop) : Prop := ∃ a, TransGen R a a

/-- No infinite walk leaves a black node. -/
def BlackAcc (graph : α → List α) (color : Colors α) : Prop :=
  ∀ a, color a = .black → Acc (fun x y => Edge graph y x) a

/-- A colouring the search may move to without meeting a cycle: the path is as it was. -/
structure Deepens (color color' : Colors α) : Prop where
  gray_iff : ∀ a, color' a = .gray ↔ color a = .gray
  black : ∀ a, color a = .black → color' a = .black

theorem Deepens.refl (color : Colors α) : Deepens color color := ⟨fun _ => Iff.rfl, fun _ h => h⟩

theorem Deepens.trans {c c' c'' : Colors α} (h : Deepens c c') (h' : Deepens c' c'') :
    Deepens c c'' :=
  ⟨fun a => (h'.gray_iff a).trans (h.gray_iff a), fun a ha => h'.black a (h.black a ha)⟩

/-- Below a visit: a met cycle is real, and a clean visit blackens the node soundly. -/
structure VisitSound (graph : α → List α) (color : Colors α) (node : α)
    (result : Bool × Colors α) : Prop where
  met : result.1 = true → Cyclic (Edge graph)
  clean : result.1 = false → Deepens color result.2 ∧ result.2 node = .black ∧
    (BlackAcc graph color → BlackAcc graph result.2)

/-- The search path: every gray node reaches the node being entered. -/
def PathTo (graph : α → List α) (color : Colors α) (node : α) : Prop :=
  ∀ a, color a = .gray → ReflTransGen (Edge graph) a node

theorem scan_sound {graph : α → List α} {enter : Colors α → α → Option (Bool × Colors α)}
    {node : α}
    (enter_sound : ∀ color m result, color m = .white → PathTo graph color m →
      enter color m = some result → VisitSound graph color m result)
    (neighbours : List α) (below : ∀ m ∈ neighbours, Edge graph node m)
    (color : Colors α) (path : PathTo graph color node) {result : Bool × Colors α}
    (h : scan enter color neighbours = some result) :
    (result.1 = true → Cyclic (Edge graph)) ∧
      (result.1 = false → Deepens color result.2 ∧ (∀ m ∈ neighbours, result.2 m = .black) ∧
        (BlackAcc graph color → BlackAcc graph result.2)) := by
  induction neighbours generalizing color with
  | nil =>
    obtain rfl := Option.some.inj h
    exact ⟨by simp, fun _ => ⟨.refl color, by simp, id⟩⟩
  | cons m ms ih =>
    have edge : Edge graph node m := below m (by simp)
    have rest := fun c p hs => ih (fun x hx => below x (by simp [hx])) c p (h := hs)
    unfold scan at h
    split at h
    · rename_i gray
      obtain rfl := Option.some.inj h
      exact ⟨fun _ => ⟨m, TransGen.tail' (path m gray) edge⟩, by simp⟩
    · rename_i black
      obtain ⟨met, clean⟩ := rest color path h
      refine ⟨met, fun quiet => ?_⟩
      obtain ⟨deepens, blacks, acc⟩ := clean quiet
      refine ⟨deepens, fun x hx => ?_, acc⟩
      rcases List.mem_cons.mp hx with rfl | hx
      · exact deepens.black x black
      · exact blacks x hx
    · rename_i white
      have path_m : PathTo graph color m := fun a ha => (path a ha).tail edge
      split at h
      · cases h
      · rename_i color' entered
        obtain rfl := Option.some.inj h
        exact ⟨fun _ => (enter_sound color m _ white path_m entered).met rfl, by simp⟩
      · rename_i color' entered
        obtain ⟨deepens₁, black_m, acc₁⟩ := (enter_sound color m _ white path_m entered).clean rfl
        have path' : PathTo graph color' node := fun a ha => path a ((deepens₁.gray_iff a).mp ha)
        obtain ⟨met, clean⟩ := rest color' path' h
        refine ⟨met, fun quiet => ?_⟩
        obtain ⟨deepens₂, blacks, acc₂⟩ := clean quiet
        refine ⟨deepens₁.trans deepens₂, fun x hx => ?_, acc₂ ∘ acc₁⟩
        rcases List.mem_cons.mp hx with rfl | hx
        · exact deepens₂.black x black_m
        · exact blacks x hx

section Sound
variable [DecidableEq α]

theorem visit_sound {graph : α → List α} (fuel : ℕ) (color : Colors α) (node : α)
    {result : Bool × Colors α} (white : color node = .white) (path : PathTo graph color node)
    (h : visit graph fuel color node = some result) : VisitSound graph color node result := by
  induction fuel generalizing color node result with
  | zero => simp [visit] at h
  | succ fuel ih =>
    have path' : PathTo graph (Function.update color node .gray) node := by
      intro a ha
      by_cases same : a = node
      · rw [same]
      · exact path a (by simpa [Function.update_of_ne same] using ha)
    have scanned {r : Bool × Colors α}
        (hr : scan (visit graph fuel) (Function.update color node .gray) (graph node) = some r) :=
      scan_sound (fun c m _ hw hp hv => ih c m hw hp hv) (graph node) (fun _ hm => hm)
        (Function.update color node .gray) path' hr
    unfold visit at h
    split at h
    · cases h
    · rename_i color' met
      obtain rfl := Option.some.inj h
      exact ⟨fun _ => (scanned met).1 rfl, by simp⟩
    · rename_i color' clean
      obtain rfl := Option.some.inj h
      obtain ⟨deepens, blacks, acc⟩ := (scanned clean).2 rfl
      refine ⟨by simp, fun _ => ⟨⟨fun a => ?_, fun a ha => ?_⟩, by simp, fun hacc => ?_⟩⟩
      · by_cases same : a = node
        · simp [same, white]
        · simpa [Function.update_of_ne same] using deepens.gray_iff a
      · by_cases same : a = node
        · simp [same]
        · have kept := deepens.black a (by simpa [Function.update_of_ne same] using ha)
          simpa [Function.update_of_ne same] using kept
      · have entered : BlackAcc graph (Function.update color node .gray) := by
          intro a ha
          by_cases same : a = node
          · simp [same] at ha
          · exact hacc a (by simpa [Function.update_of_ne same] using ha)
        intro a ha
        by_cases same : a = node
        · exact same ▸ Acc.intro node fun m hm => acc entered m (blacks m hm)
        · exact acc entered a (by simpa [Function.update_of_ne same] using ha)

theorem search_sound {graph : α → List α} {fuel : ℕ} (roots : List α) (color : Colors α)
    (ungray : ∀ a, color a ≠ .gray) (acc : BlackAcc graph color) {result : Bool × Colors α}
    (h : search graph fuel color roots = some result) :
    (result.1 = true → Cyclic (Edge graph)) ∧
      (result.1 = false → Deepens color result.2 ∧ (∀ a ∈ roots, result.2 a = .black) ∧
        BlackAcc graph result.2) := by
  induction roots generalizing color with
  | nil =>
    obtain rfl := Option.some.inj h
    exact ⟨by simp, fun _ => ⟨.refl color, by simp, acc⟩⟩
  | cons root roots ih =>
    unfold search at h
    split at h
    · rename_i white
      have path : PathTo graph color root := fun a ha => absurd ha (ungray a)
      split at h
      · cases h
      · rename_i color' entered
        obtain rfl := Option.some.inj h
        exact ⟨fun _ => (visit_sound fuel color root white path entered).met rfl, by simp⟩
      · rename_i color' entered
        obtain ⟨deepens, black, keeps⟩ := (visit_sound fuel color root white path entered).clean rfl
        obtain ⟨met, clean⟩ := ih color' (fun a ha => ungray a ((deepens.gray_iff a).mp ha))
          (keeps acc) h
        refine ⟨met, fun quiet => ?_⟩
        obtain ⟨deepens', blacks, acc'⟩ := clean quiet
        refine ⟨deepens.trans deepens', fun a ha => ?_, acc'⟩
        rcases List.mem_cons.mp ha with rfl | ha
        · exact deepens'.black a black
        · exact blacks a ha
    · rename_i notWhite
      obtain ⟨met, clean⟩ := ih color ungray acc h
      refine ⟨met, fun quiet => ?_⟩
      obtain ⟨deepens, blacks, acc'⟩ := clean quiet
      refine ⟨deepens, fun a ha => ?_, acc'⟩
      rcases List.mem_cons.mp ha with rfl | ha
      · refine deepens.black a ?_
        cases colored : color a with
        | white => exact absurd colored notWhite
        | gray => exact absurd colored (ungray a)
        | black => rfl
      · exact blacks a ha

end Sound

/-- The white nodes of a universe: what the search can still enter. -/
def whites (nodes : List α) (color : Colors α) : ℕ :=
  nodes.countP fun a => decide (color a = .white)

theorem whites_le {nodes : List α} {c c' : Colors α}
    (h : ∀ a, c' a = .white → c a = .white) : whites nodes c' ≤ whites nodes c := by
  refine List.countP_mono_left fun a _ ha => ?_
  simpa using h a (by simpa using ha)

section Answers
variable [DecidableEq α]

theorem whites_update_lt {nodes : List α} {c : Colors α} {node : α} {color : Color}
    (mem : node ∈ nodes) (white : c node = .white) (painted : color ≠ .white) :
    whites nodes (Function.update c node color) < whites nodes c := by
  have keeps (ms : List α) : whites ms (Function.update c node color) ≤ whites ms c := by
    refine whites_le fun a ha => ?_
    by_cases same : a = node
    · rw [same]; exact white
    · simpa [Function.update_of_ne same] using ha
  obtain ⟨before, after, rfl⟩ := List.append_of_mem mem
  have hb := keeps before
  have ha := keeps after
  simp only [whites, List.countP_append, List.countP_cons, Function.update_self, white,
    painted, decide_true, decide_false, if_true, Bool.false_eq_true, if_false] at hb ha ⊢
  omega

/-- With fuel for every white node of a closed universe, a visit answers. -/
theorem visit_answers {graph : α → List α} {nodes : List α}
    (closed : ∀ a ∈ nodes, ∀ b ∈ graph a, b ∈ nodes) (fuel : ℕ) (color : Colors α) (node : α)
    (mem : node ∈ nodes) (white : color node = .white) (enough : whites nodes color ≤ fuel) :
    ∃ result, visit graph fuel color node = some result ∧
      ∀ a, result.2 a = .white → color a = .white := by
  induction fuel generalizing color node with
  | zero =>
    have pos := whites_update_lt mem white (show Color.gray ≠ .white by decide)
    omega
  | succ fuel ih =>
    have scans : ∀ (ms : List α) (c : Colors α), (∀ m ∈ ms, m ∈ nodes) → whites nodes c ≤ fuel →
        ∃ result, scan (visit graph fuel) c ms = some result ∧
          ∀ a, result.2 a = .white → c a = .white := by
      intro ms
      induction ms with
      | nil => exact fun c _ _ => ⟨_, rfl, fun _ h => h⟩
      | cons m ms ihs =>
        intro c hms hc
        unfold scan
        cases colored : c m with
        | gray => exact ⟨_, rfl, fun _ h => h⟩
        | black => exact ihs c (fun x hx => hms x (by simp [hx])) hc
        | white =>
          obtain ⟨⟨met, c'⟩, entered, keeps⟩ := ih c m (hms m (by simp)) colored hc
          rw [entered]
          cases met with
          | true => exact ⟨_, rfl, keeps⟩
          | false =>
            obtain ⟨result, scanned, keeps'⟩ := ihs c' (fun x hx => hms x (by simp [hx]))
              (Nat.le_trans (whites_le keeps) hc)
            exact ⟨result, scanned, fun a ha => keeps a (keeps' a ha)⟩
    have fewer := whites_update_lt mem white (show Color.gray ≠ .white by decide)
    obtain ⟨⟨met, c'⟩, scanned, keeps⟩ := scans (graph node) (Function.update color node .gray)
      (closed node mem) (by omega)
    have old : ∀ a, c' a = .white → color a = .white := by
      intro a ha
      have kept := keeps a ha
      by_cases same : a = node
      · simp [same] at kept
      · simpa [Function.update_of_ne same] using kept
    unfold visit
    rw [scanned]
    cases met with
    | true => exact ⟨_, rfl, old⟩
    | false =>
      refine ⟨_, rfl, fun a ha => ?_⟩
      by_cases same : a = node
      · simp [same] at ha
      · exact old a (by simpa [Function.update_of_ne same] using ha)

theorem search_answers {graph : α → List α} {nodes : List α}
    (closed : ∀ a ∈ nodes, ∀ b ∈ graph a, b ∈ nodes) {fuel : ℕ} (roots : List α)
    (color : Colors α) (mem : ∀ a ∈ roots, a ∈ nodes) (enough : whites nodes color ≤ fuel) :
    ∃ result, search graph fuel color roots = some result := by
  induction roots generalizing color with
  | nil => exact ⟨_, rfl⟩
  | cons root roots ih =>
    have rest := fun c => ih c (fun a ha => mem a (by simp [ha]))
    unfold search
    cases colored : color root with
    | gray => exact rest color enough
    | black => exact rest color enough
    | white =>
      obtain ⟨⟨met, c'⟩, entered, keeps⟩ :=
        visit_answers closed fuel color root (mem root (by simp)) colored enough
      simp only [entered]
      cases met with
      | true => exact ⟨_, rfl⟩
      | false => exact rest c' (Nat.le_trans (whites_le keeps) enough)

end Answers

/-- No cycle passes through a node with no infinite walk below it. -/
theorem not_transGen_self_of_acc {R : α → α → Prop} {a : α} (h : Acc (fun x y => R y x) a) :
    ¬ TransGen R a a := by
  have walks : Acc (TransGen fun x y => R y x) a := h.transGen
  intro cycle
  have reversed : TransGen (fun x y => R y x) a a := transGen_swap.mpr cycle
  clear cycle h
  induction walks with
  | intro x _ ih => exact ih x reversed reversed

/-- The search over all keys answers, and answers whether the graph has a cycle. -/
theorem search_iff [DecidableEq α] {graph : α → List α} {keys nodes : List α} {fuel : ℕ}
    (closed : ∀ a ∈ nodes, ∀ b ∈ graph a, b ∈ nodes) (roots : ∀ a ∈ keys, a ∈ nodes)
    (sinks : ∀ a, a ∉ keys → graph a = []) (enough : nodes.length ≤ fuel) :
    ∃ found color, search graph fuel (fun _ => .white) keys = some (found, color) ∧
      (found = true ↔ Cyclic (Edge graph)) := by
  have fuelled : whites nodes (fun _ => .white) ≤ fuel := Nat.le_trans List.countP_le_length enough
  obtain ⟨⟨found, color⟩, answered⟩ := search_answers closed keys (fun _ => .white) roots fuelled
  obtain ⟨met, clean⟩ := search_sound keys (fun _ => .white) (by simp)
    (fun a ha => by simp at ha) answered
  refine ⟨found, color, answered, met, fun cyclic => ?_⟩
  cases found with
  | true => rfl
  | false =>
    obtain ⟨-, blacks, acc⟩ := clean rfl
    obtain ⟨a, cycle⟩ := cyclic
    have key : a ∈ keys := by
      by_contra outside
      obtain ⟨b, edge, -⟩ := TransGen.head'_iff.mp cycle
      simp [Edge, sinks a outside] at edge
    exact absurd cycle (not_transGen_self_of_acc (acc a (blacks a key)))

/-- A walk in a graph with one edge added uses the edge or not. -/
theorem transGen_add_edge {R : α → α → Prop} {d p x y : α}
    (h : TransGen (fun a b => R a b ∨ (a = d ∧ b = p)) x y) :
    TransGen R x y ∨ (ReflTransGen R x d ∧ ReflTransGen R p y) := by
  induction h with
  | single edge =>
    rcases edge with old | ⟨rfl, rfl⟩
    · exact .inl (.single old)
    · exact .inr ⟨.refl, .refl⟩
  | tail _ edge ih =>
    rcases edge with old | ⟨rfl, rfl⟩
    · rcases ih with walk | ⟨up, down⟩
      · exact .inl (walk.tail old)
      · exact .inr ⟨up, down.tail old⟩
    · rcases ih with walk | ⟨up, -⟩
      · exact .inr ⟨walk.to_reflTransGen, .refl⟩
      · exact .inr ⟨up, .refl⟩

/-- One added edge closes a cycle of an acyclic graph when its end already reaches its start. -/
theorem cyclic_add_edge_iff {R : α → α → Prop} (acyclic : ¬ Cyclic R) (d p : α) :
    Cyclic (fun a b => R a b ∨ (a = d ∧ b = p)) ↔ ReflTransGen R p d := by
  constructor
  · rintro ⟨a, cycle⟩
    rcases transGen_add_edge cycle with old | ⟨up, down⟩
    · exact absurd ⟨a, old⟩ acyclic
    · exact down.trans up
  · intro walk
    have back : ReflTransGen (fun a b => R a b ∨ (a = d ∧ b = p)) p d :=
      ReflTransGen.mono (fun _ _ edge => .inl edge) _ _ walk
    exact ⟨d, TransGen.head' (.inr ⟨rfl, rfl⟩) back⟩

/-- A graph with fewer edges has no more cycles. -/
theorem Cyclic.mono {R R' : α → α → Prop} (sub : ∀ a b, R a b → R' a b) (h : Cyclic R) :
    Cyclic R' := by
  obtain ⟨a, cycle⟩ := h
  exact ⟨a, TransGen.mono sub _ _ cycle⟩

end Blizzard.DepthFirstCycles
