import Blizzard.GraphValidation
import Blizzard.CompletionPlans

/-! # Reification

An accepted document compiled into the immutable graph: a node id for each name, a choice id for
each position, and one edge for each choice. -/
namespace Blizzard.GraphReification
open HubTables StatusLadder WorkflowGraph GraphDocuments GraphValidation

/-- The ULIDs a mint draws, each its own. -/
structure UlidSupply where
  graphUlid : String
  nodeUlid : ℕ → String
  choiceUlid : ℕ → ℕ → String
  node_distinct : ∀ i j, nodeUlid i = nodeUlid j → i = j
  choice_distinct : ∀ i p j q, choiceUlid i p = choiceUlid j q → i = j ∧ p = q

/-- A prefixed ULID. -/
def idValue (kind ulid : String) : String := kind ++ "_" ++ ulid

theorem idValue_injective {kind a b : String} (h : idValue kind a = idValue kind b) : a = b := by
  unfold idValue at h
  have hlist := congrArg String.toList h
  simp only [String.toList_append, List.append_cancel_left_eq] at hlist
  exact String.toList_inj.mp hlist

section reification
variable (doc : GraphDoc) (ids : UlidSupply)

/-- The id struck for the node at each position. -/
def nodeIdAt (i : ℕ) : String := idValue "nd" (ids.nodeUlid i)

def choiceIdAt (i p : ℕ) : String := idValue "cho" (ids.choiceUlid i p)

/-- `node_ids`: a `dict` by name, so of two nodes of one name the later one's id stands. -/
def nodeIds : List (String × String) :=
  dictOf (doc.nodes.zipIdx.map fun (node, i) => (node.name, nodeIdAt ids i))

/-- `node_ids[name]`. -/
def nodeIdOf (name : String) : String :=
  (((nodeIds doc ids).find? fun entry => entry.1 = name).map Prod.snd).getD ""

def choiceOf (i : ℕ) (entry : ChoiceDoc × ℕ) : Choice where
  choiceId := choiceIdAt ids i entry.2
  name := entry.1.name
  description := entry.1.description.getD ""
  requiresChecks := entry.1.requiresChecks

def nodeOf (entry : NodeDoc × ℕ) : Node where
  nodeId := nodeIdOf doc ids entry.1.name
  graphId := idValue "gr" ids.graphUlid
  name := entry.1.name
  executor := entry.1.executor
  produces := entry.1.produces
  judgedBy := (entry.1.judgement.map (·.by_)).getD .worker
  choices := (choiceDocs entry.1).zipIdx.map (choiceOf ids entry.2)
  action := entry.1.action
  actionArgs := entry.1.actionArgs

/-- `to or "done"`: an empty target falls to the terminal as a missing one does. -/
def toNodeName (choice : ChoiceDoc) : String :=
  match choice.to_ with
  | none => reservedTerminal
  | some target => if target = "" then reservedTerminal else target

def edgeOf (node : NodeDoc) (i : ℕ) (entry : ChoiceDoc × ℕ) : Edge where
  fromNodeId := nodeIdOf doc ids node.name
  choiceId := choiceIdAt ids i entry.2
  toNodeName := toNodeName entry.1
  promptAddendum := entry.1.promptAddendum
  targetGraph := entry.1.targetGraph
  model := entry.1.model

/-- The compiled graph. -/
def reified : Graph where
  graphId := idValue "gr" ids.graphUlid
  name := doc.name
  entryNodeId := nodeIdOf doc ids doc.entry
  nodes := doc.nodes.zipIdx.map (nodeOf doc ids)
  edges := doc.nodes.zipIdx.flatMap fun (node, i) =>
    (choiceDocs node).zipIdx.map (edgeOf doc ids node i)

end reification

/-! ## Looking up what was compiled -/

/-- The one element of a list that passes a test is the one `find?` returns. -/
theorem find?_unique {α : Type*} {xs : List α} {p : α → Bool} {x : α} (hx : x ∈ xs)
    (hp : p x = true) (unique : ∀ y ∈ xs, p y = true → y = x) : xs.find? p = some x := by
  cases h : xs.find? p with
  | none => exact absurd hp (List.find?_eq_none.mp h x hx)
  | some y => rw [unique y (List.mem_of_find?_eq_some h) (List.find?_some h)]

theorem dictSet_fresh {β : Type} {dict : List (String × β)} {key : String} (value : β)
    (fresh : key ∉ dict.map Prod.fst) : dictSet dict key value = dict ++ [(key, value)] := by
  have hany : dict.any (fun entry => entry.1 = key) = false := by
    apply List.any_eq_false.mpr
    intro entry hentry hkey
    exact fresh (List.mem_map.mpr ⟨entry, hentry, by simpa using hkey⟩)
  simp [dictSet, hany]

/-- Entries of distinct keys are their own `dict`. -/
theorem dictOf_distinct {β : Type} {entries : List (String × β)}
    (distinct : (entries.map Prod.fst).Nodup) : dictOf entries = entries := by
  have hfold : ∀ (rest dict : List (String × β)),
      ((dict ++ rest).map Prod.fst).Nodup →
        rest.foldl (fun dict entry => dictSet dict entry.1 entry.2) dict = dict ++ rest := by
    intro rest
    induction rest with
    | nil => intro dict _; simp
    | cons entry rest ih =>
      intro dict hnodup
      have hfresh : entry.1 ∉ dict.map Prod.fst := by
        rw [List.map_append, List.nodup_append] at hnodup
        intro hmem
        exact hnodup.2.2 _ hmem entry.1 (by simp) rfl
      rw [List.foldl_cons, dictSet_fresh entry.2 hfresh, ih]
      · simp
      · simpa using hnodup
  simpa [dictOf] using hfold entries [] (by simpa using distinct)

section lookup
variable {doc : GraphDoc} {ids : UlidSupply}

theorem nodeIdAt_injective {i j : ℕ} (h : nodeIdAt ids i = nodeIdAt ids j) : i = j :=
  ids.node_distinct i j (idValue_injective h)

theorem choiceIdAt_injective {i p j q : ℕ} (h : choiceIdAt ids i p = choiceIdAt ids j q) :
    i = j ∧ p = q :=
  ids.choice_distinct i p j q (idValue_injective h)

theorem mem_reified_nodes {node : Node} : node ∈ (reified doc ids).nodes ↔
    ∃ nd i, doc.nodes[i]? = some nd ∧ nodeOf doc ids (nd, i) = node := by
  simp [reified, List.mem_map, Prod.exists, List.mem_zipIdx_iff_getElem?]

theorem mem_reified_edges {edge : Edge} : edge ∈ (reified doc ids).edges ↔
    ∃ nd i c p, doc.nodes[i]? = some nd ∧ (choiceDocs nd)[p]? = some c ∧
      edgeOf doc ids nd i (c, p) = edge := by
  simp only [reified, List.mem_flatMap, Prod.exists, List.mem_zipIdx_iff_getElem?, List.mem_map]
  constructor
  · rintro ⟨nd, i, hnd, c, p, hc, rfl⟩
    exact ⟨nd, i, c, p, hnd, hc, rfl⟩
  · rintro ⟨nd, i, c, p, hnd, hc, rfl⟩
    exact ⟨nd, i, hnd, c, p, hc, rfl⟩

theorem mem_nodeOf_choices {nd : NodeDoc} {i : ℕ} {choice : Choice} :
    choice ∈ (nodeOf doc ids (nd, i)).choices ↔
      ∃ c p, (choiceDocs nd)[p]? = some c ∧ choiceOf ids i (c, p) = choice := by
  simp [nodeOf, List.mem_map, Prod.exists, List.mem_zipIdx_iff_getElem?]

theorem reified_node_names :
    (reified doc ids).nodes.map (·.name) = doc.nodes.map (·.name) := by
  have h : ((fun node : Node => node.name) ∘ nodeOf doc ids) = (·.name) ∘ Prod.fst := rfl
  rw [reified, List.map_map, h, ← List.map_map, List.zipIdx_map_fst]

theorem nodeOf_choice_names {nd : NodeDoc} {i : ℕ} :
    (nodeOf doc ids (nd, i)).choices.map (·.name) = (choiceDocs nd).map (·.name) := by
  have h : ((fun choice : Choice => choice.name) ∘ choiceOf ids i) = (·.name) ∘ Prod.fst := rfl
  rw [nodeOf, List.map_map, h, ← List.map_map, List.zipIdx_map_fst]

/-- Positions of one name are one position where names are distinct. -/
theorem position_unique {α : Type*} {xs : List α} {f : α → String} (distinct : (xs.map f).Nodup)
    {i j : ℕ} {x y : α} (hx : xs[i]? = some x) (hy : xs[j]? = some y) (h : f x = f y) :
    i = j := by
  have hi : (xs.map f)[i]? = some (f x) := by simp [hx]
  have hj : (xs.map f)[j]? = some (f x) := by simp [hy, h]
  have hlt : i < (xs.map f).length := (List.getElem?_eq_some_iff.mp hi).1
  exact (List.getElem?_inj hlt distinct).mp (hi.trans hj.symm)

variable (ids) (names : (doc.nodes.map (·.name)).Nodup)
include names

/-- With distinct names, the id of a name is the one struck at its node's position. -/
theorem nodeIdOf_at {nd : NodeDoc} {i : ℕ} (hnd : doc.nodes[i]? = some nd) :
    nodeIdOf doc ids nd.name = nodeIdAt ids i := by
  have hkeys : ((doc.nodes.zipIdx.map fun (node, i) => (node.name, nodeIdAt ids i)).map
      Prod.fst).Nodup := by
    have h : (Prod.fst ∘ fun x : NodeDoc × ℕ => (x.1.name, nodeIdAt ids x.2))
        = (·.name) ∘ Prod.fst := rfl
    rw [List.map_map, h, ← List.map_map, List.zipIdx_map_fst]
    exact names
  have hfind : (nodeIds doc ids).find? (fun entry => entry.1 = nd.name)
      = some (nd.name, nodeIdAt ids i) := by
    rw [nodeIds, dictOf_distinct hkeys]
    apply find?_unique
    · exact List.mem_map.mpr ⟨(nd, i), List.mem_zipIdx_iff_getElem?.mpr hnd, rfl⟩
    · simp
    · intro entry hentry hname
      obtain ⟨⟨nd', j⟩, hj, rfl⟩ := List.mem_map.mp hentry
      have hj := List.mem_zipIdx_iff_getElem?.mp hj
      have hsame := position_unique names hj hnd (by simpa using hname)
      subst hsame
      rw [hnd] at hj
      cases hj
      rfl
  rw [nodeIdOf, hfind]
  rfl

theorem nodeOf_nodeId {nd : NodeDoc} {i : ℕ} (hnd : doc.nodes[i]? = some nd) :
    (nodeOf doc ids (nd, i)).nodeId = nodeIdAt ids i := nodeIdOf_at ids names hnd

/-- Each compiled node is the one its id finds. -/
theorem nodeById_at {nd : NodeDoc} {i : ℕ} (hnd : doc.nodes[i]? = some nd) :
    (reified doc ids).nodeById (nodeIdAt ids i) = some (nodeOf doc ids (nd, i)) := by
  unfold Graph.nodeById
  apply find?_unique
  · exact mem_reified_nodes.mpr ⟨nd, i, hnd, rfl⟩
  · simp [nodeOf_nodeId ids names hnd]
  · intro node hnode hid
    obtain ⟨nd', j, hj, rfl⟩ := mem_reified_nodes.mp hnode
    simp only [nodeOf_nodeId ids names hj, decide_eq_true_eq] at hid
    have hsame := nodeIdAt_injective hid
    subst hsame
    rw [hnd] at hj
    cases hj
    rfl

/-- Each compiled node is the one its name finds. -/
theorem nodeByName_at {nd : NodeDoc} {i : ℕ} (hnd : doc.nodes[i]? = some nd) :
    (reified doc ids).nodeByName nd.name = some (nodeOf doc ids (nd, i)) := by
  unfold Graph.nodeByName
  apply find?_unique
  · exact mem_reified_nodes.mpr ⟨nd, i, hnd, rfl⟩
  · simp [nodeOf]
  · intro node hnode hname
    obtain ⟨nd', j, hj, rfl⟩ := mem_reified_nodes.mp hnode
    have hsame := position_unique names hj hnd (of_decide_eq_true hname)
    subst hsame
    rw [hnd] at hj
    cases hj
    rfl

/-- The choice ids of a node's id and a choice name, choice names being distinct there. -/
theorem mem_choiceIds_at {nd : NodeDoc} {i p : ℕ} {c : ChoiceDoc}
    (hnd : doc.nodes[i]? = some nd) (hc : (choiceDocs nd)[p]? = some c)
    (choices : ((choiceDocs nd).map (·.name)).Nodup) {choiceId : String} :
    choiceId ∈ (reified doc ids).choiceIds (nodeIdAt ids i) c.name ↔
      choiceId = choiceIdAt ids i p := by
  simp only [Graph.choiceIds, List.mem_flatMap, List.mem_filter, List.mem_map, decide_eq_true_eq]
  constructor
  · rintro ⟨node, ⟨hnode, hid⟩, choice, ⟨hchoice, hname⟩, rfl⟩
    obtain ⟨nd', j, hj, rfl⟩ := mem_reified_nodes.mp hnode
    rw [nodeOf_nodeId ids names hj] at hid
    have hsame := nodeIdAt_injective hid
    subst hsame
    rw [hnd] at hj
    cases hj
    obtain ⟨c', q, hq, rfl⟩ := mem_nodeOf_choices.mp hchoice
    have hpos := position_unique choices hq hc hname
    rw [← hpos]
    rfl
  · rintro rfl
    refine ⟨nodeOf doc ids (nd, i), ⟨mem_reified_nodes.mpr ⟨nd, i, hnd, rfl⟩,
      nodeOf_nodeId ids names hnd⟩, choiceOf ids i (c, p),
      ⟨mem_nodeOf_choices.mpr ⟨c, p, hc, rfl⟩, rfl⟩, rfl⟩

/-- A choice keys the edge compiled from it. -/
theorem edgeForChoice_at {nd : NodeDoc} {i p : ℕ} {c : ChoiceDoc}
    (hnd : doc.nodes[i]? = some nd) (hc : (choiceDocs nd)[p]? = some c)
    (choices : ((choiceDocs nd).map (·.name)).Nodup) :
    (reified doc ids).edgeForChoice (nodeIdAt ids i) c.name
      = some (edgeOf doc ids nd i (c, p)) := by
  unfold Graph.edgeForChoice
  apply find?_unique
  · exact mem_reified_edges.mpr ⟨nd, i, c, p, hnd, hc, rfl⟩
  · have hid := nodeIdOf_at ids names hnd
    have hmem := (mem_choiceIds_at ids names hnd hc choices).mpr rfl
    simp [edgeOf, hid, hmem]
  · intro edge hedge hkeys
    obtain ⟨nd', j, c', q, hj, hq, rfl⟩ := mem_reified_edges.mp hedge
    obtain ⟨hfrom, hchoice⟩ := Bool.and_eq_true_iff.mp hkeys
    have hid := nodeIdOf_at ids names hj
    have hsame := nodeIdAt_injective (hid.symm.trans (of_decide_eq_true hfrom))
    subst hsame
    rw [hnd] at hj
    cases hj
    have hpos := (mem_choiceIds_at ids names hnd hc choices).mp (of_decide_eq_true hchoice)
    have hpq := (choiceIdAt_injective hpos).2
    subst hpq
    rw [hc] at hq
    cases hq
    rfl

end lookup

end Blizzard.GraphReification
