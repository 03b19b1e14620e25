import Mathlib.Data.List.Nodup
import Blizzard.CadenceRecords

/-! # What a merge of chores leaves

Chores of distinct keys, read by key; what the merge by key says of the chores
it leaves and of the keys it reports, and when its change entries are empty. -/
namespace Blizzard.CadenceMerges
open HubTables CadenceRecords ExceptRules

variable {chores stored : List Chore} {chore held : Chore} {key : String} {spec : ChoreSpec}
  {declared : List ChoreSpec} {mint : String → String} {at_ : Instant}

theorem byKey_some (found : byKey chores key = some chore) : chore ∈ chores ∧ chore.key = key :=
  ⟨List.mem_reverse.mp (List.mem_of_find?_eq_some found), by simpa using List.find?_some found⟩

theorem byKey_none : byKey chores key = none ↔ key ∉ chores.map Chore.key := by
  simp [byKey, List.find?_eq_none]

theorem byKey_of_mem (keys : (chores.map Chore.key).Nodup) (mem : chore ∈ chores) :
    byKey chores chore.key = some chore := by
  cases found : byKey chores chore.key with
  | none => exact absurd (List.mem_map_of_mem mem) (byKey_none.mp found)
  | some other =>
    obtain ⟨listed, same⟩ := byKey_some found
    rw [List.inj_on_of_nodup_map keys listed mem same]

/-- Chores of one list, under the keys of another of distinct keys, are that other. -/
theorem eq_of_keys_eq (keys : (stored.map Chore.key).Nodup)
    (same : chores.map Chore.key = stored.map Chore.key) (mem : ∀ chore ∈ chores, chore ∈ stored) :
    chores = stored := by
  have read : ∀ list : List Chore, (∀ chore ∈ list, chore ∈ stored) →
      list.map some = (list.map Chore.key).map (byKey stored) := by
    intro list within
    rw [List.map_map]
    apply List.map_congr_left
    intro chore of
    exact (byKey_of_mem keys (within chore of)).symm
  have equal : chores.map some = stored.map some := by
    rw [read chores mem, read stored fun _ of => of, same]
  exact List.map_injective_iff.mpr (Option.some_injective Chore) equal

/-- The scope set a chore names: its selection, and which slugs it lists. -/
def SameScopes (spec other : ChoreSpec) : Prop :=
  spec.selection = other.selection ∧ ∀ slug, slug ∈ spec.scopes ↔ slug ∈ other.scopes

theorem namesSameScopes_iff (spec other : ChoreSpec) :
    spec.namesSameScopes other = true ↔ SameScopes spec other := by
  simp only [ChoreSpec.namesSameScopes, SameScopes, Bool.and_eq_true, decide_eq_true_eq,
    List.all_eq_true]
  constructor
  · rintro ⟨selection, left, right⟩
    exact ⟨selection, fun slug => ⟨left slug, right slug⟩⟩
  · rintro ⟨selection, scopes⟩
    exact ⟨selection, fun slug => (scopes slug).mp, fun slug => (scopes slug).mpr⟩

theorem SameScopes.refl (spec : ChoreSpec) : SameScopes spec spec :=
  ⟨rfl, fun _ => Iff.rfl⟩

/-- What a chore of the merge is to the stored one of its key. -/
structure Matched (held chore : Chore) (at_ : Instant) : Prop where
  id : chore.choreId = held.choreId
  stays : SameScopes held.spec chore.spec → chore.scopesSetAt = held.scopesSetAt
  moves : ¬ SameScopes held.spec chore.spec → chore.scopesSetAt = at_
  whole : chore.spec = held.spec → chore = held

theorem Matched.refl (chore : Chore) (at_ : Instant) : Matched chore chore at_ :=
  ⟨rfl, fun _ => rfl, fun other => absurd (.refl _) other, fun _ => rfl⟩

/-- What a merge says of the chores it leaves and of the keys it reports. -/
structure Merges (mint : String → String) (at_ : Instant) (stored : List Chore)
    (merge : ChoreMerge) : Prop where
  keys : (merge.chores.map Chore.key).Nodup
  matched : ∀ held ∈ stored, ∀ chore ∈ merge.chores, chore.key = held.key →
    Matched held chore at_
  minted : ∀ chore ∈ merge.chores, chore.key ∉ stored.map Chore.key →
    chore.choreId = mint chore.key ∧ chore.scopesSetAt = at_
  added : ∀ key, key ∈ merge.added ↔
    key ∈ merge.chores.map Chore.key ∧ key ∉ stored.map Chore.key
  removed : ∀ key, key ∈ merge.removed ↔
    key ∈ stored.map Chore.key ∧ key ∉ merge.chores.map Chore.key
  changed : ∀ key, key ∈ merge.changed ↔
    ∃ held ∈ stored, ∃ chore ∈ merge.chores, held.key = key ∧ chore.key = key ∧
      held.spec ≠ chore.spec

theorem mergedChore_none (none_ : byKey stored spec.key = none) :
    mergedChore mint stored at_ spec = ⟨mint spec.key, spec, at_⟩ := by
  rw [mergedChore, none_]

theorem mergedChore_spec : (mergedChore mint stored at_ spec).spec = spec := by
  rw [mergedChore]
  split
  · rfl
  · split
    · assumption
    · rfl

theorem mergedChore_key : (mergedChore mint stored at_ spec).key = spec.key := by
  rw [Chore.key, mergedChore_spec]

theorem mergedChore_matched (some_ : byKey stored spec.key = some held) :
    Matched held (mergedChore mint stored at_ spec) at_ := by
  by_cases same : held.spec = spec
  · have kept : mergedChore mint stored at_ spec = held := by
      rw [mergedChore, some_]
      exact if_pos same
    rw [kept]
    exact .refl held at_
  · have written : mergedChore mint stored at_ spec =
        ⟨held.choreId, spec,
          if held.spec.namesSameScopes spec then held.scopesSetAt else at_⟩ := by
      rw [mergedChore, some_]
      exact if_neg same
    rw [written]
    refine ⟨rfl, ?_, ?_, fun equal => absurd equal.symm same⟩
    · intro scopes
      exact if_pos ((namesSameScopes_iff _ _).mpr scopes)
    · intro scopes
      exact if_neg fun named => scopes ((namesSameScopes_iff _ _).mp named)

theorem merged_keys :
    (declared.map (mergedChore mint stored at_)).map Chore.key = declared.map (·.key) := by
  rw [List.map_map]
  exact List.map_congr_left fun spec _ => mergedChore_key

/-- The merge of chores declared under distinct keys with stored ones of distinct keys. -/
theorem mergeChores_merges (stored_keys : (stored.map Chore.key).Nodup)
    (declared_keys : (declared.map (·.key)).Nodup) :
    Merges mint at_ stored (mergeChores mint stored declared at_) := by
  refine ⟨?_, ?_, ?_, ?_, ?_, ?_⟩
  · change ((declared.map (mergedChore mint stored at_)).map Chore.key).Nodup
    rw [merged_keys]
    exact declared_keys
  · intro held mem chore of same
    obtain ⟨spec, _, rfl⟩ := List.mem_map.mp of
    rw [mergedChore_key] at same
    apply mergedChore_matched
    rw [same]
    exact byKey_of_mem stored_keys mem
  · intro chore of fresh
    obtain ⟨spec, _, rfl⟩ := List.mem_map.mp of
    rw [mergedChore_key] at fresh ⊢
    rw [mergedChore_none (byKey_none.mpr fresh)]
    exact ⟨rfl, rfl⟩
  · intro key
    change key ∈ (declared.filter _).map _ ↔
      key ∈ (declared.map (mergedChore mint stored at_)).map Chore.key ∧ _
    rw [merged_keys]
    simp only [List.mem_map, List.mem_filter, Option.isNone_iff_eq_none, byKey_none]
    constructor
    · rintro ⟨spec, ⟨of, fresh⟩, rfl⟩
      exact ⟨⟨spec, of, rfl⟩, by simpa using fresh⟩
    · rintro ⟨⟨spec, of, rfl⟩, fresh⟩
      exact ⟨spec, ⟨of, by simpa using fresh⟩, rfl⟩
  · intro key
    change key ∈ (stored.filter _).map _ ↔
      _ ∧ key ∉ (declared.map (mergedChore mint stored at_)).map Chore.key
    rw [merged_keys]
    simp only [List.mem_map, List.mem_filter, decide_eq_true_eq]
    constructor
    · rintro ⟨chore, ⟨of, gone⟩, rfl⟩
      exact ⟨⟨chore, of, rfl⟩, gone⟩
    · rintro ⟨⟨chore, of, rfl⟩, gone⟩
      exact ⟨chore, ⟨of, gone⟩, rfl⟩
  · intro key
    simp only [mergeChores, List.mem_map, List.mem_filter, Option.any_eq_true, decide_eq_true_eq]
    constructor
    · rintro ⟨spec, ⟨of, held, found, differs⟩, rfl⟩
      obtain ⟨mem, same⟩ := byKey_some found
      refine ⟨held, mem, _, ⟨spec, of, rfl⟩, same, mergedChore_key, ?_⟩
      rw [mergedChore_spec]
      exact differs
    · rintro ⟨held, mem, _, ⟨spec, of, rfl⟩, rfl, same, differs⟩
      rw [mergedChore_key] at same
      rw [mergedChore_spec] at differs
      refine ⟨spec, ⟨of, held, ?_, differs⟩, same⟩
      rw [same]
      exact byKey_of_mem stored_keys mem

/-- Chores an edit does not state are left as they stand. -/
theorem untouched_merges (keys : (stored.map Chore.key).Nodup) :
    Merges mint at_ stored { chores := stored } := by
  refine ⟨keys, ?_, ?_, by simp, by simp, ?_⟩
  · intro held mem chore of same
    rw [List.inj_on_of_nodup_map keys of mem same]
    exact .refl held at_
  · intro chore of fresh
    exact absurd (List.mem_map_of_mem of) fresh
  · intro key
    simp only [List.not_mem_nil, false_iff]
    rintro ⟨held, mem, chore, of, rfl, same, differs⟩
    rw [List.inj_on_of_nodup_map keys of mem same] at differs
    exact differs rfl

variable {merge : ChoreMerge}

theorem choreChanges_eq_nil : choreChanges stored merge = [] ↔
    merge.added = [] ∧ merge.changed = [] ∧ merge.removed = [] ∧
      keptOrder stored merge.chores = keptOrder merge.chores stored := by
  simp only [choreChanges, List.append_eq_nil_iff, List.map_eq_nil_iff, ite_eq_right_iff,
    List.cons_ne_nil, imp_false, not_not, and_assoc]

/-- The entries of the chores: those added, changed and removed, and the order where it moved. -/
theorem mem_choreChanges {change : FieldChange} : change ∈ choreChanges stored merge ↔
    (∃ key ∈ merge.added, change = ⟨choreField key, .none, keyedValue merge.chores key⟩) ∨
    (∃ key ∈ merge.changed,
      change = ⟨choreField key, keyedValue stored key, keyedValue merge.chores key⟩) ∨
    (∃ key ∈ merge.removed, change = ⟨choreField key, keyedValue stored key, .none⟩) ∨
    (keptOrder stored merge.chores ≠ keptOrder merge.chores stored ∧
      change = ⟨"chores.order", .order (keptOrder stored merge.chores),
        .order (keptOrder merge.chores stored)⟩) := by
  simp only [choreChanges, List.mem_append, List.mem_map, or_assoc, @eq_comm FieldChange _ change]
  split
  · rename_i moved
    simp [moved]
  · rename_i stands
    simp [not_not.mp stands]

/-- No change entry of the chores, exactly where the merge leaves the stored list. -/
theorem choreChanges_nil_iff (keys : (stored.map Chore.key).Nodup)
    (merges : Merges mint at_ stored merge) :
    choreChanges stored merge = [] ↔ merge.chores = stored := by
  rw [choreChanges_eq_nil]
  constructor
  · rintro ⟨added, changed, removed, order⟩
    have known : ∀ key ∈ merge.chores.map Chore.key, key ∈ stored.map Chore.key := by
      intro key of
      by_contra fresh
      have := (merges.added key).mpr ⟨of, fresh⟩
      simp [added] at this
    have kept : ∀ key ∈ stored.map Chore.key, key ∈ merge.chores.map Chore.key := by
      intro key of
      by_contra gone
      have := (merges.removed key).mpr ⟨of, gone⟩
      simp [removed] at this
    have left : keptOrder stored merge.chores = stored.map Chore.key :=
      List.filter_eq_self.mpr fun key of => decide_eq_true (kept key of)
    have right : keptOrder merge.chores stored = merge.chores.map Chore.key :=
      List.filter_eq_self.mpr fun key of => decide_eq_true (known key of)
    have same : merge.chores.map Chore.key = stored.map Chore.key := by
      rw [← left, order, right]
    apply eq_of_keys_eq keys same
    intro chore of
    obtain ⟨held, mem, equal⟩ := List.mem_map.mp (known _ (List.mem_map_of_mem of))
    have spec_eq : chore.spec = held.spec := by
      by_contra differs
      have := (merges.changed chore.key).mpr
        ⟨held, mem, chore, of, equal, rfl, fun h => differs h.symm⟩
      simp [changed] at this
    rw [(merges.matched held mem chore of equal.symm).whole spec_eq]
    exact mem
  · intro same
    refine ⟨?_, ?_, ?_, by rw [same]⟩
    · apply List.eq_nil_iff_forall_not_mem.mpr
      intro key of
      obtain ⟨listed, fresh⟩ := (merges.added key).mp of
      exact fresh (same ▸ listed)
    · apply List.eq_nil_iff_forall_not_mem.mpr
      intro key of
      obtain ⟨held, mem, chore, listed, rfl, equal, differs⟩ := (merges.changed key).mp of
      rw [same] at listed
      rw [List.inj_on_of_nodup_map keys listed mem equal] at differs
      exact differs rfl
    · apply List.eq_nil_iff_forall_not_mem.mpr
      intro key of
      obtain ⟨listed, gone⟩ := (merges.removed key).mp of
      exact gone (same ▸ listed)

variable {specs : List ChoreSpec} {shapes : List ChoreShape} {shape : ChoreShape} {where_ : String}

/-- A validated chore keeps the key as written. -/
theorem choreSpec_key (parsed : choreSpec shape where_ = .ok spec) :
    shape.key = some spec.key := by
  rw [choreSpec] at parsed
  split at parsed
  · cases parsed
  · rename_i stated
    obtain ⟨parsedKey, slug, rest⟩ := bind_ok parsed
    have same : shape.key.getD "" = parsedKey := by
      rw [parseSlug] at slug
      split at slug
      · exact Except.ok.inj slug
      · cases slug
    split at rest
    · cases rest
    · obtain ⟨scopes, _, rest⟩ := bind_ok rest
      obtain ⟨mode, _, rest⟩ := bind_ok rest
      cases rest
      cases written : shape.key with
      | none => simp [written] at stated
      | some key =>
        rw [written] at same
        exact congrArg some same

/-- Chores that parse have the keys as written, each once, and none already seen. -/
theorem parseChoresFrom_keys {index : ℕ} {seen : List String}
    (parsed : parseChoresFrom index seen shapes = .ok specs) :
    specs.map (fun spec => some spec.key) = shapes.map (·.key) ∧ (specs.map (·.key)).Nodup ∧
      ∀ spec ∈ specs, spec.key ∉ seen := by
  induction shapes generalizing index seen specs with
  | nil =>
    cases parsed
    simp
  | cons shape shapes ih =>
    obtain ⟨spec, first, rest⟩ := bind_ok parsed
    split at rest
    · cases rest
    · rename_i fresh
      obtain ⟨others, later, rest⟩ := bind_ok rest
      cases rest
      obtain ⟨keys, nodup, apart⟩ := ih later
      refine ⟨?_, ?_, ?_⟩
      · rw [List.map_cons, List.map_cons, keys, choreSpec_key first]
      · rw [List.map_cons, List.nodup_cons]
        refine ⟨?_, nodup⟩
        intro mem
        obtain ⟨other, of, same⟩ := List.mem_map.mp mem
        exact apart other of (same ▸ List.mem_cons_self)
      · intro other of
        rcases List.mem_cons.mp of with rfl | of
        · exact fresh
        · exact fun mem => apart other of (List.mem_cons_of_mem _ mem)

theorem parseChores_keys (parsed : parseChores shapes = .ok specs) :
    specs.map (fun spec => some spec.key) = shapes.map (·.key) ∧ (specs.map (·.key)).Nodup :=
  let ⟨keys, nodup, _⟩ := parseChoresFrom_keys parsed
  ⟨keys, nodup⟩

end Blizzard.CadenceMerges
