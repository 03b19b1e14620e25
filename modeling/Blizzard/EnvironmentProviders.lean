import Blizzard.HubTables
import Blizzard.ExceptRules
import Mathlib

/-! # The workspace providers' pools

A winter workspace resets the first free environments of its configured pool. A basic workspace
keeps one folder an acquire: it reuses a chunk's own folder, makes a new one under the chunk's
name, and removes released folders, oldest first, when the folders would pass its cap. -/
namespace Blizzard.EnvironmentProviders
open HubTables ExceptRules

structure AcquiredEnvironment where
  environmentId : String
  workdir : String
  deriving DecidableEq, Repr

/-- One step of an acquire on an environment: its folder removed, or reset and made ready. -/
inductive PoolAct
  | evict (environmentId : String)
  | prepare (environmentId : String)
  deriving DecidableEq, Repr

def PoolAct.environmentId : PoolAct → String
  | .evict environmentId => environmentId
  | .prepare environmentId => environmentId

/-- An environment folder carrying the provider's marker, with the chunk the marker names. -/
structure Folder where
  name : String
  chunkId : ChunkId
  deriving DecidableEq, Repr

/-- A basic workspace's root: its managed folders, and the other names taken in it. -/
structure Directory where
  environments : List Folder := []
  others : List String := []
  deriving DecidableEq, Repr

inductive Provider
  | winter (pool : List String)
  | basic (hasRepos : Bool) (maxEnvironments : ℕ)
  deriving DecidableEq, Repr

/-- Why a provider refuses an acquire before it touches any environment. -/
inductive AcquireRefusal
  | poolExhausted
  | noRepos
  | unsafeChunk
  | capExceeded
  | pathExists (name : String)
  | capReached
  | outOfNames
  deriving DecidableEq, Repr

/-! ## The winter provider -/

/-- The pool's environments no one holds. -/
def freeEnvironments (pool heldIds : List String) : List String :=
  pool.filter fun environmentId => decide (environmentId ∉ heldIds)

/-- `WinterWorkspaceProvider._acquire`, up to the resets it goes on to make. -/
def winterAcquire (pool : List String) (count : ℕ) (heldIds : List String) :
    Except AcquireRefusal (List PoolAct) :=
  let free := freeEnvironments pool heldIds
  if free.length < count then .error .poolExhausted else .ok ((free.take count).map .prepare)

/-! ## The basic provider -/

/-- A name `re.fullmatch` takes as `[A-Za-z0-9][A-Za-z0-9_-]*`. -/
def safeName (name : String) : Bool :=
  match name.toList with
  | [] => false
  | first :: rest => first.isAlphanum && rest.all fun c => c.isAlphanum || c == '_' || c == '-'

/-- The name an acquire tries at an index, counted from one. -/
def candidateName (chunkId : ChunkId) (index : ℕ) : String :=
  if index = 1 then chunkId else chunkId ++ "--" ++ toString index

def Directory.find (directory : Directory) (name : String) : Option Folder :=
  directory.environments.find? fun folder => decide (folder.name = name)

/-- The selection loop of `acquire`: the chunk's own or unused names, in the order they are tried.
The fuel bounds the names tried. -/
def selected (directory : Directory) (heldIds : List String) (chunkId : ChunkId) :
    ℕ → ℕ → ℕ → Except AcquireRefusal (List String)
  | _, _, 0 => .ok []
  | 0, _, _ + 1 => .error .outOfNames
  | fuel + 1, index, wanted + 1 =>
    let name := candidateName chunkId index
    if name ∈ heldIds then selected directory heldIds chunkId fuel (index + 1) (wanted + 1)
    else
      match directory.find name with
      | none =>
        if name ∈ directory.others then .error (.pathExists name)
        else (selected directory heldIds chunkId fuel (index + 1) wanted).map (name :: ·)
      | some folder =>
        if folder.chunkId ≠ chunkId then
          selected directory heldIds chunkId fuel (index + 1) (wanted + 1)
        else (selected directory heldIds chunkId fuel (index + 1) wanted).map (name :: ·)

/-- The names an acquire may have to pass over, and those it takes. -/
def nameBound (directory : Directory) (heldIds : List String) (count : ℕ) : ℕ :=
  heldIds.length + directory.environments.length + count

/-- The slice `xs[:n]`: a negative `n` counts from the end. -/
def sliceTo {α : Type} (xs : List α) (n : ℤ) : List α :=
  if 0 ≤ n then xs.take n.toNat else xs.take (xs.length - (-n).toNat)

/-- The released folders the acquire does not select, the least recently changed first. -/
def evictable (directory : Directory) (heldIds chosen : List String) (changedAt : String → ℤ) :
    List Folder :=
  (directory.environments.filter fun folder =>
    decide (folder.name ∉ heldIds) && decide (folder.name ∉ chosen)).mergeSort fun a b =>
      decide (changedAt a.name ≤ changedAt b.name)

/-- How many folders the acquire would leave above the cap. -/
def surplus (directory : Directory) (chosen : List String) (maxEnvironments : ℕ) : ℤ :=
  (directory.environments.length : ℤ) +
    (chosen.filter fun name => (directory.find name).isNone).length - maxEnvironments

/-- `BasicWorkspaceProvider.acquire`, up to the folders it goes on to remove and prepare. -/
def basicAcquire (hasRepos : Bool) (maxEnvironments : ℕ) (directory : Directory) (chunkId : ChunkId)
    (count : ℕ) (heldIds : List String) (changedAt : String → ℤ) :
    Except AcquireRefusal (List PoolAct) :=
  if !hasRepos then .error .noRepos
  else if !safeName chunkId || chunkId == "projects" then .error .unsafeChunk
  else
    let held := heldIds.dedup
    if maxEnvironments < held.length + count then .error .capExceeded
    else do
      let chosen ← selected directory held chunkId (nameBound directory held count) 1 count
      let over_ := surplus directory chosen maxEnvironments
      let released := evictable directory held chosen changedAt
      if (released.length : ℤ) < over_ then .error .capReached
      else
        .ok ((sliceTo released over_).map (fun folder => PoolAct.evict folder.name) ++
          chosen.map PoolAct.prepare)

def Provider.acquire (provider : Provider) (directory : Directory) (chunkId : ChunkId) (count : ℕ)
    (heldIds : List String) (changedAt : String → ℤ) : Except AcquireRefusal (List PoolAct) :=
  match provider with
  | .winter pool => winterAcquire pool count heldIds
  | .basic hasRepos maxEnvironments =>
    basicAcquire hasRepos maxEnvironments directory chunkId count heldIds changedAt

/-- `FreeEnvironments.has_free_environment`: an unbounded pool always counts as free. -/
def hasFreeEnvironment (provider : Provider) (heldIds : List String) : Bool :=
  match provider with
  | .basic _ _ => true
  | .winter [] => true
  | .winter pool => pool.any fun environmentId => decide (environmentId ∉ heldIds)

/-! ## The folders -/

def Directory.removed (directory : Directory) (name : String) : Directory :=
  { directory with
    environments := directory.environments.filter fun folder => decide (folder.name ≠ name) }

def Directory.prepared (directory : Directory) (chunkId : ChunkId) (name : String) : Directory :=
  { directory with environments := (directory.removed name).environments ++ [⟨name, chunkId⟩] }

/-- The folders once a step of an acquire for the chunk is through. -/
def PoolAct.apply (chunkId : ChunkId) (directory : Directory) : PoolAct → Directory
  | .evict name => directory.removed name
  | .prepare name => directory.prepared chunkId name

/-- What a failed step leaves of its environment's folder: an unmarked one is no environment, but
its name is taken. -/
inductive Remains
  | untouched
  | gone
  | unmarked
  | marked
  deriving DecidableEq, Repr

/-- The folders where a step fails. -/
def PoolAct.fail (chunkId : ChunkId) (directory : Directory) (act : PoolAct) :
    Remains → Directory
  | .untouched => directory
  | .gone => directory.removed act.environmentId
  | .unmarked =>
    ⟨(directory.removed act.environmentId).environments, directory.others ++ [act.environmentId]⟩
  | .marked =>
    match act with
    | .evict _ => directory
    | .prepare name => directory.prepared chunkId name

/-! ## What an acquire chooses -/

variable {directory : Directory} {heldIds names : List String} {chunkId : ChunkId}

theorem candidateName_injective {i j : ℕ} (same : candidateName chunkId i = candidateName chunkId j) :
    i = j := by
  have longer : ∀ n : ℕ, chunkId ≠ chunkId ++ "--" ++ toString n := by
    intro n equal
    have lengths := congrArg String.length equal
    have dashes : "--".length = 2 := rfl
    simp only [String.length_append, dashes] at lengths
    omega
  rw [candidateName, candidateName] at same
  split_ifs at same with first second second
  · exact first.trans second.symm
  · exact absurd same (longer j)
  · exact absurd same.symm (longer i)
  · exact Nat.repr_injective ((String.append_right_inj _).mp same)

/-- What a selection answers from an index on. -/
structure Chosen (heldIds : List String) (chunkId : ChunkId) (index wanted : ℕ)
    (names : List String) : Prop where
  count : names.length = wanted
  free : ∀ name ∈ names, name ∉ heldIds
  own : ∀ name ∈ names, ∃ i, index ≤ i ∧ name = candidateName chunkId i
  distinct : names.Nodup

theorem Chosen.later {index wanted : ℕ} (chosen : Chosen heldIds chunkId (index + 1) wanted names) :
    Chosen heldIds chunkId index wanted names where
  count := chosen.count
  free := chosen.free
  own name mem := by
    obtain ⟨i, le, same⟩ := chosen.own name mem
    exact ⟨i, by omega, same⟩
  distinct := chosen.distinct

/-- A name not held is taken before the later ones. -/
theorem Chosen.cons {index wanted : ℕ} (chosen : Chosen heldIds chunkId (index + 1) wanted names)
    (free : candidateName chunkId index ∉ heldIds) :
    Chosen heldIds chunkId index (wanted + 1) (candidateName chunkId index :: names) where
  count := by rw [List.length_cons, chosen.count]
  free name mem := by
    rcases List.mem_cons.mp mem with rfl | mem
    · exact free
    · exact chosen.free name mem
  own name mem := by
    rcases List.mem_cons.mp mem with rfl | mem
    · exact ⟨index, le_refl _, rfl⟩
    · obtain ⟨i, le, same⟩ := chosen.own name mem
      exact ⟨i, by omega, same⟩
  distinct := by
    refine List.nodup_cons.mpr ⟨?_, chosen.distinct⟩
    intro mem
    obtain ⟨i, le, same⟩ := chosen.own _ mem
    have := candidateName_injective same
    omega

theorem selected_chosen {fuel index wanted : ℕ}
    (answered : selected directory heldIds chunkId fuel index wanted = .ok names) :
    Chosen heldIds chunkId index wanted names := by
  induction fuel generalizing index wanted names with
  | zero =>
    cases wanted with
    | zero =>
      cases answered
      exact ⟨rfl, by simp, by simp, List.nodup_nil⟩
    | succ wanted => cases answered
  | succ fuel ih =>
    cases wanted with
    | zero =>
      cases answered
      exact ⟨rfl, by simp, by simp, List.nodup_nil⟩
    | succ wanted =>
      rw [selected] at answered
      by_cases held : candidateName chunkId index ∈ heldIds
      · rw [if_pos held] at answered
        exact (ih answered).later
      rw [if_neg held] at answered
      have taken : ∀ {rest : Except AcquireRefusal (List String)},
          rest = selected directory heldIds chunkId fuel (index + 1) wanted →
          rest.map (candidateName chunkId index :: ·) = .ok names →
          Chosen heldIds chunkId index (wanted + 1) names := by
        rintro rest rfl mapped
        obtain ⟨later, inner, rfl⟩ := map_ok mapped
        exact (ih inner).cons held
      cases found : directory.find (candidateName chunkId index) with
      | none =>
        simp only [found] at answered
        split at answered
        · cases answered
        · exact taken rfl answered
      | some folder =>
        simp only [found] at answered
        split at answered
        · exact (ih answered).later
        · exact taken rfl answered

/-- A selection ends: each name passed over is a held one's or a folder's, and no name is tried
twice. -/
theorem selected_ends {fuel index wanted : ℕ} {blocked : List String}
    (passed : ∀ i, index ≤ i → candidateName chunkId i ∈ heldIds ∨
      (directory.find (candidateName chunkId i)).isSome → candidateName chunkId i ∈ blocked)
    (enough : blocked.length + wanted ≤ fuel) :
    selected directory heldIds chunkId fuel index wanted ≠ .error .outOfNames := by
  induction fuel generalizing index wanted blocked with
  | zero =>
    have none_ : wanted = 0 := by omega
    subst none_
    simp [selected]
  | succ fuel ih =>
    cases wanted with
    | zero => simp [selected]
    | succ wanted =>
      have skipped : candidateName chunkId index ∈ blocked →
          selected directory heldIds chunkId fuel (index + 1) (wanted + 1) ≠ .error .outOfNames := by
        intro mem
        refine @ih (index + 1) (wanted + 1) (blocked.erase (candidateName chunkId index)) ?_ ?_
        · intro i le why
          refine (List.mem_erase_of_ne ?_).mpr (passed i (by omega) why)
          intro same
          have := candidateName_injective same
          omega
        · have := List.length_erase_of_mem mem
          have := List.length_pos_of_mem mem
          omega
      have taken : (selected directory heldIds chunkId fuel (index + 1) wanted).map
          (candidateName chunkId index :: ·) ≠ .error .outOfNames := by
        have rest := @ih (index + 1) wanted blocked (fun i le => passed i (by omega)) (by omega)
        intro ended
        cases inner : selected directory heldIds chunkId fuel (index + 1) wanted with
        | error refusal =>
          rw [inner] at ended rest
          cases ended
          exact rest rfl
        | ok later =>
          rw [inner] at ended
          cases ended
      rw [selected]
      by_cases held : candidateName chunkId index ∈ heldIds
      · rw [if_pos held]
        exact skipped (passed index (le_refl _) (.inl held))
      rw [if_neg held]
      cases found : directory.find (candidateName chunkId index) with
      | none =>
        simp only
        split
        · simp
        · exact taken
      | some folder =>
        simp only
        split
        · exact skipped (passed index (le_refl _) (.inr (by simp [found])))
        · exact taken

end Blizzard.EnvironmentProviders
