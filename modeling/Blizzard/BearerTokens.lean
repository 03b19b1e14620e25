import Mathlib.Data.List.Nodup
import Mathlib.Logic.Function.Basic

/-! # Bearer tokens

Each holder has at most one current token, known by its hash. A token that is
rotated away or revoked is kept as a revocation, never cleared. Where every
token is issued once, a revoked one is nobody's current token ever again. -/
namespace Blizzard.BearerTokens

variable {K H N : Type*}

/-- A token taken from its holder, and the note of who took it when. -/
structure Revocation (K H N : Type*) where
  holder : K
  tokenHash : H
  note : N
  deriving DecidableEq, Repr

/-- The current token of each holder, and every revocation in the order of its recording. -/
structure Tokens (K H N : Type*) where
  held : K → Option H
  revoked : List (Revocation K H N)

namespace Tokens

def empty (K H N : Type*) : Tokens K H N := ⟨fun _ => none, []⟩

/-- The revocation of the holder's current token, none where it holds none. -/
def revocation (tokens : Tokens K H N) (key : K) (note : N) : List (Revocation K H N) :=
  (tokens.held key).toList.map fun hash => ⟨key, hash, note⟩

section Writes
variable [DecidableEq K]

/-- A new holder's first token. -/
def issue (tokens : Tokens K H N) (key : K) (hash : H) : Tokens K H N where
  held := Function.update tokens.held key (some hash)
  revoked := tokens.revoked

/-- A fresh token for the holder; the one it replaces is revoked in the same write. -/
def rotate (tokens : Tokens K H N) (key : K) (hash : H) (note : N) : Tokens K H N where
  held := Function.update tokens.held key (some hash)
  revoked := tokens.revoked ++ tokens.revocation key note

/-- The holder's current token recorded as revoked and taken away. -/
def revoke (tokens : Tokens K H N) (key : K) (note : N) : Tokens K H N where
  held := Function.update tokens.held key none
  revoked := tokens.revoked ++ tokens.revocation key note

end Writes

/-- Whom a revoked token was issued to: the holder its newest revocation names. -/
def revokedHolder [DecidableEq H] (tokens : Tokens K H N) (hash : H) : Option K :=
  (tokens.revoked.reverse.find? fun row => decide (row.tokenHash = hash)).map (·.holder)

/-- Every token was issued once, to one holder, and none is both held and revoked. -/
structure Sound (issued : List (H × K)) (tokens : Tokens K H N) : Prop where
  once : (issued.map Prod.fst).Nodup
  held : ∀ key hash, tokens.held key = some hash →
    (hash, key) ∈ issued ∧ ∀ row ∈ tokens.revoked, row.tokenHash ≠ hash
  revoked : ∀ row ∈ tokens.revoked, (row.tokenHash, row.holder) ∈ issued

variable {issued : List (H × K)} {tokens : Tokens K H N} {key other : K} {hash : H} {note : N}
  {row : Revocation K H N}

theorem sound_empty : Sound [] (empty K H N) where
  once := List.nodup_nil
  held key hash holds := by cases holds
  revoked row mem := by cases mem

/-- Whoever a token was issued to is its only holder. -/
theorem Sound.eq_of_issued (sound : Sound issued tokens) (mem : (hash, key) ∈ issued)
    (mem' : (hash, other) ∈ issued) : key = other :=
  congrArg Prod.snd (List.inj_on_of_nodup_map sound.once mem mem' rfl)

theorem Sound.eq_of_held (sound : Sound issued tokens) (holds : tokens.held key = some hash)
    (holds' : tokens.held other = some hash) : key = other :=
  sound.eq_of_issued (sound.held key hash holds).1 (sound.held other hash holds').1

theorem mem_revocation : row ∈ tokens.revocation key note ↔
    row.holder = key ∧ tokens.held key = some row.tokenHash ∧ row.note = note := by
  rw [revocation, List.mem_map]
  constructor
  · rintro ⟨hash, holds, rfl⟩
    exact ⟨rfl, Option.mem_toList.mp holds, rfl⟩
  · rintro ⟨rfl, holds, rfl⟩
    exact ⟨row.tokenHash, Option.mem_toList.mpr holds, rfl⟩

/-- A revoked token is no holder's, whatever the revocation added. -/
theorem Sound.revocation_apart (sound : Sound issued tokens) (apart : other ≠ key)
    (holds : tokens.held other = some hash) (mem : row ∈ tokens.revoked ++ tokens.revocation key note) :
    row.tokenHash ≠ hash := by
  rcases List.mem_append.mp mem with old | new
  · exact (sound.held other hash holds).2 row old
  · obtain ⟨-, holds', -⟩ := mem_revocation.mp new
    rintro rfl
    exact apart (sound.eq_of_held holds holds')

theorem Sound.revocation_issued (sound : Sound issued tokens)
    (mem : row ∈ tokens.revoked ++ tokens.revocation key note) :
    (row.tokenHash, row.holder) ∈ issued := by
  rcases List.mem_append.mp mem with old | new
  · exact sound.revoked row old
  · obtain ⟨rfl, holds, -⟩ := mem_revocation.mp new
    exact (sound.held _ _ holds).1

/-- A revoked token is held by nobody. -/
theorem Sound.not_held (sound : Sound issued tokens) (mem : row ∈ tokens.revoked) (key : K) :
    tokens.held key ≠ some row.tokenHash :=
  fun holds => (sound.held key _ holds).2 row mem rfl

variable [DecidableEq K]

theorem sound_revoke (sound : Sound issued tokens) : Sound issued (tokens.revoke key note) where
  once := sound.once
  held other hash holds := by
    by_cases same : other = key
    · subst same
      simp [revoke] at holds
    · simp only [revoke, Function.update_of_ne same] at holds
      exact ⟨(sound.held other hash holds).1, fun row mem => sound.revocation_apart same holds mem⟩
  revoked row mem := sound.revocation_issued mem

/-- A holder takes a token never issued before; what stands revoked was issued. -/
theorem Sound.take (sound : Sound issued tokens) (fresh : hash ∉ issued.map Prod.fst)
    {revoked : List (Revocation K H N)}
    (apart : ∀ other hash', other ≠ key → tokens.held other = some hash' →
      ∀ row ∈ revoked, row.tokenHash ≠ hash')
    (known : ∀ row ∈ revoked, (row.tokenHash, row.holder) ∈ issued) :
    Sound ((hash, key) :: issued) ⟨Function.update tokens.held key (some hash), revoked⟩ where
  once := List.nodup_cons.mpr ⟨fresh, sound.once⟩
  held other hash' holds := by
    by_cases same : other = key
    · subst same
      simp only [Function.update_self] at holds
      obtain rfl := Option.some.inj holds
      refine ⟨List.mem_cons_self, fun row mem => ?_⟩
      rintro rfl
      exact fresh (List.mem_map_of_mem (f := Prod.fst) (known row mem))
    · simp only [Function.update_of_ne same] at holds
      exact ⟨List.mem_cons_of_mem _ (sound.held other hash' holds).1, apart other hash' same holds⟩
  revoked row mem := List.mem_cons_of_mem _ (known row mem)

theorem sound_issue (sound : Sound issued tokens) (fresh : hash ∉ issued.map Prod.fst) :
    Sound ((hash, key) :: issued) (tokens.issue key hash) :=
  sound.take fresh (fun other hash' _ holds => (sound.held other hash' holds).2) sound.revoked

/-- A token never issued before is rotated to. -/
theorem sound_rotate (sound : Sound issued tokens) (fresh : hash ∉ issued.map Prod.fst) :
    Sound ((hash, key) :: issued) (tokens.rotate key hash note) :=
  sound.take fresh
    (fun _ _ apart holds _ mem => sound.revocation_apart apart holds mem)
    fun _ mem => sound.revocation_issued mem

/-- What one write does to the tokens, beside the token it was asked to issue. -/
inductive Step (asked : Option (H × K)) (tokens : Tokens K H N) : Tokens K H N → Prop
  | same : Step asked tokens tokens
  | issue (hash : H) (key : K) (own : asked = some (hash, key)) :
    Step asked tokens (tokens.issue key hash)
  | rotate (hash : H) (key : K) (note : N) (own : asked = some (hash, key)) :
    Step asked tokens (tokens.rotate key hash note)
  | revoke (key : K) (note : N) : Step asked tokens (tokens.revoke key note)

variable {asked : Option (H × K)} {after : Tokens K H N}

/-- A token asked for and never issued is one more that was issued once. -/
theorem Sound.ask (sound : Sound issued tokens)
    (fresh : ∀ entry ∈ asked, entry.1 ∉ issued.map Prod.fst) : Sound (asked.toList ++ issued) tokens := by
  cases asked with
  | none => exact sound
  | some entry =>
    exact {
      once := List.nodup_cons.mpr ⟨fresh entry rfl, sound.once⟩
      held := fun key hash holds =>
        ⟨List.mem_cons_of_mem _ (sound.held key hash holds).1, (sound.held key hash holds).2⟩
      revoked := fun row mem => List.mem_cons_of_mem _ (sound.revoked row mem) }

theorem Sound.step (sound : Sound issued tokens) (step : Step asked tokens after)
    (fresh : ∀ entry ∈ asked, entry.1 ∉ issued.map Prod.fst) : Sound (asked.toList ++ issued) after := by
  cases step with
  | same => exact sound.ask fresh
  | issue hash key own =>
    subst own
    exact sound_issue sound (fresh _ rfl)
  | rotate hash key note own =>
    subst own
    exact sound_rotate sound (fresh _ rfl)
  | revoke key note => exact sound_revoke (sound.ask fresh)

/-- A holder's token is the one it held, or the one just asked for. -/
theorem Step.held (step : Step asked tokens after) (holds : after.held key = some hash) :
    tokens.held key = some hash ∨ asked = some (hash, key) := by
  cases step with
  | same => exact .inl holds
  | issue hash' key' own | rotate hash' key' note own =>
    by_cases same : key = key'
    · subst same
      obtain rfl : hash' = hash := by simpa [Tokens.issue, Tokens.rotate] using holds
      exact .inr own
    · exact .inl (by simpa [Tokens.issue, Tokens.rotate, Function.update_of_ne same] using holds)
  | revoke key' note =>
    by_cases same : key = key'
    · subst same
      simp [Tokens.revoke] at holds
    · exact .inl (by simpa [Tokens.revoke, Function.update_of_ne same] using holds)

/-- A token that was issued and that nobody holds comes back to nobody. -/
theorem Step.gone (step : Step asked tokens after)
    (fresh : ∀ entry ∈ asked, entry.1 ∉ issued.map Prod.fst) (mem : (hash, key) ∈ issued)
    (gone : ∀ other, tokens.held other ≠ some hash) (other : K) : after.held other ≠ some hash := by
  intro holds
  rcases step.held holds with old | own
  · exact gone other old
  · exact fresh _ own (List.mem_map.mpr ⟨_, mem, rfl⟩)

end Tokens

end Blizzard.BearerTokens
