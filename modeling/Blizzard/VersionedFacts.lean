import Mathlib.Data.List.Basic
import Mathlib.Data.Nat.Basic
import Mathlib.Order.Basic

/-! # Facts under a version

A log of facts about keys, each under the next id of the log. A key's version is
the id of its newest fact, zero before any. A version that has not moved since
it was read says that the key has had no newer fact. -/
namespace Blizzard.VersionedFacts

variable {K V : Type*}

structure Fact (K V : Type*) where
  id : ℕ
  key : K
  value : V
  deriving DecidableEq, Repr

/-- The facts in the order of their ids, and the id the next one takes. -/
structure Log (K V : Type*) where
  facts : List (Fact K V)
  nextId : ℕ
  positive : 0 < nextId
  bounded : ∀ fact ∈ facts, fact.id < nextId

namespace Log

def empty (K V : Type*) : Log K V := ⟨[], 1, Nat.one_pos, by simp⟩

def append (log : Log K V) (key : K) (value : V) : Log K V where
  facts := log.facts ++ [⟨log.nextId, key, value⟩]
  nextId := log.nextId + 1
  positive := Nat.succ_pos _
  bounded fact mem := by
    rcases List.mem_append.mp mem with old | new
    · exact Nat.lt_succ_of_lt (log.bounded fact old)
    · rw [List.mem_singleton.mp new]
      exact Nat.lt_succ_self _

variable {log after last : Log K V} {key other : K}

/-- The facts of one key. -/
def of [DecidableEq K] (log : Log K V) (key : K) : List (Fact K V) :=
  log.facts.filter fun fact => decide (fact.key = key)

def newest [DecidableEq K] (log : Log K V) (key : K) : Option (Fact K V) := (log.of key).getLast?

def version [DecidableEq K] (log : Log K V) (key : K) : ℕ := (log.newest key).elim 0 Fact.id

/-- What the key's newest fact says. -/
def value [DecidableEq K] (log : Log K V) (key : K) : Option V := (log.newest key).map Fact.value

/-- The later log holds the facts of the earlier one, and then others under ids of their own. -/
structure Extends (log after : Log K V) : Prop where
  facts : ∃ more, after.facts = log.facts ++ more ∧ ∀ fact ∈ more, log.nextId ≤ fact.id
  nextId : log.nextId ≤ after.nextId

theorem Extends.refl (log : Log K V) : log.Extends log where
  facts := ⟨[], by simp, by simp⟩
  nextId := le_rfl

theorem Extends.trans (grown : log.Extends after) (grown' : after.Extends last) :
    log.Extends last := by
  obtain ⟨more, own, above⟩ := grown.facts
  obtain ⟨more', own', above'⟩ := grown'.facts
  refine ⟨⟨more ++ more', by rw [own', own, List.append_assoc], fun fact mem => ?_⟩,
    grown.nextId.trans grown'.nextId⟩
  rcases List.mem_append.mp mem with mem | mem
  · exact above fact mem
  · exact grown.nextId.trans (above' fact mem)

theorem extends_append (log : Log K V) (key : K) (value : V) : log.Extends (log.append key value) where
  facts := ⟨_, rfl, by simp⟩
  nextId := Nat.le_succ _

variable [DecidableEq K]

@[simp] theorem of_empty (key : K) : (empty K V).of key = [] := rfl

@[simp] theorem of_append_self (log : Log K V) (key : K) (value : V) :
    (log.append key value).of key = log.of key ++ [⟨log.nextId, key, value⟩] := by
  simp [of, append]

theorem of_append_other (apart : other ≠ key) (value : V) :
    (log.append key value).of other = log.of other := by
  simp [of, append, apart.symm]

@[simp] theorem version_append_self (log : Log K V) (key : K) (value : V) :
    (log.append key value).version key = log.nextId := by
  simp [version, newest]

@[simp] theorem value_append_self (log : Log K V) (key : K) (value : V) :
    (log.append key value).value key = some value := by
  simp [Log.value, newest]

theorem version_append_other (apart : other ≠ key) (value : V) :
    (log.append key value).version other = log.version other := by
  rw [version, newest, of_append_other apart, version, newest]

theorem value_append_other (apart : other ≠ key) (value : V) :
    (log.append key value).value other = log.value other := by
  rw [Log.value, newest, of_append_other apart, Log.value, newest]

theorem version_lt (log : Log K V) (key : K) : log.version key < log.nextId := by
  rw [version, newest]
  cases last : (log.of key).getLast? with
  | none => exact log.positive
  | some fact => exact log.bounded fact (List.mem_filter.mp (List.mem_of_getLast? last)).1

/-- A key with no fact is the one at version zero, where ids are positive. -/
theorem of_eq_nil_iff : log.of key = [] ↔ log.value key = none := by
  rw [Log.value, Option.map_eq_none_iff, newest, List.getLast?_eq_none_iff]

/-- The facts of a key either stand as they did, or its version has risen. -/
theorem Extends.of_or (grown : log.Extends after) (key : K) :
    after.of key = log.of key ∨ log.version key < after.version key := by
  obtain ⟨more, own, above⟩ := grown.facts
  have parts : after.of key = log.of key ++ more.filter fun fact => decide (fact.key = key) := by
    rw [of, own, List.filter_append, of]
  cases last : (more.filter fun fact => decide (fact.key = key)).getLast? with
  | none =>
    rw [List.getLast?_eq_none_iff] at last
    exact .inl (by rw [parts, last, List.append_nil])
  | some fact =>
    have newest : after.newest key = some fact := by
      rw [newest, parts, List.getLast?_append, last, Option.some_or]
    have reach := above fact (List.mem_filter.mp (List.mem_of_getLast? last)).1
    have risen : after.version key = fact.id := by rw [version, newest, Option.elim_some]
    exact .inr (risen ▸ (log.version_lt key).trans_le reach)

theorem Extends.version_le (grown : log.Extends after) (key : K) :
    log.version key ≤ after.version key := by
  rcases grown.of_or key with same | risen
  · rw [version, version, newest, newest, same]
  · exact risen.le

/-- A key with as many facts as before has had none since. -/
theorem Extends.version_eq (grown : log.Extends after) {key : K}
    (unmoved : (after.of key).length = (log.of key).length) : after.version key = log.version key := by
  obtain ⟨more, own, -⟩ := grown.facts
  have parts : after.of key = log.of key ++ more.filter fun fact => decide (fact.key = key) := by
    rw [of, own, List.filter_append, of]
  have none_ : more.filter (fun fact => decide (fact.key = key)) = [] := by
    rw [parts, List.length_append] at unmoved
    exact List.length_eq_zero_iff.mp (by omega)
  rw [version, newest, parts, none_, List.append_nil, version, newest]

/-- A read of the key's version and value, which holds while the version stands. -/
structure Saw (log : Log K V) (key : K) (at_ : ℕ) (seen : Option V) : Prop where
  reached : at_ ≤ log.version key
  stands : log.version key = at_ → log.value key = seen

theorem saw_now (log : Log K V) (key : K) : log.Saw key (log.version key) (log.value key) :=
  ⟨le_rfl, fun _ => rfl⟩

theorem Saw.later {at_ : ℕ} {seen : Option V} (saw : log.Saw key at_ seen)
    (grown : log.Extends after) : after.Saw key at_ seen where
  reached := saw.reached.trans (grown.version_le key)
  stands same := by
    rcases grown.of_or key with still | risen
    · have value : after.value key = log.value key := by
        rw [Log.value, Log.value, newest, newest, still]
      have unmoved : after.version key = log.version key := by
        rw [Log.version, Log.version, newest, newest, still]
      rw [value]
      exact saw.stands (unmoved.symm.trans same)
    · have reached := saw.reached
      omega

end Log

end Blizzard.VersionedFacts
