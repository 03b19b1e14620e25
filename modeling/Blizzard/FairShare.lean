import Mathlib.Data.List.Sort
import Mathlib.Algebra.Order.BigOperators.Group.List
import Mathlib.Algebra.Order.Ring.Nat
import Mathlib.Tactic.Ring
import Blizzard.BoundedLoops

/-! # A bounded pass's fair share

One item of each tenant in turn, round after round, until the limit is met or
nothing is left; and the rotation a hub-wide pass hands it, one tenant further
with each pass. -/
namespace Blizzard.FairShare
open BoundedLoops

abbrev TenantId := String

/-- A mapping of tenants to their due items. -/
structure Due (T : Type*) where
  tenants : List TenantId
  items : TenantId → List T
  nodup : tenants.Nodup

variable {T : Type*}

/-- What has been taken of each tenant, and how many rounds that took. -/
structure Taking (T : Type*) where
  taken : TenantId → List T
  depth : ℕ

/-- The number of items over `tenants`. -/
def total (tenants : List TenantId) (items : TenantId → List T) : ℕ :=
  (tenants.map fun tenant => (items tenant).length).sum

/-- The tenants by name, from the `start`-th on. -/
def inTurn (due : Due T) (start : ℕ) : List TenantId :=
  let tenants := due.tenants.insertionSort (· ≤ ·)
  tenants.drop (start % tenants.length) ++ tenants.take (start % tenants.length)

/-- The tenants that hold an item at this depth. -/
def roundOf (due : Due T) (tenants : List TenantId) (depth : ℕ) : List TenantId :=
  tenants.filter fun tenant => decide (depth < (due.items tenant).length)

/-- The first tenants of the round, as many as the limit still has room for. -/
def served (due : Due T) (limit : ℤ) (tenants : List TenantId) (taking : Taking T) :
    List TenantId :=
  (roundOf due tenants taking.depth).take (limit - total tenants taking.taken).toNat

/-- One round: each tenant served has its item at this depth taken. -/
def takeRound (due : Due T) (limit : ℤ) (tenants : List TenantId) (taking : Taking T) :
    Option (Taking T) :=
  if (total tenants taking.taken : ℤ) < limit then
    if roundOf due tenants taking.depth = [] then none
    else
      some {
        taken := fun tenant =>
          if tenant ∈ served due limit tenants taking then
            taking.taken tenant ++ (due.items tenant)[taking.depth]?.toList
          else taking.taken tenant
        depth := taking.depth + 1 }
  else none

/-- Up to `limit` of `due`, one item per tenant in turn from the `start`-th tenant by name; no
more rounds than there are items. -/
def fairShare (due : Due T) (limit : ℤ) (start : ℕ) : Option (TenantId → List T) :=
  (loop (takeRound due limit (inTurn due start)) (total due.tenants due.items + 1)
    ⟨fun _ => [], 0⟩).map (·.taken)

/-- The shares of consecutive hub-wide passes, the rotation one further with each. -/
def sweeps (limit : ℤ) : ℕ → List (Due T) → List (Option (TenantId → List T))
  | _, [] => []
  | rotation, due :: later => fairShare due limit rotation :: sweeps limit (rotation + 1) later

variable {due : Due T} {limit : ℤ} {tenants : List TenantId} {taking next : Taking T}
  {tenant : TenantId}

theorem inTurn_perm (due : Due T) (start : ℕ) : (inTurn due start).Perm due.tenants := by
  have turned : (inTurn due start).Perm (due.tenants.insertionSort (· ≤ ·)) := by
    rw [inTurn]
    refine List.perm_append_comm.trans ?_
    rw [List.take_append_drop]
  exact turned.trans (due.tenants.perm_insertionSort _)

theorem total_perm {others : List TenantId} (same : tenants.Perm others)
    (items : TenantId → List T) : total tenants items = total others items :=
  (same.map _).sum_eq

/-- A total of which no part is left out. -/
theorem length_le_total {items : TenantId → List T} (mem : tenant ∈ tenants) :
    (items tenant).length ≤ total tenants items :=
  List.le_sum_of_mem (List.mem_map.mpr ⟨tenant, mem, rfl⟩)

theorem total_empty (tenants : List TenantId) : total tenants (fun _ => ([] : List T)) = 0 := by
  simp [total]

theorem total_mono {items others : TenantId → List T}
    (le : ∀ tenant ∈ tenants, (items tenant).length ≤ (others tenant).length) :
    total tenants items ≤ total tenants others := by
  induction tenants with
  | nil => rfl
  | cons head rest ih =>
    have first := le head List.mem_cons_self
    have later := ih fun tenant mem => le tenant (List.mem_cons_of_mem _ mem)
    simp only [total, List.map_cons, List.sum_cons] at later ⊢
    omega

/-- One more item for each of `served` adds their number. -/
theorem total_serve {items others : TenantId → List T} {served : List TenantId}
    (nodup : tenants.Nodup) (sub : served.Sublist tenants)
    (grown : ∀ tenant ∈ tenants, (others tenant).length =
      (items tenant).length + if tenant ∈ served then 1 else 0) :
    total tenants others = total tenants items + served.length := by
  induction sub with
  | slnil => rfl
  | @cons served rest head sub ih =>
    obtain ⟨fresh, nodup⟩ := List.nodup_cons.mp nodup
    have first := grown head List.mem_cons_self
    have later := ih nodup fun tenant mem => grown tenant (List.mem_cons_of_mem _ mem)
    have unserved : head ∉ served := fun mem => fresh (sub.subset mem)
    simp only [total, List.map_cons, List.sum_cons, if_neg unserved] at first later ⊢
    omega
  | @cons_cons served rest head sub ih =>
    obtain ⟨fresh, nodup⟩ := List.nodup_cons.mp nodup
    have first := grown head List.mem_cons_self
    have later := ih nodup fun tenant mem => by
      rw [grown tenant (List.mem_cons_of_mem _ mem)]
      have apart : tenant ≠ head := fun same => fresh (same ▸ mem)
      simp [apart]
    simp only [total, List.map_cons, List.sum_cons, List.length_cons, List.mem_cons,
      true_or, if_true] at first later ⊢
    omega

/-- A tenant of the list that passes a test and stands before the `k`-th is among the first `k` that
pass it. -/
theorem mem_take_filter {test : TenantId → Bool} {k i : ℕ} (at_ : tenants[i]? = some tenant)
    (passes : test tenant = true) (below : i < k) : tenant ∈ (tenants.filter test).take k := by
  induction tenants generalizing i k with
  | nil => simp at at_
  | cons head rest ih =>
    obtain ⟨k, rfl⟩ : ∃ n, k = n + 1 := ⟨k - 1, by omega⟩
    cases i with
    | zero =>
      simp only [List.getElem?_cons_zero, Option.some.injEq] at at_
      subst at_
      simp [passes]
    | succ i =>
      rw [List.getElem?_cons_succ] at at_
      rw [List.filter_cons]
      split
      · have later := ih at_ (show i < k by omega)
        simp [later]
      · exact ih at_ (by omega)

/-- What the rounds keep: each tenant's share is the front of its items, as long as the rounds so
far, or one short of them where the limit fell within the last; and after a round, every tenant
placed before the limit has had its first. -/
structure Fair (due : Due T) (limit : ℤ) (tenants : List TenantId) (taking : Taking T) : Prop where
  within : total tenants taking.taken ≤ limit.toNat
  outside : ∀ tenant, tenant ∉ tenants → taking.taken tenant = []
  level : ∀ tenant ∈ tenants, ∃ n, taking.taken tenant = (due.items tenant).take n ∧
    n ≤ taking.depth ∧ taking.depth ≤ n + 1 ∧
    (total tenants taking.taken < limit.toNat → n = taking.depth)
  first : taking.depth = 0 ∨ ∀ (i : ℕ) (tenant : TenantId), tenants[i]? = some tenant →
    i < limit.toNat → due.items tenant ≠ [] → taking.taken tenant ≠ []

/-- What a round does. -/
theorem takeRound_some (taken : takeRound due limit tenants taking = some next) :
    total tenants taking.taken < limit.toNat ∧ roundOf due tenants taking.depth ≠ [] ∧
    next.depth = taking.depth + 1 ∧
    ∀ tenant, next.taken tenant = if tenant ∈ served due limit tenants taking then
      taking.taken tenant ++ (due.items tenant)[taking.depth]?.toList else taking.taken tenant := by
  rw [takeRound] at taken
  split at taken
  · rename_i room
    split at taken
    · cases taken
    · rename_i some_
      obtain rfl := Option.some.inj taken
      exact ⟨by omega, some_, rfl, fun _ => rfl⟩
  · cases taken

theorem mem_served_items (mem : tenant ∈ served due limit tenants taking) :
    tenant ∈ tenants ∧ taking.depth < (due.items tenant).length := by
  have kept := List.mem_of_mem_take mem
  obtain ⟨of, deep⟩ := List.mem_filter.mp kept
  exact ⟨of, of_decide_eq_true deep⟩

theorem served_sublist : (served due limit tenants taking).Sublist tenants :=
  (List.take_sublist _ _).trans List.filter_sublist

/-- A round adds one item for each tenant it serves. -/
theorem total_round (nodup : tenants.Nodup) (taken : takeRound due limit tenants taking = some next) :
    total tenants next.taken =
      total tenants taking.taken + (served due limit tenants taking).length := by
  obtain ⟨-, -, -, each⟩ := takeRound_some taken
  apply total_serve nodup served_sublist
  intro tenant mem
  rw [each]
  split
  · rename_i is
    have deep := (mem_served_items is).2
    simp [List.getElem?_eq_getElem deep]
  · rfl

/-- A round serves at least one tenant. -/
theorem served_pos (taken : takeRound due limit tenants taking = some next) :
    0 < (served due limit tenants taking).length := by
  obtain ⟨room, some_, -, -⟩ := takeRound_some taken
  have pos : 0 < (roundOf due tenants taking.depth).length := List.length_pos_iff.mpr some_
  rw [served, List.length_take]
  omega

theorem fair_start : Fair due limit tenants (⟨fun _ => [], 0⟩ : Taking T) where
  within := by
    rw [total_empty]
    exact Nat.zero_le _
  outside := fun _ _ => rfl
  level := fun tenant _ => ⟨0, by simp, le_rfl, by simp, fun _ => rfl⟩
  first := .inl rfl

/-- Before the first round nothing is taken. -/
theorem Fair.total_start (fair : Fair due limit tenants taking) (zero : taking.depth = 0) :
    total tenants taking.taken = 0 := by
  have empty : total tenants taking.taken ≤ total tenants (fun _ => ([] : List T)) := by
    apply total_mono
    intro tenant mem
    obtain ⟨n, front, le, -, -⟩ := fair.level tenant mem
    obtain rfl : n = 0 := by omega
    simp [front]
  rw [total_empty] at empty
  omega

/-- After a round the limit did not cut, every tenant has been served at this depth or is exhausted
there. -/
theorem mem_served_or_exhausted (limit : ℤ) (mem : tenant ∈ tenants)
    (uncut : (roundOf due tenants taking.depth).length ≤
      (limit - total tenants taking.taken).toNat) :
    tenant ∈ served due limit tenants taking ∨ (due.items tenant).length ≤ taking.depth := by
  by_cases deep : taking.depth < (due.items tenant).length
  · left
    rw [served, List.take_of_length_le uncut]
    exact List.mem_filter.mpr ⟨mem, decide_eq_true deep⟩
  · right
    omega

/-- A round keeps the shares fair. -/
theorem fair_round (nodup : tenants.Nodup) (fair : Fair due limit tenants taking)
    (taken : takeRound due limit tenants taking = some next) : Fair due limit tenants next := by
  obtain ⟨room, some_, deeper, each⟩ := takeRound_some taken
  have grown := total_round nodup taken
  have count : (served due limit tenants taking).length =
      min (limit - total tenants taking.taken).toNat (roundOf due tenants taking.depth).length :=
    List.length_take
  refine ⟨by omega, ?_, ?_, ?_⟩
  · intro tenant out
    have unserved : tenant ∉ served due limit tenants taking := fun is => out (mem_served_items is).1
    rw [each, if_neg unserved, fair.outside tenant out]
  · intro tenant mem
    obtain ⟨n, front, -, -, full⟩ := fair.level tenant mem
    obtain rfl := full room
    by_cases is : tenant ∈ served due limit tenants taking
    · refine ⟨taking.depth + 1, ?_, by omega, by omega, by omega⟩
      rw [each, if_pos is, front, ← List.take_add_one]
    · rw [each, if_neg is]
      by_cases cut : total tenants next.taken < limit.toNat
      · have exhausted := (mem_served_or_exhausted limit mem (by omega)).resolve_left is
        refine ⟨taking.depth + 1, ?_, by omega, by omega, by omega⟩
        rw [front, List.take_of_length_le exhausted, List.take_of_length_le (by omega)]
      · exact ⟨taking.depth, front, by omega, by omega, fun less => absurd less cut⟩
  · right
    intro i tenant at_ below some_
    have mem := List.mem_of_getElem? at_
    rw [each]
    split
    · rename_i is
      have deep := (mem_served_items is).2
      simp [List.getElem?_eq_getElem deep]
    · rename_i not_
      rcases fair.first with zero | first
      · have empty := fair.total_start zero
        refine absurd ?_ not_
        have deep : 0 < (due.items tenant).length := List.length_pos_iff.mpr some_
        apply mem_take_filter at_
        · rw [zero]
          exact decide_eq_true deep
        · rw [empty]
          simpa using below
      · exact first i tenant at_ below some_

/-- The rounds end, with the shares fair and no round left to make. -/
theorem fairShare_ends (due : Due T) (limit : ℤ) (start : ℕ) :
    ∃ taking, fairShare due limit start = some taking.taken ∧
      Fair due limit (inTurn due start) taking ∧
      takeRound due limit (inTurn due start) taking = none := by
  have same := inTurn_perm due start
  have nodup : (inTurn due start).Nodup := same.nodup_iff.mpr due.nodup
  let measure := fun taking : Taking T =>
    total due.tenants due.items - total (inTurn due start) taking.taken
  have falls : ∀ taking next, Fair due limit (inTurn due start) taking →
      takeRound due limit (inTurn due start) taking = some next →
      measure next < measure taking := by
    intro taking next fair taken
    have grown := total_round nodup taken
    have pos := served_pos taken
    have within : total (inTurn due start) next.taken ≤ total due.tenants due.items := by
      rw [← total_perm same]
      apply total_mono
      intro tenant mem
      obtain ⟨n, front, -, -, -⟩ := (fair_round nodup fair taken).level tenant mem
      rw [front, List.length_take]
      exact Nat.min_le_right _ _
    show _ - _ < _ - _
    omega
  obtain ⟨taking, ends, fair, last⟩ := loop_rule measure (fun _ _ => fair_round nodup) falls
    fair_start (Nat.lt_succ_of_le (Nat.sub_le (total due.tenants due.items) _))
  exact ⟨taking, by rw [fairShare, ends]; rfl, fair, last⟩

/-- Where no round is left, the limit is met or everything is taken. -/
theorem exhausted_of_last (fair : Fair due limit tenants taking)
    (last : takeRound due limit tenants taking = none) :
    total tenants taking.taken = limit.toNat ∨
    ∀ tenant ∈ tenants, taking.taken tenant = due.items tenant := by
  have within := fair.within
  rw [takeRound] at last
  split at last
  · rename_i room
    split at last
    · rename_i none_
      right
      intro tenant mem
      obtain ⟨n, front, -, -, full⟩ := fair.level tenant mem
      obtain rfl := full (by omega)
      have short : ¬ taking.depth < (due.items tenant).length := by
        intro deep
        have in_ : tenant ∈ roundOf due tenants taking.depth :=
          List.mem_filter.mpr ⟨mem, decide_eq_true deep⟩
        rw [none_] at in_
        cases in_
      rw [front, List.take_of_length_le (by omega)]
    · cases last
  · left
    omega

/-- The tenant placed before the limit, if it has items, is served. -/
theorem served_of_place (limit : ℤ) {i start : ℕ} (at_ : (inTurn due start)[i]? = some tenant)
    (below : i < limit.toNat) (some_ : due.items tenant ≠ []) :
    ∃ share, fairShare due limit start = some share ∧ share tenant ≠ [] := by
  obtain ⟨taking, ends, fair, last⟩ := fairShare_ends due limit start
  refine ⟨taking.taken, ends, ?_⟩
  rcases fair.first with zero | first
  · rcases exhausted_of_last fair last with met | all
    · exfalso
      have empty := fair.total_start zero
      omega
    · rw [all tenant (List.mem_of_getElem? at_)]
      exact some_
  · exact first i tenant at_ below some_

/-- Every share is a front of its tenant's items; a tenant's is two short of another's only where
nothing of its own is left. -/
theorem fairShare_fair (due : Due T) (limit : ℤ) (start : ℕ) :
    ∃ share, fairShare due limit start = some share ∧
      total due.tenants share = min limit.toNat (total due.tenants due.items) ∧
      (∀ tenant ∈ due.tenants, share tenant <+: due.items tenant) ∧
      (∀ tenant, tenant ∉ due.tenants → share tenant = []) ∧
      ∀ short ∈ due.tenants, ∀ long ∈ due.tenants,
        (share short).length + 1 < (share long).length → share short = due.items short := by
  obtain ⟨taking, ends, fair, last⟩ := fairShare_ends due limit start
  have same := inTurn_perm due start
  refine ⟨taking.taken, ends, ?_, ?_, ?_, ?_⟩
  · have within := fair.within
    have below : total (inTurn due start) taking.taken ≤ total (inTurn due start) due.items := by
      apply total_mono
      intro tenant mem
      obtain ⟨n, front, -, -, -⟩ := fair.level tenant mem
      rw [front, List.length_take]
      exact Nat.min_le_right _ _
    rw [← total_perm same, ← total_perm same]
    rcases exhausted_of_last fair last with met | all
    · omega
    · have above : total (inTurn due start) due.items ≤ total (inTurn due start) taking.taken := by
        apply total_mono
        intro tenant mem
        rw [all tenant mem]
      omega
  · intro tenant mem
    obtain ⟨n, front, -, -, -⟩ := fair.level tenant (same.mem_iff.mpr mem)
    rw [front]
    exact List.take_prefix _ _
  · intro tenant out
    exact fair.outside tenant fun mem => out (same.mem_iff.mp mem)
  · intro short shortIn long longIn gap
    obtain ⟨n, shortFront, -, deep, -⟩ := fair.level short (same.mem_iff.mpr shortIn)
    obtain ⟨m, longFront, le, -, -⟩ := fair.level long (same.mem_iff.mpr longIn)
    rw [shortFront, longFront, List.length_take, List.length_take] at gap
    rw [shortFront, List.take_of_length_le (by omega)]

/-- The shares of a run, each by the rotation its place gives it. -/
theorem sweeps_getElem? (limit : ℤ) (rotation : ℕ) (run : List (Due T)) (j : ℕ) :
    (sweeps limit rotation run)[j]? = run[j]?.map (fairShare · limit (rotation + j)) := by
  induction run generalizing rotation j with
  | nil => rfl
  | cons due later ih =>
    cases j with
    | zero => rfl
    | succ j =>
      rw [sweeps, List.getElem?_cons_succ, List.getElem?_cons_succ, ih]
      rw [show rotation + 1 + j = rotation + (j + 1) by omega]

/-- Among as many consecutive rotations as there are places, one starts at each. -/
theorem rotation_reaches {count place : ℕ} (below : place < count) (rotation : ℕ) :
    ∃ k < count, (rotation + k) % count = place := by
  have pos : 0 < count := by omega
  have turn := Nat.div_add_mod rotation count
  have less := Nat.mod_lt rotation pos
  refine ⟨(place + count - rotation % count) % count, Nat.mod_lt _ pos, ?_⟩
  calc (rotation + (place + count - rotation % count) % count) % count
      = (rotation + (place + count - rotation % count)) % count := Nat.add_mod_mod _ _ _
    _ = (place + count * (rotation / count + 1)) % count := by
        congr 1
        rw [Nat.mul_add]
        omega
    _ = place := by rw [Nat.add_mul_mod_self_left, Nat.mod_eq_of_lt below]

/-- The rotation starts at the tenant its place by name gives. -/
theorem inTurn_head {place start : ℕ}
    (at_ : (due.tenants.insertionSort (· ≤ ·))[place]? = some tenant)
    (turn : start % due.tenants.length = place) : (inTurn due start)[0]? = some tenant := by
  have below : place < (due.tenants.insertionSort (· ≤ ·)).length := by
    by_contra out
    rw [List.getElem?_eq_none (by omega)] at at_
    cases at_
  simp only [inTurn, List.length_insertionSort, turn]
  rw [List.getElem?_append_left (by rw [List.length_drop]; omega), List.getElem?_drop]
  exact at_

/-- The tenants by name do not depend on the mapping's own order. -/
theorem sorted_eq {others : List TenantId} (same : tenants.Perm others) :
    tenants.insertionSort (· ≤ ·) = others.insertionSort (· ≤ ·) := by
  have perm : (tenants.insertionSort (· ≤ ·)).Perm (others.insertionSort (· ≤ ·)) :=
    (tenants.perm_insertionSort _).trans (same.trans (others.perm_insertionSort _).symm)
  exact perm.eq_of_pairwise (fun _ _ _ _ le ge => String.le_antisymm le ge)
    (tenants.pairwise_insertionSort _) (others.pairwise_insertionSort _)

/-- `fair_share` takes as much as it may, in shares of the tenants that are level up to what each
has; and while the mapping names the same tenants over as many passes as they are, each that keeps
due items is served in one of those passes. -/
theorem shares_level_and_turns_come (T : Type) :
    (∀ (due : Due T) (limit : ℤ) (start : ℕ), ∃ share, fairShare due limit start = some share ∧
      total due.tenants share = min limit.toNat (total due.tenants due.items) ∧
      (∀ tenant ∈ due.tenants, share tenant <+: due.items tenant) ∧
      (∀ tenant, tenant ∉ due.tenants → share tenant = []) ∧
      ∀ short ∈ due.tenants, ∀ long ∈ due.tenants,
        (share short).length + 1 < (share long).length → share short = due.items short) ∧
    ∀ (limit : ℤ) (rotation : ℕ) (run : List (Due T)) (tenants : List TenantId) (from_ : ℕ)
      (tenant : TenantId), 1 ≤ limit → from_ + tenants.length ≤ run.length → tenant ∈ tenants →
      (∀ j due, from_ ≤ j → j < from_ + tenants.length → run[j]? = some due →
        due.tenants.Perm tenants ∧ due.items tenant ≠ []) →
      ∃ j share, from_ ≤ j ∧ j < from_ + tenants.length ∧
        (sweeps limit rotation run)[j]? = some (some share) ∧ share tenant ≠ [] := by
  refine ⟨fairShare_fair, ?_⟩
  intro limit rotation run tenants from_ tenant least long mem steady
  have placed : tenant ∈ tenants.insertionSort (· ≤ ·) := (List.mem_insertionSort _).mpr mem
  obtain ⟨place, below, at_⟩ := List.getElem_of_mem placed
  rw [List.length_insertionSort] at below
  obtain ⟨k, less, turn⟩ := rotation_reaches below (rotation + from_)
  obtain ⟨due, pass⟩ : ∃ due, run[from_ + k]? = some due :=
    ⟨_, List.getElem?_eq_getElem (by omega)⟩
  obtain ⟨same, keeps⟩ := steady (from_ + k) due (by omega) (by omega) pass
  have head : (inTurn due (rotation + (from_ + k)))[0]? = some tenant := by
    apply inTurn_head
    · rw [sorted_eq same]
      rw [← at_]
      exact List.getElem?_eq_getElem _
    · rw [same.length_eq, ← turn]
      congr 1
      omega
  obtain ⟨share, taken, served⟩ := served_of_place limit head (by omega) keeps
  refine ⟨from_ + k, share, by omega, by omega, ?_, served⟩
  rw [sweeps_getElem?, pass, ← taken]
  rfl

/-- A mapping in which every tenant has one item due. -/
def oneEach (tenants : List TenantId) (nodup : tenants.Nodup) : Due ℕ :=
  ⟨tenants, fun _ => [0], nodup⟩

/-- Three passes over three tenants, the second of them away from the last. -/
def secondLeaves : List (Due ℕ) :=
  [oneEach ["a", "b", "z"] (by decide), oneEach ["a", "b", "z"] (by decide),
    oneEach ["a", "z"] (by decide)]

/-- Where a tenant stays away from a pass, the rotation may pass another by in each of three. -/
theorem rotation_passes_by :
    (∀ due ∈ secondLeaves, "z" ∈ due.tenants ∧ due.items "z" ≠ [] ∧ due.tenants.length ≤ 3) ∧
    (sweeps 1 0 secondLeaves).map (Option.map (· "z")) = [some [], some [], some []] := by
  refine ⟨?_, by decide +kernel⟩
  simp [secondLeaves, oneEach]

/-- The tenant of three that the first two passes leave out is served by the third. -/
theorem last_turn_comes :
    ∃ (j : ℕ) (share : TenantId → List ℕ), 0 ≤ j ∧ j < 0 + ["a", "b", "z"].length ∧
      (sweeps 1 0 (List.replicate 3 (oneEach ["a", "b", "z"] (by decide))))[j]? =
        some (some share) ∧ share "z" ≠ [] := by
  refine (shares_level_and_turns_come ℕ).2 1 0
    (List.replicate 3 (oneEach ["a", "b", "z"] (by decide))) ["a", "b", "z"] 0 "z"
    (by decide) (by simp) (by simp) ?_
  intro j due _ _ pass
  obtain rfl := List.eq_of_mem_replicate (List.mem_of_getElem? pass)
  exact ⟨List.Perm.refl _, List.cons_ne_nil _ _⟩

end Blizzard.FairShare
