import Blizzard.TranscriptShrink

/-! # Cutting a window into records

The record of a range of turns and its size; the greedy packing of a window's
turns by their estimated costs; and each closed group's record, shrunk or
emptied where it stays over the cap. -/
namespace Blizzard.TranscriptRecords
open HubTables JsonTexts TranscriptTurns TranscriptShrink

/-- The row of a segment, as far as its records read it. -/
structure TranscriptSegmentState where
  segmentId : String
  chunkId : String
  nodeId : String
  epoch : ℤ
  generation : ℤ
  harnessId : String
  model : Option String
  effort : Option String
  spawnCwd : Option String
  supersedes : Option String

structure WireRecord where
  segmentId : String
  chunkId : String
  nodeId : String
  epoch : ℤ
  spawnGeneration : ℤ
  turnRangeStart : ℤ
  turnRangeEnd : ℤ
  final : Bool
  harnessId : String
  normalizerVersion : String
  harnessVersion : Option String
  model : Option String
  effort : Option String
  spawnCwd : Option String
  recordTruncated : Bool
  supersedes : Option String
  turns : List WireTurn

def recordEnvelope (segment : TranscriptSegmentState) (batch : TranscriptBatch)
    (turnRangeStart turnRangeEnd : ℤ) : WireRecord :=
  { segmentId := segment.segmentId, chunkId := segment.chunkId, nodeId := segment.nodeId,
    epoch := segment.epoch, spawnGeneration := segment.generation, turnRangeStart, turnRangeEnd,
    final := false, harnessId := segment.harnessId, normalizerVersion := batch.normalizerVersion,
    harnessVersion := batch.harnessVersion, model := segment.model, effort := segment.effort,
    spawnCwd := segment.spawnCwd, recordTruncated := false, supersedes := segment.supersedes,
    turns := [] }

def recordJson (record : WireRecord) : Json :=
  .object
    [("segment_id", .string record.segmentId), ("chunk_id", .string record.chunkId),
      ("node_id", .string record.nodeId), ("epoch", .number (intText record.epoch)),
      ("spawn_generation", .number (intText record.spawnGeneration)),
      ("turn_range_start", .number (intText record.turnRangeStart)),
      ("turn_range_end", .number (intText record.turnRangeEnd)), ("final", .bool record.final),
      ("harness_id", .string record.harnessId),
      ("normalizer_version", .string record.normalizerVersion),
      ("harness_version", textJson record.harnessVersion), ("model", textJson record.model),
      ("effort", textJson record.effort), ("spawn_cwd", textJson record.spawnCwd),
      ("record_truncated", .bool record.recordTruncated),
      ("supersedes", textJson record.supersedes), ("turns", .array (turnsJson record.turns))]

def recordSize (record : WireRecord) : ℕ := encodedSize (recordJson record)

/-- The envelope's cost with both range fields at the widest any group claims. -/
def recordOverhead (segment : TranscriptSegmentState) (batch : TranscriptBatch)
    (turnRangeStart turnCount : ℕ) : ℕ :=
  let widest := turnRangeStart + turnCount
  recordSize (recordEnvelope segment batch widest widest)

/-- `_shrink_to_cap`, with so many passes left. -/
def shrinkToCap (double : ℚ → ℚ) (cap : ℤ) : ℕ → WireRecord → WireRecord
  | 0, record => record
  | passes + 1, record =>
    let shrinkable := ((turnsTexts record.turns).map byteCost).sum
    if recordSize record ≤ cap then record
    else if shrinkable = 0 then record
    else
      shrinkToCap double cap passes
        { record with
          turns := cutTurns (passCut double cap (recordSize record) shrinkable) record.turns }

def shrinkMaxPasses : ℕ := 20

inductive GroupOutcome | ok | shrunk | unshippable
  deriving DecidableEq, Repr

/-- `close_group`, over the turns from `start` up to `end_`. -/
def closeGroup (double : ℚ → ℚ) (segment : TranscriptSegmentState) (batch : TranscriptBatch)
    (cap : ℤ) (turnRangeStart : ℕ) (wires : List WireTurn) (start end_ : ℕ) :
    WireRecord × GroupOutcome :=
  let envelope := recordEnvelope segment batch (turnRangeStart + start) (turnRangeStart + end_ - 1)
  let record := { envelope with turns := (wires.drop start).take (end_ - start) }
  if recordSize record ≤ cap then (record, .ok)
  else
    let shrunk := { shrinkToCap double cap shrinkMaxPasses record with recordTruncated := true }
    if recordSize shrunk ≤ cap then (shrunk, .shrunk)
    else ({ shrunk with turns := [] }, .unshippable)

def turnCost (turn : WireTurn) : ℕ := encodedSize (turnJson turn)

/-- The groups closed over the costs from the `i`-th on, the open one from `groupStart`. -/
def closedGroups (overhead : ℕ) (cap : ℤ) (groupStart i running : ℕ) : List ℕ → List (ℕ × ℕ)
  | [] => [(groupStart, i)]
  | cost :: costs =>
    let separator := if groupStart < i then 2 else 0
    if groupStart < i ∧ cap < (running + separator + cost : ℕ) then
      (groupStart, i) :: closedGroups overhead cap i (i + 1) (overhead + cost) costs
    else closedGroups overhead cap groupStart (i + 1) (running + separator + cost) costs

/-- The wire turns of a window: those read, then those synthesized for late links. -/
def windowWires (isoUtc : Instant → String) (batch : TranscriptBatch) (turnRangeStart : ℕ)
    (parents : String → Option String) : List WireTurn :=
  let wires := turnsWire isoUtc turnRangeStart batch.turns
  wires ++ lateLinkWires isoUtc parents batch (turnRangeStart + wires.length)

structure BuiltRecords where
  records : List WireRecord
  anyShrunk : Bool
  anyUnshippable : Bool
  turnCount : ℕ

/-- `_build_records` of these wire turns. -/
def recordsOf (double : ℚ → ℚ) (segment : TranscriptSegmentState) (batch : TranscriptBatch)
    (turnRangeStart : ℕ) (cap : ℤ) (wires : List WireTurn) : BuiltRecords :=
  let overhead := recordOverhead segment batch turnRangeStart wires.length
  let groups := closedGroups overhead cap 0 0 overhead (wires.map turnCost)
  let built : List (WireRecord × GroupOutcome) := groups.map fun (start, end_) =>
    closeGroup double segment batch cap turnRangeStart wires start end_
  { records := built.map (·.1)
    anyShrunk := decide (.shrunk ∈ built.map (·.2))
    anyUnshippable := decide (.unshippable ∈ built.map (·.2))
    turnCount := wires.length }

def buildRecords (double : ℚ → ℚ) (isoUtc : Instant → String) (segment : TranscriptSegmentState)
    (batch : TranscriptBatch) (turnRangeStart : ℕ) (cap : ℤ)
    (parents : String → Option String) : BuiltRecords :=
  recordsOf double segment batch turnRangeStart cap
    (windowWires isoUtc batch turnRangeStart parents)

variable {double : ℚ → ℚ} {segment : TranscriptSegmentState} {batch : TranscriptBatch}
  {cap : ℤ} {turnRangeStart : ℕ} {wires group : List WireTurn} {record : WireRecord}

/-! ## Sizes -/

/-- The cost of a group's turns as array items. -/
def groupCost (group : List WireTurn) : ℕ :=
  (group.map turnCost).sum + 2 * (group.length - 1)

/-- A record costs its envelope and its turns; the envelope no more than the widest one. -/
theorem recordSize_le {start end_ widest : ℤ} (nonneg : 0 ≤ start) (nonneg' : 0 ≤ end_)
    (le : start ≤ widest) (le' : end_ ≤ widest) (group : List WireTurn) :
    recordSize { recordEnvelope segment batch start end_ with turns := group } ≤
      recordSize (recordEnvelope segment batch widest widest) + groupCost group := by
  have starts := encodedSize_int_mono nonneg le
  have ends := encodedSize_int_mono nonneg' le'
  have items : (group.map turnJson).map encodedSize = group.map turnCost := by
    rw [List.map_map]
    rfl
  have filled : encodedSize (.array (turnsJson group)) = 2 + groupCost group := by
    rw [turnsJson_eq, encodedSize_array, items, List.length_map, groupCost]
    omega
  have empty : encodedSize (.array (turnsJson [])) = 2 := rfl
  simp only [recordSize, recordJson, recordEnvelope, encodedSize_object, List.map_cons,
    List.map_nil, List.sum_cons, List.sum_nil, List.length_cons, List.length_nil, fieldSize, filled,
    empty]
  omega

theorem groupCost_snoc (group : List WireTurn) (turn : WireTurn) :
    groupCost (group ++ [turn]) =
      groupCost group + (if group = [] then 0 else 2) + turnCost turn := by
  cases group with
  | nil => simp [groupCost]
  | cons first rest =>
    simp only [groupCost, List.map_append, List.sum_append, List.map_cons, List.map_nil,
      List.sum_cons, List.sum_nil, List.length_append, List.length_cons, List.length_nil,
      List.cons_append, reduceCtorEq, if_false]
    omega

/-! ## The packing -/

/-- The bounds of groups in turn, from an index on. -/
def boundsOf (at_ : ℕ) : List (List WireTurn) → List (ℕ × ℕ)
  | [] => []
  | group :: rest => (at_, at_ + group.length) :: boundsOf (at_ + group.length) rest

/-- What the packing says of one group: only a lone turn may cost more than the cap. -/
def Packs (overhead : ℕ) (cap : ℤ) (group : List WireTurn) : Prop :=
  2 ≤ group.length → (overhead + groupCost group : ℤ) ≤ cap

/-- Groups closed from here on: the open one with what follows it, cut into groups that pack. -/
theorem closedGroups_packs (overhead : ℕ) (cap : ℤ) (rest open_ : List WireTurn) (at_ : ℕ)
    (packs : Packs overhead cap open_) :
    ∃ groups, groups.flatten = open_ ++ rest ∧
      closedGroups overhead cap at_ (at_ + open_.length) (overhead + groupCost open_)
        (rest.map turnCost) = boundsOf at_ groups ∧
      (∀ group ∈ groups, Packs overhead cap group) ∧
      ∀ group ∈ groups, group = [] → open_ ++ rest = [] := by
  induction rest generalizing open_ at_ with
  | nil =>
    refine ⟨[open_], by simp, rfl, ?_, ?_⟩
    · intro group mem
      rw [List.mem_singleton.mp mem]
      exact packs
    · intro group mem empty
      rw [List.mem_singleton.mp mem] at empty
      simp [empty]
  | cons turn rest ih =>
    have lone : Packs overhead cap [turn] := fun two => by simp at two
    by_cases empty : open_ = []
    · subst empty
      obtain ⟨groups, flat, bounds, all, full⟩ := ih [turn] at_ lone
      refine ⟨groups, flat, ?_, all, fun group mem none_ => full group mem none_⟩
      rw [← bounds]
      simp [closedGroups, groupCost]
    · have pos : 0 < open_.length := List.length_pos_iff.mpr empty
      have apart : at_ < at_ + open_.length := by omega
      rw [List.map_cons, closedGroups]
      simp only [apart, if_true, true_and]
      by_cases over_ : cap < (overhead + groupCost open_ + 2 + turnCost turn : ℕ)
      · obtain ⟨groups, flat, bounds, all, full⟩ := ih [turn] (at_ + open_.length) lone
        refine ⟨open_ :: groups, by simp [flat], ?_, ?_, ?_⟩
        · rw [boundsOf, ← bounds, if_pos over_]
          simp [groupCost]
        · intro group mem
          rcases List.mem_cons.mp mem with rfl | mem
          · exact packs
          · exact all group mem
        · intro group mem none_
          rcases List.mem_cons.mp mem with rfl | mem
          · exact absurd none_ empty
          · have := full group mem none_
            simp at this
      · have cost := groupCost_snoc open_ turn
        rw [if_neg empty] at cost
        have next : Packs overhead cap (open_ ++ [turn]) := by
          intro _
          rw [cost]
          push_cast at over_ ⊢
          omega
        obtain ⟨groups, flat, bounds, all, full⟩ := ih (open_ ++ [turn]) at_ next
        refine ⟨groups, by simpa using flat, ?_, all, ?_⟩
        · rw [if_neg over_, ← bounds, cost, List.length_append, List.length_singleton]
          congr 1
          omega
        · intro group mem none_
          have := full group mem none_
          simp at this

/-! ## One closed group -/

/-- Whatever its passes, a shrink is one cut of the record's turns. -/
theorem shrinkToCap_cut (double : ℚ → ℚ) (cap : ℤ) (passes : ℕ) (record : WireRecord) :
    ∃ cut : Cut, shrinkToCap double cap passes record =
      { record with turns := cutTurns cut record.turns } := by
  induction passes generalizing record with
  | zero => exact ⟨.whole, by rw [shrinkToCap, cutTurns_whole]⟩
  | succ passes ih =>
    rw [shrinkToCap]
    split
    · exact ⟨.whole, by rw [cutTurns_whole]⟩
    · split
      · exact ⟨.whole, by rw [cutTurns_whole]⟩
      · obtain ⟨cut, shrunk⟩ := ih { record with
          turns := cutTurns (passCut double cap (recordSize record)
            ((turnsTexts record.turns).map byteCost).sum) record.turns }
        refine ⟨(passCut double cap (recordSize record)
          ((turnsTexts record.turns).map byteCost).sum).andThen cut, ?_⟩
        rw [shrunk, cutTurns_andThen]

/-- What the record of a group is to the group's turns. -/
structure GroupKept (cap : ℤ) (group : List WireTurn) (record : WireRecord)
    (outcome : GroupOutcome) : Prop where
  fits : outcome ≠ .unshippable → (recordSize record : ℤ) ≤ cap
  asRead : outcome = .ok → record.turns = group ∧ record.recordTruncated = false
  shrunk : outcome = .shrunk → ShrunkTurns group record.turns ∧ record.recordTruncated = true
  emptied : outcome = .unshippable → record.turns = [] ∧ record.recordTruncated = true
  several : 2 ≤ group.length → outcome = .ok
  alone : record.turns ≠ group → group.length = 1

section Closed

variable {start : ℕ} (inWires : start + group.length ≤ wires.length)
  (packs : Packs (recordOverhead segment batch turnRangeStart wires.length) cap group)
include inWires packs

/-- A group of two or more turns fits as it was read. -/
theorem several_fit (two : 2 ≤ group.length) :
    (recordSize { recordEnvelope segment batch (turnRangeStart + start)
      (turnRangeStart + (start + group.length : ℕ) - 1) with turns := group } : ℤ) ≤ cap := by
  have size : recordSize { recordEnvelope segment batch (turnRangeStart + start)
      (turnRangeStart + (start + group.length : ℕ) - 1) with turns := group } ≤
      recordSize (recordEnvelope segment batch (turnRangeStart + wires.length)
        (turnRangeStart + wires.length)) + groupCost group :=
    recordSize_le (by omega) (by omega) (by omega) (by omega) group
  have within := packs two
  rw [recordOverhead] at within
  push_cast at size within ⊢
  omega

theorem closeGroup_kept (double : ℚ → ℚ) (slice : (wires.drop start).take group.length = group) :
    let closed := closeGroup double segment batch cap turnRangeStart wires start
      (start + group.length)
    closed.1.turnRangeStart = turnRangeStart + start ∧
      closed.1.turnRangeEnd = turnRangeStart + start + group.length - 1 ∧
      GroupKept cap group closed.1 closed.2 := by
  have read : (wires.drop start).take (start + group.length - start) = group := by
    rw [Nat.add_sub_cancel_left, slice]
  have ends : (turnRangeStart + (start + group.length : ℕ) - 1 : ℤ) =
      turnRangeStart + start + group.length - 1 := by
    push_cast
    omega
  simp only [closeGroup, read]
  split
  · rename_i fits
    exact ⟨rfl, ends, fun _ => fits, fun _ => ⟨rfl, rfl⟩, nofun, nofun, fun _ => rfl,
      fun differs => absurd rfl differs⟩
  · rename_i over_
    have few : group.length < 2 := by
      by_contra two
      exact over_ (several_fit inWires packs (by omega))
    obtain ⟨cut, shrunk⟩ := shrinkToCap_cut double cap shrinkMaxPasses
      { recordEnvelope segment batch (turnRangeStart + start)
        (turnRangeStart + (start + group.length : ℕ) - 1) with turns := group }
    rw [shrunk]
    have lone : ∀ turns : List WireTurn, (group = [] → turns = []) → turns ≠ group →
        group.length = 1 := by
      intro turns none_ differs
      cases group with
      | nil => exact absurd (none_ rfl) differs
      | cons turn rest =>
        simp only [List.length_cons] at few ⊢
        omega
    split
    · rename_i fits
      refine ⟨rfl, ends, fun _ => fits, nofun, fun _ => ⟨cutTurns_shrunk cut group, rfl⟩, nofun,
        fun two => by omega, lone _ ?_⟩
      rintro rfl
      rfl
    · exact ⟨rfl, ends, fun shipped => absurd rfl shipped, nofun, nofun, fun _ => ⟨rfl, rfl⟩,
        fun two => by omega, lone _ fun _ => rfl⟩

end Closed

/-! ## The records of a window -/

/-- Records of groups in turn, over ranges that follow one another from `from_` up to `to_`. -/
inductive Records (cap : ℤ) :
    ℤ → ℤ → List (List WireTurn) → List WireRecord → List GroupOutcome → Prop
  | nil (at_ : ℤ) : Records cap at_ at_ [] [] []
  | cons {from_ to_ : ℤ} {group : List WireTurn} {groups : List (List WireTurn)}
      {record : WireRecord} {records : List WireRecord} {outcome : GroupOutcome}
      {outcomes : List GroupOutcome} (starts : record.turnRangeStart = from_)
      (ends : record.turnRangeEnd = from_ + group.length - 1)
      (kept : GroupKept cap group record outcome)
      (rest : Records cap (from_ + group.length) to_ groups records outcomes) :
      Records cap from_ to_ (group :: groups) (record :: records) (outcome :: outcomes)

/-- The turns of the groups that were not emptied. -/
def shippedTurns : List (List WireTurn) → List GroupOutcome → List WireTurn
  | group :: groups, outcome :: outcomes =>
    if outcome = .unshippable then shippedTurns groups outcomes
    else group ++ shippedTurns groups outcomes
  | _, _ => []

/-- The records' turns, one after another, are the turns shipped, but for shrinking. -/
theorem Records.concatenate {from_ to_ : ℤ} {groups : List (List WireTurn)}
    {records : List WireRecord} {outcomes : List GroupOutcome}
    (built : Records cap from_ to_ groups records outcomes) :
    ShrunkTurns (shippedTurns groups outcomes) (records.flatMap (·.turns)) := by
  induction built with
  | nil => exact .nil
  | @cons from_ to_ group groups record records outcome outcomes _ _ kept _ ih =>
    rw [shippedTurns, List.flatMap_cons]
    cases outcome with
    | ok =>
      rw [if_neg (by decide), (kept.asRead rfl).1]
      exact (ShrunkTurns.refl group).append ih
    | shrunk =>
      rw [if_neg (by decide)]
      exact (kept.shrunk rfl).1.append ih
    | unshippable =>
      rw [if_pos rfl, (kept.emptied rfl).1]
      exact ih

/-- The groups of a packing, closed in turn. -/
theorem closed_records (double : ℚ → ℚ) (groups : List (List WireTurn)) (at_ : ℕ)
    (flat : groups.flatten = wires.drop at_) (inWires : at_ ≤ wires.length)
    (packs : ∀ group ∈ groups,
      Packs (recordOverhead segment batch turnRangeStart wires.length) cap group) :
    let built := (boundsOf at_ groups).map fun bounds =>
      closeGroup double segment batch cap turnRangeStart wires bounds.1 bounds.2
    Records cap (turnRangeStart + at_) (turnRangeStart + wires.length) groups (built.map (·.1))
      (built.map (·.2)) := by
  induction groups generalizing at_ with
  | nil =>
    have length := congrArg List.length flat
    rw [List.flatten_nil, List.length_nil, List.length_drop] at length
    have all : at_ = wires.length := by omega
    rw [all]
    exact .nil _
  | cons group rest ih =>
    rw [List.flatten_cons] at flat
    have slice : (wires.drop at_).take group.length = group := by
      rw [← flat, List.take_left]
    have within : at_ + group.length ≤ wires.length := by
      have length := congrArg List.length flat
      rw [List.length_append, List.length_drop] at length
      omega
    have later : rest.flatten = wires.drop (at_ + group.length) := by
      rw [← List.drop_drop, ← flat, List.drop_left]
    obtain ⟨starts, ends, kept⟩ := closeGroup_kept within
      (packs group List.mem_cons_self) double slice
    refine .cons starts ends kept ?_
    have next := ih (at_ + group.length) later within
      fun other mem => packs other (List.mem_cons_of_mem _ mem)
    push_cast [← add_assoc] at next
    exact next

/-- The records of any wire turns at any cap: the turns, cut into groups whose records' ranges follow
one another from the start on; each record fits the cap or is emptied, and only a lone turn's is cut
or emptied; the records' turns are those shipped, but for shrinking. -/
theorem records_partition (double : ℚ → ℚ) (segment : TranscriptSegmentState)
    (batch : TranscriptBatch) (turnRangeStart : ℕ) (cap : ℤ) (wires : List WireTurn) :
    let built := recordsOf double segment batch turnRangeStart cap wires
    ∃ groups outcomes, groups.flatten = wires ∧
      (∀ group ∈ groups, group = [] → wires = []) ∧
      Records cap turnRangeStart (turnRangeStart + built.turnCount) groups built.records
        outcomes ∧
      ShrunkTurns (shippedTurns groups outcomes) (built.records.flatMap (·.turns)) ∧
      built.turnCount = wires.length ∧
      (built.anyShrunk = true ↔ .shrunk ∈ outcomes) ∧
      (built.anyUnshippable = true ↔ .unshippable ∈ outcomes) := by
  intro built
  obtain ⟨groups, flat, bounds, packs, full⟩ :=
    closedGroups_packs (recordOverhead segment batch turnRangeStart wires.length) cap wires [] 0
      fun two => by simp at two
  have none_ : groupCost [] = 0 := rfl
  rw [List.nil_append] at flat full
  rw [List.length_nil, none_, Nat.add_zero, Nat.add_zero] at bounds
  have records := closed_records double groups 0 flat (Nat.zero_le _) packs
  rw [← bounds] at records
  simp only [Nat.cast_zero, add_zero] at records
  exact ⟨groups, _, flat, full, records, records.concatenate, rfl, decide_eq_true_iff,
    decide_eq_true_iff⟩

end Blizzard.TranscriptRecords
