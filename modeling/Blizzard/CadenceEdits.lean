import Mathlib.Logic.Function.Basic
import Blizzard.CadenceMerges
import Blizzard.TransitionRuns

/-! # What an accepted edit leaves of a cadence

The values a cadence's change entries are read against and applied to; one
edit, judged by the record it merges; and the runs of accepted edits from any
cadence a create, edits and retirements have stored. -/
namespace Blizzard.CadenceEdits
open HubTables CadenceSchedules CadenceErrands CadenceRecords CadenceMerges ExceptRules
  TransitionRuns

/-- A cadence as change entries speak of it: the value under each wire name, and the order of the
chores kept on both sides. -/
structure Values where
  fields : String → FieldValue
  order : List String

/-- The value under a wire name: one of the cadence's own, or a chore's. -/
def fieldValue (cadence : Cadence) (field : String) : FieldValue :=
  match (ownFields.zip cadence.ownValues).find? (·.1 = field) with
  | some (_, value) => value
  | none =>
    match cadence.chores.find? fun chore => choreField chore.key = field with
    | none => .none
    | some chore => .chore (choreValue chore.spec)

/-- The values of a cadence, beside the one it was or becomes. -/
def values (cadence beside : Cadence) : Values :=
  { fields := fieldValue cadence
    order := keptOrder cadence.chores beside.chores }

/-- An entry whose values are orders speaks of the order; any other of its field. -/
def applied (values : Values) (change : FieldChange) : Values :=
  match change.new with
  | .order keys => { values with order := keys }
  | value => { values with fields := Function.update values.fields change.field value }

/-- The value an entry's field has. -/
def Values.read (values : Values) (change : FieldChange) : FieldValue :=
  match change.new with
  | .order _ => .order values.order
  | _ => values.fields change.field

variable {library : CronLibrary} {mint : String → String} {cadence merged : Cadence}
  {edit : CadenceEdit} {merge : ChoreMerge} {at_ : Instant} {changes : List FieldChange}
  {start target : Values} {field key : String} {change : FieldChange}

/-- Whether an entry speaks of the order. -/
def ordered (change : FieldChange) : Prop := ∃ keys, change.new = .order keys

theorem applied_order {keys : List String} (new : change.new = .order keys) :
    (applied start change).fields = start.fields ∧ (applied start change).order = keys := by
  rw [applied, new]
  exact ⟨rfl, rfl⟩

theorem applied_field (plain : ¬ ordered change) :
    (applied start change).fields = Function.update start.fields change.field change.new ∧
      (applied start change).order = start.order := by
  rw [applied]
  split
  · rename_i keys new
    exact absurd ⟨keys, new⟩ plain
  · exact ⟨rfl, rfl⟩

theorem read_order {keys : List String} (new : change.new = .order keys) :
    start.read change = .order start.order := by
  rw [Values.read, new]

theorem read_field (plain : ¬ ordered change) : start.read change = start.fields change.field := by
  rw [Values.read]
  split
  · rename_i keys new
    exact absurd ⟨keys, new⟩ plain
  · rfl

/-- Entries that hold a field's final value leave it, where some entry names it or it stood. -/
theorem applied_fields (holds : ∀ change ∈ changes, change.new = target.read change)
    (named : start.fields field = target.fields field ∨
      ∃ change ∈ changes, ¬ ordered change ∧ change.field = field) :
    (changes.foldl applied start).fields field = target.fields field := by
  induction changes generalizing start with
  | nil =>
    rcases named with same | ⟨_, of, _⟩
    · exact same
    · cases of
  | cons first rest ih =>
    apply ih fun change of => holds change (List.mem_cons_of_mem _ of)
    by_cases order : ordered first
    · obtain ⟨keys, new⟩ := id order
      rw [(applied_order new).1]
      rcases named with same | ⟨change, of, plain, at_field⟩
      · exact .inl same
      · rcases List.mem_cons.mp of with rfl | of
        · exact absurd order plain
        · exact .inr ⟨change, of, plain, at_field⟩
    · rw [(applied_field order).1]
      by_cases here : field = first.field
      · left
        subst here
        rw [Function.update_self, holds first List.mem_cons_self, read_field order]
      · rw [Function.update_of_ne here]
        rcases named with same | ⟨change, of, plain, at_field⟩
        · exact .inl same
        · rcases List.mem_cons.mp of with rfl | of
          · exact absurd at_field.symm here
          · exact .inr ⟨change, of, plain, at_field⟩

theorem applied_orders (holds : ∀ change ∈ changes, change.new = target.read change)
    (named : start.order = target.order ∨ ∃ change ∈ changes, ordered change) :
    (changes.foldl applied start).order = target.order := by
  induction changes generalizing start with
  | nil =>
    rcases named with same | ⟨_, of, _⟩
    · exact same
    · cases of
  | cons first rest ih =>
    apply ih fun change of => holds change (List.mem_cons_of_mem _ of)
    by_cases order : ordered first
    · obtain ⟨keys, new⟩ := order
      left
      have final := holds first List.mem_cons_self
      rw [read_order new, new] at final
      rw [(applied_order new).2]
      exact FieldValue.order.inj final
    · rw [(applied_field order).2]
      rcases named with same | ⟨change, of, orders⟩
      · exact .inl same
      · rcases List.mem_cons.mp of with rfl | of
        · exact absurd orders order
        · exact .inr ⟨change, of, orders⟩

/-- Entries that hold the final values, and name all that changed, turn the old values into them. -/
theorem applied_all (holds : ∀ change ∈ changes, change.new = target.read change)
    (fields : ∀ field, start.fields field = target.fields field ∨
      ∃ change ∈ changes, ¬ ordered change ∧ change.field = field)
    (order : start.order = target.order ∨ ∃ change ∈ changes, ordered change) :
    changes.foldl applied start = target := by
  have left : (changes.foldl applied start).fields = target.fields :=
    funext fun field => applied_fields holds (fields field)
  have right := applied_orders holds order
  cases final : changes.foldl applied start with
  | mk _ _ =>
    rw [final] at left right
    cases target
    cases left
    cases right
    rfl

/-! ## The values of the chores and of the cadence's own fields -/

theorem choreField_injective : Function.Injective choreField := by
  intro a b same
  have texts := congrArg String.toList same
  rw [choreField, choreField, String.toList_append, String.toList_append] at texts
  exact String.toList_inj.mp (List.append_cancel_left texts)

theorem choreField_apart : choreField key ∉ ownFields := by
  intro mem
  have head : (choreField key).toList.head? = some 'c' := by
    rw [choreField, String.toList_append]
    rfl
  simp only [ownFields, List.mem_cons, List.not_mem_nil, or_false] at mem
  rcases mem with same | same | same | same
  all_goals
    rw [same] at head
    revert head
    decide

theorem fieldValue_chore :
    fieldValue cadence (choreField key) =
      match cadence.chores.find? fun chore => choreField chore.key = choreField key with
      | none => .none
      | some chore => .chore (choreValue chore.spec) := by
  have none_ : (ownFields.zip cadence.ownValues).find? (·.1 = choreField key) = none := by
    rw [List.find?_eq_none]
    rintro ⟨name, value⟩ of
    have listed := (List.of_mem_zip of).1
    simp only [decide_eq_true_eq]
    rintro rfl
    exact choreField_apart listed
  rw [fieldValue, none_]

theorem fieldValue_of_mem {chore : Chore} (keys : (cadence.chores.map Chore.key).Nodup)
    (mem : chore ∈ cadence.chores) :
    fieldValue cadence (choreField chore.key) = .chore (choreValue chore.spec) := by
  rw [fieldValue_chore]
  cases found : cadence.chores.find? fun other => choreField other.key = choreField chore.key with
  | none =>
    have := List.find?_eq_none.mp found chore mem
    simp at this
  | some other =>
    have same : choreField other.key = choreField chore.key := by
      simpa using List.find?_some found
    rw [List.inj_on_of_nodup_map keys (List.mem_of_find?_eq_some found) mem
      (choreField_injective same)]

theorem fieldValue_of_absent (absent : key ∉ cadence.chores.map Chore.key) :
    fieldValue cadence (choreField key) = .none := by
  rw [fieldValue_chore]
  have none_ : (cadence.chores.find? fun chore => choreField chore.key = choreField key) = none := by
    rw [List.find?_eq_none]
    intro chore mem
    simp only [decide_eq_true_eq]
    intro same
    exact absent (List.mem_map.mpr ⟨chore, mem, choreField_injective same⟩)
  rw [none_]

theorem keyedValue_eq (keys : (cadence.chores.map Chore.key).Nodup) :
    keyedValue cadence.chores key = fieldValue cadence (choreField key) := by
  rw [keyedValue]
  split
  · rename_i none_
    rw [fieldValue_of_absent (byKey_none.mp none_)]
  · rename_i chore some_
    obtain ⟨mem, rfl⟩ := byKey_some some_
    rw [fieldValue_of_mem keys mem]

/-- A name no field of the cadence's own has, and no chore, holds nothing. -/
theorem fieldValue_of_strange (strange : field ∉ ownFields)
    (absent : ∀ chore ∈ cadence.chores, choreField chore.key ≠ field) :
    fieldValue cadence field = .none := by
  have own : (ownFields.zip cadence.ownValues).find? (·.1 = field) = none := by
    rw [List.find?_eq_none]
    rintro ⟨name, value⟩ of
    have listed := (List.of_mem_zip of).1
    simp only [decide_eq_true_eq]
    rintro rfl
    exact strange listed
  have none_ : (cadence.chores.find? fun chore => choreField chore.key = field) = none := by
    rw [List.find?_eq_none]
    intro chore mem
    simpa using absent chore mem
  rw [fieldValue, own]
  simp only [none_]

/-- The entries of the cadence's own fields: those whose values differ. -/
theorem mem_fieldsDiff {old : Cadence} : change ∈ cadence.fieldsDiff (some old) ↔
    change.field ∈ ownFields ∧ fieldValue old change.field ≠ fieldValue cadence change.field ∧
      change = ⟨change.field, fieldValue old change.field, fieldValue cadence change.field⟩ := by
  have zipped : ownFields.zip (old.ownValues.zip cadence.ownValues) =
      ownFields.map fun name => (name, fieldValue old name, fieldValue cadence name) := rfl
  simp only [Cadence.fieldsDiff, fieldChanges, zipped, List.mem_map, List.mem_filter,
    decide_eq_true_eq]
  constructor
  · rintro ⟨_, ⟨⟨name, mem, rfl⟩, differs⟩, rfl⟩
    exact ⟨mem, differs, rfl⟩
  · rintro ⟨mem, differs, whole⟩
    exact ⟨_, ⟨⟨change.field, mem, rfl⟩, differs⟩, whole.symm⟩

theorem anchorValue_injective : Function.Injective anchorValue := by
  intro a b
  cases a <;> cases b <;> decide

theorem rhythm_eq {a b : Rhythm} (schedule : scheduleValue a = scheduleValue b)
    (spacing : spacingValue a = spacingValue b)
    (anchor : rhythmAnchorValue a = rhythmAnchorValue b) : a = b := by
  obtain ⟨schedule_a, spacing_a, anchor_a⟩ := a
  obtain ⟨schedule_b, spacing_b, anchor_b⟩ := b
  have schedules : schedule_a = schedule_b := by
    revert schedule
    rcases schedule_a with - | ⟨_, _⟩ <;> rcases schedule_b with - | ⟨_, _⟩ <;>
      simp [scheduleValue]
  have spacings : spacing_a = spacing_b := by
    revert spacing
    rcases spacing_a with - | ⟨_, _⟩ <;> rcases spacing_b with - | ⟨_, _⟩ <;> simp [spacingValue]
  have anchors : anchor_a = anchor_b := by
    revert anchor
    rcases anchor_a with - | a <;> rcases anchor_b with - | b <;> simp [rhythmAnchorValue]
    exact fun same => anchorValue_injective same
  rw [schedules, spacings, anchors]

/-- No entry of the cadence's own, exactly where the name and the rhythm stand. -/
theorem fieldsDiff_nil_iff {old : Cadence} :
    cadence.fieldsDiff (some old) = [] ↔ cadence.name = old.name ∧ cadence.rhythm = old.rhythm := by
  constructor
  · intro empty
    have same : ∀ name ∈ ownFields, fieldValue old name = fieldValue cadence name := by
      intro name mem
      by_contra differs
      have entry : (⟨name, fieldValue old name, fieldValue cadence name⟩ : FieldChange) ∈
          cadence.fieldsDiff (some old) := mem_fieldsDiff.mpr ⟨mem, differs, rfl⟩
      simp [empty] at entry
    have name : FieldValue.text old.name = .text cadence.name := same "name" (by decide)
    refine ⟨(FieldValue.text.inj name).symm, ?_⟩
    exact (rhythm_eq (same "schedule" (by decide)) (same "spacing_minutes" (by decide))
      (same "anchor" (by decide))).symm
  · rintro ⟨name, rhythm⟩
    have values_eq : cadence.ownValues = old.ownValues := by
      rw [Cadence.ownValues, Cadence.ownValues, name, rhythm]
    apply List.eq_nil_iff_forall_not_mem.mpr
    intro change mem
    obtain ⟨own, differs, _⟩ := mem_fieldsDiff.mp mem
    apply differs
    simp only [ownFields, List.mem_cons, List.not_mem_nil, or_false] at own
    rcases own with field | field | field | field
    all_goals
      rw [field]
      simp only [fieldValue, values_eq]
      rfl

theorem fieldValue_plain {keys : List String} : fieldValue cadence field ≠ .order keys := by
  rw [fieldValue]
  split
  · rename_i name value found
    have mem := (List.of_mem_zip (List.mem_of_find?_eq_some found)).2
    simp only [Cadence.ownValues, List.mem_cons, List.not_mem_nil, or_false] at mem
    rcases mem with rfl | rfl | rfl | rfl
    · nofun
    · rw [scheduleValue]
      split <;> nofun
    · rw [spacingValue]
      split <;> nofun
    · rw [rhythmAnchorValue]
      split <;> nofun
  · split <;> nofun

/-! ## The rhythm an edit leaves -/

theorem parseSchedule_ok {cron zone : Option String} {schedule : Schedule}
    (ok : parseSchedule library cron zone at_ = .ok schedule) :
    schedule = ⟨cron.getD "", zone.getD ""⟩ := by
  simp only [parseSchedule] at ok
  repeat' split at ok
  all_goals cases ok
  rfl

/-- A spacing written back in minutes parses to itself. -/
theorem parseSpacing_written (spacing : Spacing) :
    parseSpacing (toString spacing.minutes ++ "m") = .ok spacing := by
  have text : (toString spacing.minutes ++ "m").toList = Nat.toDigits 10 spacing.minutes ++ ['m'] := by
    rw [String.toList_append]
    exact congrArg (· ++ ['m']) Nat.toList_repr
  have plain : withoutNewline (Nat.toDigits 10 spacing.minutes ++ ['m']) =
      Nat.toDigits 10 spacing.minutes ++ ['m'] := by
    rw [withoutNewline, List.getLast?_concat]
    rfl
  have digits : (Nat.toDigits 10 spacing.minutes).all Char.isDigit = true :=
    List.all_eq_true.mpr fun c of => Nat.isDigit_of_mem_toDigits (by omega) (by omega) of
  have minutes : spacingMinutes (toString spacing.minutes ++ "m") = some spacing.minutes := by
    rw [spacingMinutes, text, plain, List.dropLast_concat, List.getLast?_concat]
    simp only [if_pos (And.intro Nat.toDigits_ne_nil digits)]
    exact congrArg some (Nat.ofDigitChars_eq_foldl.symm.trans Nat.ofDigitChars_ten_toDigits)
  rw [parseSpacing, minutes]
  exact dif_pos spacing.least

theorem parseAnchor_written (anchor : Anchor) : parseAnchor (anchorValue anchor) = .ok anchor := by
  cases anchor <;> rfl

/-- What a stated rhythm that parses holds of each stated part. -/
theorem parseRhythm_ok {schedule : Option ScheduleShape} {spacing anchor : Option String}
    {rhythm : Rhythm} (ok : parseRhythm library schedule spacing anchor at_ = .ok rhythm) :
    (schedule.mapM fun shape => parseSchedule library shape.cron shape.zone at_) =
        .ok rhythm.schedule ∧
      spacing.mapM parseSpacing = .ok rhythm.spacing ∧
      anchor.mapM parseAnchor = .ok rhythm.anchor := by
  obtain ⟨parsed, first, ok⟩ := bind_ok ok
  obtain ⟨parsedSpacing, second, ok⟩ := bind_ok ok
  split at ok
  · cases ok
  · split at ok
    · cases ok
      exact ⟨first, second, rfl⟩
    · split at ok
      · cases ok
      · obtain ⟨parsedAnchor, third, ok⟩ := bind_ok ok
        cases ok
        refine ⟨first, second, ?_⟩
        rw [Option.mapM_some, third]
        rfl

/-- A stored part, written back and parsed anew, is itself. -/
theorem written_back {α β : Type} {parse : β → Except ConfigFieldError α} {write : α → β}
    (back : ∀ stored parsed, parse (write stored) = .ok parsed → parsed = stored)
    {held answer : Option α} (ok : (held.map write).mapM parse = .ok answer) : answer = held := by
  cases held with
  | none => exact (Except.ok.inj ok).symm
  | some stored =>
    obtain ⟨parsed, first, rest⟩ := bind_ok ok
    rw [← Except.ok.inj rest, back stored parsed first]

/-- An edit leaves each part of the rhythm it does not state, though the whole is validated anew. -/
theorem editedRhythm_unstated {rhythm : Rhythm}
    (ok : cadence.editedRhythm library edit at_ = .ok rhythm) :
    (edit.schedule = .unset → rhythm.schedule = cadence.rhythm.schedule) ∧
      (edit.spacing = .unset → rhythm.spacing = cadence.rhythm.spacing) ∧
      (edit.anchor = .unset → rhythm.anchor = cadence.rhythm.anchor) := by
  rw [Cadence.editedRhythm] at ok
  split at ok
  · obtain ⟨schedule, spacing, anchor⟩ := parseRhythm_ok ok
    refine ⟨?_, ?_, ?_⟩
    · intro unset
      rw [unset] at schedule
      apply written_back _ schedule
      intro stored parsed again
      exact parseSchedule_ok again
    · intro unset
      rw [unset] at spacing
      apply written_back _ spacing
      intro stored parsed again
      exact (Except.ok.inj ((parseSpacing_written stored).symm.trans again)).symm
    · intro unset
      rw [unset] at anchor
      apply written_back _ anchor
      intro stored parsed again
      exact (Except.ok.inj ((parseAnchor_written stored).symm.trans again)).symm
  · cases ok
    exact ⟨fun _ => rfl, fun _ => rfl, fun _ => rfl⟩

/-! ## One edit -/

/-- The keys the chores of an edit state. -/
def declaredKeys (edit : CadenceEdit) : List String :=
  match edit.chores with
  | .unset => []
  | .stated shapes => shapes.map fun shape => shape.key.getD ""

/-- An edit that states no chores leaves every key; one that does, those it states. -/
def Declares (edit : CadenceEdit) (key : String) : Prop :=
  edit.chores = .unset ∨ key ∈ declaredKeys edit

/-- The keys an edit states anew. -/
def drawnKeys (cadence : Cadence) (edit : CadenceEdit) : List String :=
  (declaredKeys edit).filter fun key => key ∉ cadence.chores.map Chore.key

theorem merge_spec (keys : (cadence.chores.map Chore.key).Nodup)
    (ok : cadence.merge mint edit at_ = .ok merge) :
    Merges mint at_ cadence.chores merge ∧
      (∀ key ∈ cadence.chores.map Chore.key, Declares edit key →
        key ∈ merge.chores.map Chore.key) ∧
      ∀ key ∈ merge.chores.map Chore.key, key ∉ cadence.chores.map Chore.key →
        key ∈ drawnKeys cadence edit := by
  rw [Cadence.merge] at ok
  split at ok
  · cases ok
    exact ⟨untouched_merges keys, fun _ of _ => of, fun _ of fresh => absurd of fresh⟩
  · rename_i shapes stated
    obtain ⟨specs, parsed, rest⟩ := bind_ok ok
    cases rest
    obtain ⟨written, nodup⟩ := parseChores_keys parsed
    have same : specs.map (·.key) = declaredKeys edit := by
      rw [declaredKeys, stated]
      have read := congrArg (List.map fun key => Option.getD key "") written
      simpa [List.map_map, Function.comp_def] using read
    refine ⟨mergeChores_merges keys nodup, ?_, ?_⟩
    · rintro key _ (unset | declared)
      · rw [stated] at unset
        cases unset
      · change key ∈ (specs.map _).map Chore.key
        rw [merged_keys, same]
        exact declared
    · intro key of fresh
      change key ∈ (specs.map _).map Chore.key at of
      rw [merged_keys, same] at of
      exact List.mem_filter.mpr ⟨of, decide_eq_true fresh⟩

/-- The record an edit merges is the stored one, but for its name, rhythm and chores. -/
theorem merged_spec {ifMatch : Option ℕ}
    (ok : cadence.merged library mint edit ifMatch at_ = .ok (merged, merge)) :
    merged = { cadence with name := merged.name, rhythm := merged.rhythm, chores := merge.chores } ∧
      cadence.merge mint edit at_ = .ok merge := by
  obtain ⟨_, _, rest⟩ := bind_ok ok
  obtain ⟨name, _, rest⟩ := bind_ok rest
  obtain ⟨rhythm, _, rest⟩ := bind_ok rest
  obtain ⟨left, written, rest⟩ := bind_ok rest
  cases rest
  refine ⟨rfl, ?_⟩
  rw [checked] at written
  cases parsed : cadence.merge mint edit at_ with
  | error error =>
    rw [parsed] at written
    cases written
  | ok merge =>
    rw [parsed] at written
    cases written
    rfl

/-- What an accepted edit that merges a record answers. -/
theorem edit_spec {ctx : ChangeContext} {ifMatch : Option ℕ}
    {outcome : Option (Cadence × ConfigChange)}
    (ok : cadence.edit library mint edit ctx ifMatch at_ = .ok outcome) :
    ∃ merged merge, cadence.merged library mint edit ifMatch at_ = .ok (merged, merge) ∧
      outcome =
        let changes := merged.fieldsDiff (some cadence) ++ choreChanges cadence.chores merge
        if changes = [] then none
        else
          some ({ merged with revision := cadence.revision + 1 },
            cadence.change ctx (cadence.revision + 1) .edit changes at_) := by
  obtain ⟨⟨merged, merge⟩, first, rest⟩ := bind_ok ok
  refine ⟨merged, merge, first, ?_⟩
  by_cases empty : merged.fieldsDiff (some cadence) ++ choreChanges cadence.chores merge = []
  · have answer := (if_pos empty).symm.trans rest
    cases answer
    exact (if_pos empty).symm
  · have answer := (if_neg empty).symm.trans rest
    cases answer
    exact (if_neg empty).symm

/-- The entries of an edit are none, exactly where the record it merges is the stored one. -/
theorem changes_nil_iff (keys : (cadence.chores.map Chore.key).Nodup)
    (merges : Merges mint at_ cadence.chores merge)
    (whole : merged =
      { cadence with name := merged.name, rhythm := merged.rhythm, chores := merge.chores }) :
    merged.fieldsDiff (some cadence) ++ choreChanges cadence.chores merge = [] ↔
      merged = cadence := by
  rw [List.append_eq_nil_iff, fieldsDiff_nil_iff, choreChanges_nil_iff keys merges]
  constructor
  · rintro ⟨⟨name, rhythm⟩, chores⟩
    rw [whole, name, rhythm, chores]
  · intro same
    have chores := congrArg Cadence.chores whole
    rw [same] at chores
    exact ⟨⟨by rw [same], by rw [same]⟩, chores.symm⟩

/-- An entry that tells one field's value before and after. -/
def Tells (cadence merged : Cadence) (change : FieldChange) : Prop :=
  change = ⟨change.field, fieldValue cadence change.field, fieldValue merged change.field⟩

theorem Tells.plain (tells : Tells cadence merged change) : ¬ ordered change := by
  rintro ⟨keys, new⟩
  rw [tells] at new
  exact fieldValue_plain new

/-- An entry that tells the order of the chores on both sides, before and after. -/
def TellsOrder (cadence merged : Cadence) (change : FieldChange) : Prop :=
  change = ⟨"chores.order", .order (values cadence merged).order,
    .order (values merged cadence).order⟩

section Entries

variable (keys : (cadence.chores.map Chore.key).Nodup)
  (merges : Merges mint at_ cadence.chores merge) (same : merged.chores = merge.chores)
include keys merges same

/-- Every entry of the chores tells a chore's value, or the order. -/
theorem choreChanges_tell (mem : change ∈ choreChanges cadence.chores merge) :
    Tells cadence merged change ∨ TellsOrder cadence merged change := by
  have after : (merged.chores.map Chore.key).Nodup := same ▸ merges.keys
  rw [mem_choreChanges, ← same] at mem
  rcases mem with ⟨key, of, rfl⟩ | ⟨key, of, rfl⟩ | ⟨key, of, rfl⟩ | ⟨_, rfl⟩
  · left
    have absent := ((merges.added key).mp of).2
    rw [Tells, keyedValue_eq after, fieldValue_of_absent absent]
  · left
    rw [Tells, keyedValue_eq after, keyedValue_eq keys]
  · left
    have absent := ((merges.removed key).mp of).2
    rw [← same] at absent
    rw [Tells, keyedValue_eq keys, fieldValue_of_absent absent]
  · exact .inr rfl

/-- A chore's value either stands or has its entry. -/
theorem choreChanges_name (key : String) :
    fieldValue cadence (choreField key) = fieldValue merged (choreField key) ∨
      ∃ change ∈ choreChanges cadence.chores merge,
        ¬ ordered change ∧ change.field = choreField key := by
  have after : (merged.chores.map Chore.key).Nodup := same ▸ merges.keys
  have entry : ∀ change ∈ choreChanges cadence.chores merge, change.field = choreField key →
      (∀ order, change.new ≠ .order order) → ∃ change ∈ choreChanges cadence.chores merge,
        ¬ ordered change ∧ change.field = choreField key :=
    fun change mem field plain => ⟨change, mem, fun ⟨order, new⟩ => plain order new, field⟩
  by_cases before : key ∈ cadence.chores.map Chore.key
  · by_cases kept : key ∈ merge.chores.map Chore.key
    · obtain ⟨held, mem, rfl⟩ := List.mem_map.mp before
      obtain ⟨chore, of, equal⟩ := List.mem_map.mp kept
      by_cases spec : held.spec = chore.spec
      · left
        rw [fieldValue_of_mem keys mem, ← equal, fieldValue_of_mem after (same ▸ of), spec]
      · right
        have changed := (merges.changed held.key).mpr ⟨held, mem, chore, of, rfl, equal, spec⟩
        refine entry ⟨choreField held.key, keyedValue cadence.chores held.key,
          keyedValue merge.chores held.key⟩ ?_ rfl ?_
        · exact mem_choreChanges.mpr (.inr (.inl ⟨held.key, changed, rfl⟩))
        · intro order
          change keyedValue merge.chores held.key ≠ _
          rw [← same, keyedValue_eq after]
          exact fieldValue_plain
    · right
      have removed := (merges.removed key).mpr ⟨before, kept⟩
      refine entry ⟨choreField key, keyedValue cadence.chores key, .none⟩ ?_ rfl nofun
      exact mem_choreChanges.mpr (.inr (.inr (.inl ⟨key, removed, rfl⟩)))
  · by_cases kept : key ∈ merge.chores.map Chore.key
    · right
      have added := (merges.added key).mpr ⟨kept, before⟩
      refine entry ⟨choreField key, .none, keyedValue merge.chores key⟩ ?_ rfl ?_
      · exact mem_choreChanges.mpr (.inl ⟨key, added, rfl⟩)
      · intro order
        change keyedValue merge.chores key ≠ _
        rw [← same, keyedValue_eq after]
        exact fieldValue_plain
    · left
      rw [fieldValue_of_absent before, fieldValue_of_absent (same ▸ kept)]

/-- The entries of an edit tell the old values and the new ones, each under its name. -/
theorem entries_tell
    (mem : change ∈ merged.fieldsDiff (some cadence) ++ choreChanges cadence.chores merge) :
    change.old = (values cadence merged).read change ∧
      change.new = (values merged cadence).read change := by
  have told : Tells cadence merged change ∨ TellsOrder cadence merged change := by
    rcases List.mem_append.mp mem with own | chores
    · exact .inl (mem_fieldsDiff.mp own).2.2
    · exact choreChanges_tell keys merges same chores
  rcases told with tells | tells
  · rw [read_field tells.plain, read_field tells.plain]
    exact ⟨congrArg FieldChange.old tells, congrArg FieldChange.new tells⟩
  · rw [tells]
    exact ⟨rfl, rfl⟩

/-- Applied to the old values, the entries of an edit give the new ones. -/
theorem entries_apply :
    (merged.fieldsDiff (some cadence) ++ choreChanges cadence.chores merge).foldl applied
      (values cadence merged) = values merged cadence := by
  apply applied_all
  · intro change mem
    exact (entries_tell keys merges same mem).2
  · intro field
    by_cases own : field ∈ ownFields
    · by_cases stands : fieldValue cadence field = fieldValue merged field
      · exact .inl stands
      · right
        refine ⟨⟨field, fieldValue cadence field, fieldValue merged field⟩, ?_, ?_, rfl⟩
        · exact List.mem_append_left _ (mem_fieldsDiff.mpr ⟨own, stands, rfl⟩)
        · rintro ⟨order, new⟩
          exact fieldValue_plain new
    · by_cases named : ∃ key, choreField key = field
      · obtain ⟨key, rfl⟩ := named
        rcases choreChanges_name keys merges same key with stands | ⟨change, mem, plain, at_key⟩
        · exact .inl stands
        · exact .inr ⟨change, List.mem_append_right _ mem, plain, at_key⟩
      · left
        have absent : ∀ cadence : Cadence, fieldValue cadence field = .none := fun cadence =>
          fieldValue_of_strange own fun chore _ at_field => named ⟨chore.key, at_field⟩
        exact (absent cadence).trans (absent merged).symm
  · by_cases order : (values cadence merged).order = (values merged cadence).order
    · exact .inl order
    · right
      refine ⟨⟨"chores.order", .order (values cadence merged).order,
        .order (values merged cadence).order⟩, ?_, _, rfl⟩
      apply List.mem_append_right
      rw [mem_choreChanges, ← same]
      exact .inr (.inr (.inr ⟨order, rfl⟩))

end Entries

/-- The cadence an accepted edit leaves stored. -/
def left (cadence : Cadence) : Option (Cadence × ConfigChange) → Cadence
  | none => cadence
  | some (edited, _) => edited

/-- What an accepted edit does to a cadence, `merged` being the record it merges: the chores' ids and
stamps, when it answers nothing, and what it answers otherwise. -/
structure EditKept (mint : String → String) (at_ : Instant) (cadence merged : Cadence)
    (outcome : Option (Cadence × ConfigChange)) : Prop where
  stamped : ∀ held ∈ cadence.chores, ∀ chore ∈ merged.chores, chore.key = held.key →
    chore.choreId = held.choreId ∧
      (SameScopes held.spec chore.spec → chore.scopesSetAt = held.scopesSetAt) ∧
      (¬ SameScopes held.spec chore.spec → chore.scopesSetAt = at_)
  minted : ∀ chore ∈ merged.chores, chore.key ∉ cadence.chores.map Chore.key →
    chore.choreId = mint chore.key ∧ chore.scopesSetAt = at_
  silent : outcome = none ↔ merged = cadence
  told : ∀ edited change, outcome = some (edited, change) →
    edited = { merged with revision := cadence.revision + 1 } ∧
      change.revision = edited.revision ∧
      (∀ entry ∈ change.diff, entry.old = (values cadence edited).read entry ∧
        entry.new = (values edited cadence).read entry) ∧
      change.diff.foldl applied (values cadence edited) = values edited cadence

section Edited

variable {ctx : ChangeContext} {ifMatch : Option ℕ} {outcome : Option (Cadence × ConfigChange)}

/-- One accepted edit, as its merge, its answer and the record it leaves. -/
theorem edit_kept (keys : (cadence.chores.map Chore.key).Nodup)
    (ok : cadence.edit library mint edit ctx ifMatch at_ = .ok outcome) :
    ∃ merged merge, cadence.merged library mint edit ifMatch at_ = .ok (merged, merge) ∧
      cadence.merge mint edit at_ = .ok merge ∧ (left cadence outcome).chores = merge.chores ∧
      EditKept mint at_ cadence merged outcome := by
  obtain ⟨merged, merge, merging, answer⟩ := edit_spec ok
  obtain ⟨whole, chores⟩ := merged_spec merging
  have merges := (merge_spec keys chores).1
  have same : merged.chores = merge.chores := congrArg Cadence.chores whole
  have nil_iff := changes_nil_iff keys merges whole
  refine ⟨merged, merge, merging, chores, ?_, ?_, ?_, ?_, ?_⟩
  · rw [← same]
    by_cases empty : merged.fieldsDiff (some cadence) ++ choreChanges cadence.chores merge = []
    · have silent : outcome = none := answer.trans (if_pos empty)
      rw [silent]
      exact congrArg Cadence.chores (nil_iff.mp empty).symm
    · have told := answer.trans (if_neg empty)
      rw [told]
      rfl
  · intro held mem chore of at_key
    have matched := merges.matched held mem chore (same ▸ of) at_key
    exact ⟨matched.id, matched.stays, matched.moves⟩
  · intro chore of fresh
    exact merges.minted chore (same ▸ of) fresh
  · rw [answer, ← nil_iff]
    simp only [ite_eq_left_iff, reduceCtorEq, imp_false, not_not]
  · intro edited change answered
    rw [answered] at answer
    simp only at answer
    split at answer
    · cases answer
    · cases answer
      refine ⟨rfl, rfl, ?_, ?_⟩
      · intro entry mem
        exact entries_tell keys merges same mem
      · exact entries_apply keys merges same

end Edited

/-! ## Runs of accepted edits -/

/-- A cadence, with every chore id issued for it so far. -/
structure Shelf where
  cadence : Cadence
  issued : List String

def Shelf.put (shelf : Shelf) (cadence : Cadence) : Shelf :=
  { cadence, issued := shelf.issued ++ cadence.chores.map (·.choreId) }

/-- One edit handed in, with the random ids its new keys draw. -/
structure Act where
  edit : CadenceEdit
  ctx : ChangeContext
  ifMatch : Option ℕ
  at_ : Instant
  mint : String → String

/-- Ids drawn for new keys are distinct, and none was issued before. -/
structure Fresh (mint : String → String) (keys issued : List String) : Prop where
  distinct : ∀ a ∈ keys, ∀ b ∈ keys, mint a = mint b → a = b
  unissued : ∀ a ∈ keys, mint a ∉ issued

/-- An edit the cadence accepts, and the shelf it leaves. -/
def Accepted (library : CronLibrary) (shelf : Shelf) (act : Act) (next : Shelf) : Prop :=
  Fresh act.mint (drawnKeys shelf.cadence act.edit) shelf.issued ∧
    ∃ outcome, shelf.cadence.edit library act.mint act.edit act.ctx act.ifMatch act.at_ =
      .ok outcome ∧ next = shelf.put (left shelf.cadence outcome)

/-- The cadences creates, edits and retirements store. -/
inductive Stored (library : CronLibrary) : Shelf → Prop
  | created {cadenceId projectId : String} {mint : String → String} {shape : CadenceShape}
      {ctx : ChangeContext} {at_ : Instant} {cadence : Cadence} {change : ConfigChange}
      (fresh : Fresh mint (shape.chores.map fun chore => chore.key.getD "") [])
      (ok : Cadence.new library cadenceId mint shape projectId ctx at_ = .ok (cadence, change)) :
      Stored library (Shelf.put ⟨cadence, []⟩ cadence)
  | edited {shelf next : Shelf} {act : Act} (stored : Stored library shelf)
      (accepted : Accepted library shelf act next) : Stored library next
  | retired {shelf : Shelf} {flag : Bool} {ctx : ChangeContext} {ifMatch : Option ℕ}
      {at_ : Instant} {moved : Cadence} {change : ConfigChange} (stored : Stored library shelf)
      (ok : shelf.cadence.setRetired flag ctx ifMatch at_ = .ok (some (moved, change))) :
      Stored library (shelf.put moved)

/-- No two chores share a key or an id, and every id was issued. -/
structure Sound (shelf : Shelf) : Prop where
  keys : (shelf.cadence.chores.map Chore.key).Nodup
  ids : (shelf.cadence.chores.map (·.choreId)).Nodup
  issued : ∀ chore ∈ shelf.cadence.chores, chore.choreId ∈ shelf.issued

variable {stored : List Chore} {shelf next : Shelf} {act : Act} {issued : List String}

/-- A merge that draws fresh ids leaves chores of distinct ids. -/
theorem merged_ids (merges : Merges mint at_ stored merge) (ids : (stored.map (·.choreId)).Nodup)
    (within : ∀ chore ∈ stored, chore.choreId ∈ issued) {drawn : List String}
    (draws : ∀ key ∈ merge.chores.map Chore.key, key ∉ stored.map Chore.key → key ∈ drawn)
    (fresh : Fresh mint drawn issued) : (merge.chores.map (·.choreId)).Nodup := by
  have apart : ∀ a ∈ merge.chores, ∀ b ∈ merge.chores, a.key ∈ stored.map Chore.key →
      b.key ∉ stored.map Chore.key → a.choreId ≠ b.choreId := by
    intro a of_a b of_b held_a new_b same
    obtain ⟨held, mem, at_key⟩ := List.mem_map.mp held_a
    have id_a := (merges.matched held mem a of_a at_key.symm).id
    have id_b := (merges.minted b of_b new_b).1
    have drawn_b := draws b.key (List.mem_map_of_mem of_b) new_b
    apply fresh.unissued b.key drawn_b
    rw [← id_b, ← same, id_a]
    exact within held mem
  refine List.Nodup.map_on ?_ (List.Nodup.of_map _ merges.keys)
  intro a of_a b of_b same
  apply List.inj_on_of_nodup_map merges.keys of_a of_b
  by_cases held_a : a.key ∈ stored.map Chore.key
  · by_cases held_b : b.key ∈ stored.map Chore.key
    · obtain ⟨one, mem_one, at_one⟩ := List.mem_map.mp held_a
      obtain ⟨two, mem_two, at_two⟩ := List.mem_map.mp held_b
      have id_a := (merges.matched one mem_one a of_a at_one.symm).id
      have id_b := (merges.matched two mem_two b of_b at_two.symm).id
      have equal := List.inj_on_of_nodup_map ids mem_one mem_two
        ((id_a.symm.trans same).trans id_b)
      rw [← at_one, ← at_two, equal]
    · exact absurd same (apart a of_a b of_b held_a held_b)
  · by_cases held_b : b.key ∈ stored.map Chore.key
    · exact absurd same.symm (apart b of_b a of_a held_b held_a)
    · have id_a := (merges.minted a of_a held_a).1
      have id_b := (merges.minted b of_b held_b).1
      have drawn_a := draws a.key (List.mem_map_of_mem of_a) held_a
      have drawn_b := draws b.key (List.mem_map_of_mem of_b) held_b
      exact fresh.distinct _ drawn_a _ drawn_b ((id_a.symm.trans same).trans id_b)

theorem put_issued (cadence : Cadence) :
    ∀ chore ∈ cadence.chores, chore.choreId ∈ (shelf.put cadence).issued :=
  fun _ mem => List.mem_append_right _ (List.mem_map_of_mem mem)

/-- An accepted edit, as the merge of the chores it leaves. -/
theorem accepted_merges (sound : Sound shelf) (accepted : Accepted library shelf act next) :
    ∃ merge, shelf.cadence.merge act.mint act.edit act.at_ = .ok merge ∧
      next = shelf.put next.cadence ∧ next.cadence.chores = merge.chores ∧
      Merges act.mint act.at_ shelf.cadence.chores merge := by
  obtain ⟨_, outcome, ok, rfl⟩ := accepted
  obtain ⟨merged, merge, _, chores, same, _⟩ := edit_kept sound.keys ok
  exact ⟨merge, chores, rfl, same, (merge_spec sound.keys chores).1⟩

theorem accepted_sound (sound : Sound shelf) (accepted : Accepted library shelf act next) :
    Sound next := by
  obtain ⟨merge, chores, whole, same, merges⟩ := accepted_merges sound accepted
  refine ⟨same ▸ merges.keys, ?_, ?_⟩
  · rw [same]
    exact merged_ids merges sound.ids sound.issued
      (merge_spec sound.keys chores).2.2 accepted.1
  · rw [whole]
    exact put_issued next.cadence

theorem stored_sound (stored : Stored library shelf) : Sound shelf := by
  induction stored with
  | @created cadenceId projectId mint shape ctx at_ cadence change fresh ok =>
    rw [Cadence.new] at ok
    split at ok
    · cases ok
    · obtain ⟨slug, _, ok⟩ := bind_ok ok
      obtain ⟨rhythm, _, ok⟩ := bind_ok ok
      obtain ⟨specs, parsed, ok⟩ := bind_ok ok
      cases ok
      obtain ⟨written, nodup⟩ := parseChores_keys parsed
      have merges : Merges mint at_ [] (mergeChores mint [] specs at_) :=
        mergeChores_merges List.nodup_nil nodup
      refine ⟨merges.keys, ?_, put_issued _⟩
      refine merged_ids merges List.nodup_nil (fun _ mem => nomatch mem) ?_ fresh
      intro key of _
      change key ∈ (specs.map _).map Chore.key at of
      rw [merged_keys] at of
      have read := congrArg (List.map fun key => Option.getD key "") written
      simp only [List.map_map, Function.comp_def, Option.getD_some] at read
      rw [← read]
      exact of
  | edited _ accepted ih => exact accepted_sound ih accepted
  | @retired shelf flag ctx ifMatch at_ moved change _ ok ih =>
    obtain ⟨_, _, ok⟩ := bind_ok ok
    have chores : moved.chores = shelf.cadence.chores := by
      split at ok
      · cases ok
      · cases ok
        rfl
    exact ⟨chores ▸ ih.keys, chores ▸ ih.ids, put_issued moved⟩

/-- A chore keeps its id over an edit that declares its key. -/
theorem accepted_keeps {id : String} (sound : Sound shelf)
    (accepted : Accepted library shelf act next) (declares : Declares act.edit key)
    (stands : ∃ chore ∈ shelf.cadence.chores, chore.key = key ∧ chore.choreId = id) :
    ∃ chore ∈ next.cadence.chores, chore.key = key ∧ chore.choreId = id := by
  obtain ⟨merge, chores, _, same, merges⟩ := accepted_merges sound accepted
  obtain ⟨held, mem, rfl, rfl⟩ := stands
  have kept := (merge_spec sound.keys chores).2.1 held.key (List.mem_map_of_mem mem) declares
  obtain ⟨chore, of, at_key⟩ := List.mem_map.mp kept
  exact ⟨chore, same ▸ of, at_key, (merges.matched held mem chore of at_key).id⟩

/-- An id once issued for a key is on no chore of another key, whatever came between. -/
theorem accepted_apart {id : String} (sound : Sound shelf)
    (accepted : Accepted library shelf act next) (known : id ∈ shelf.issued)
    (own : ∀ chore ∈ shelf.cadence.chores, chore.choreId = id → chore.key = key) :
    id ∈ next.issued ∧ ∀ chore ∈ next.cadence.chores, chore.choreId = id → chore.key = key := by
  obtain ⟨merge, chores, whole, same, merges⟩ := accepted_merges sound accepted
  constructor
  · rw [whole]
    exact List.mem_append_left _ known
  · intro chore of at_id
    rw [same] at of
    by_cases held : chore.key ∈ shelf.cadence.chores.map Chore.key
    · obtain ⟨before, mem, at_key⟩ := List.mem_map.mp held
      have kept := (merges.matched before mem chore of at_key.symm).id
      rw [← at_key]
      exact own before mem (kept.symm.trans at_id)
    · have minted := (merges.minted chore of held).1
      have drawn := (merge_spec sound.keys chores).2.2 chore.key (List.mem_map_of_mem of) held
      refine absurd known ?_
      rw [← at_id, minted]
      exact accepted.1.unissued chore.key drawn

/-- Over every run of accepted edits from a stored cadence: no two chores share a key or an id; a
chore keeps its id as long as its key is declared, and no other chore gets it; and the next edit, if
accepted, does to the cadence what `EditKept` says. -/
theorem edits_kept {start last : Shelf} {acts : List Act} (origin : Stored library start)
    (run : Runs (Accepted library) start acts last) :
    Sound last ∧
    (∀ chore ∈ start.cadence.chores, (∀ act ∈ acts, Declares act.edit chore.key) →
      ∃ kept ∈ last.cadence.chores, kept.key = chore.key ∧ kept.choreId = chore.choreId) ∧
    (∀ chore ∈ start.cadence.chores, ∀ later ∈ last.cadence.chores,
      later.choreId = chore.choreId → later.key = chore.key) ∧
    ∀ (act : Act) outcome, last.cadence.edit library act.mint act.edit act.ctx act.ifMatch act.at_ =
      .ok outcome → ∃ merged merge,
        last.cadence.merged library act.mint act.edit act.ifMatch act.at_ = .ok (merged, merge) ∧
          EditKept act.mint act.at_ last.cadence merged outcome := by
  have steps : ∀ shelf act next, Accepted library shelf act next → Sound shelf → Sound next :=
    fun _ _ _ accepted sound => accepted_sound sound accepted
  have start_sound := stored_sound origin
  have sound : Sound last := run.invariant steps start_sound
  refine ⟨sound, ?_, ?_, ?_⟩
  · intro chore mem declared
    exact run.invariant_on steps
      (fun _ _ _ accepted declares sound stands => accepted_keeps sound accepted declares stands)
      declared start_sound ⟨chore, mem, rfl, rfl⟩
  · intro chore mem
    have own : ∀ other ∈ start.cadence.chores, other.choreId = chore.choreId →
        other.key = chore.key := fun other of same =>
      congrArg Chore.key (List.inj_on_of_nodup_map start_sound.ids of mem same)
    have kept := run.invariant_on (I := Sound) (Q := fun _ => True)
      (P := fun shelf => chore.choreId ∈ shelf.issued ∧ ∀ other ∈ shelf.cadence.chores,
        other.choreId = chore.choreId → other.key = chore.key)
      steps
      (fun _ _ _ accepted _ sound before => accepted_apart sound accepted before.1 before.2)
      (fun _ _ => trivial) start_sound ⟨start_sound.issued chore mem, own⟩
    exact kept.2
  · intro act outcome ok
    obtain ⟨merged, merge, merging, _, _, kept⟩ := edit_kept sound.keys ok
    exact ⟨merged, merge, merging, kept⟩

/-- A cron library that refuses nothing and finds no moment. -/
def idleLibrary : CronLibrary :=
  { forward := fun _ _ _ => none, reverse := fun _ _ _ => none,
    refusal := fun _ => none, zoneKnown := fun _ => true }

def choreNamed (key : String) : ChoreShape := { key := some key, routine := some "sweep" }

/-- A cadence of one chore, as its create stores it. -/
def weekly : Cadence :=
  { cadenceId := "cad_1", slug := "weekly", name := "weekly",
    rhythm := { schedule := none, spacing := some ⟨10080, by decide⟩ },
    chores := [⟨"chr_a", ⟨"a", "sweep", .default, [], .full, none, true⟩, 0⟩],
    createdAt := 0, projectId := "proj_1" }

def operator : ChangeContext := { actor := "ana", door := .cli }

def drawId (key : String) : String := "chr_" ++ key

/-- The edit that states the chores of these keys. -/
def restated (keys : List String) : CadenceEdit := { chores := .stated (keys.map choreNamed) }

theorem weekly_stored : Stored idleLibrary (Shelf.put ⟨weekly, []⟩ weekly) := by
  have ok : Cadence.new idleLibrary "cad_1" drawId
      { slug := some "weekly", spacing := some "7d", chores := [choreNamed "a"] } "proj_1" operator
      0 = .ok (weekly, weekly.change operator 1 .create
        (weekly.fieldsDiff none ++
          [⟨"chores.a", .none, .chore ⟨"sweep", none, "full", none, true⟩⟩]) 0) := by
    rfl
  refine .created ⟨?_, fun _ _ => List.not_mem_nil⟩ ok
  intro a of_a b of_b _
  rw [List.mem_singleton.mp of_a, List.mem_singleton.mp of_b]

/-- Where an added chore stands is in no entry: no reading of the entries gives the written order. -/
theorem added_place_untold : ¬ ∃ reading : Cadence → List FieldChange → List String,
    ∀ library shelf, Stored library shelf →
      ∀ mint edit ctx ifMatch at_ edited change,
        shelf.cadence.edit library mint edit ctx ifMatch at_ = .ok (some (edited, change)) →
          reading shelf.cadence change.diff = edited.chores.map Chore.key := by
  rintro ⟨reading, reads⟩
  have after := reads _ _ weekly_stored drawId (restated ["a", "c"]) operator none 1 _ _ rfl
  have before := reads _ _ weekly_stored drawId (restated ["c", "a"]) operator none 1 _ _ rfl
  have same := before.symm.trans after
  revert same
  decide +kernel

/-- A second chore, written before the first. -/
theorem weekly_accepts : ∃ next, next.cadence.revision = 2 ∧
    Accepted idleLibrary (Shelf.put ⟨weekly, []⟩ weekly)
      ⟨restated ["c", "a"], operator, some 1, 1, drawId⟩ next := by
  refine ⟨_, ?_, ⟨?_, ?_⟩, _, rfl, rfl⟩
  · rfl
  · decide +kernel
  · decide +kernel

theorem edits_kept_weekly :
    ∃ last, last.cadence.revision = 2 ∧ Sound last ∧
      ∃ kept ∈ last.cadence.chores, kept.key = "a" ∧ kept.choreId = "chr_a" := by
  obtain ⟨next, revision, accepted⟩ := weekly_accepts
  obtain ⟨sound, keeps, _⟩ := edits_kept weekly_stored (.single accepted)
  have declared : Declares (restated ["c", "a"]) "a" := .inr (by decide +kernel)
  refine ⟨next, revision, sound, keeps _ List.mem_cons_self ?_⟩
  intro act mem
  rw [List.mem_singleton.mp mem]
  exact declared

end Blizzard.CadenceEdits
