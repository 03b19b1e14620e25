import Blizzard.CadenceErrands
import Blizzard.SourceText
import Blizzard.ExceptRules
import Mathlib.Data.List.Dedup

/-! # A cadence and its edits

The rhythm and the chores of a cadence as a write states them, their
validation, the merge of declared chores with the stored ones by key, and the
change row of a create, an edit, a retirement. -/
namespace Blizzard.CadenceRecords
open HubTables CadenceSchedules CadenceErrands SourceText

structure ConfigFieldError where
  field : String
  message : String
  deriving DecidableEq, Repr

/-- What a write is refused with. -/
inductive Refused
  | field (error : ConfigFieldError)
  | revision (kind key : String) (current : ℕ)
  deriving DecidableEq, Repr

/-- The cron library with the texts it refuses and the zone database. -/
structure CronLibrary extends CronSim where
  refusal : String → Option String
  zoneKnown : String → Bool

/-- `str.split()`. -/
def words (text : String) : List (List Char) :=
  (text.toList.splitOnP isWhitespace).filter (· ≠ [])

/-- `Schedule.parse`. -/
def parseSchedule (library : CronLibrary) (cron zone : Option String) (at_ : Instant) :
    Except ConfigFieldError Schedule :=
  let cronText := cron.getD ""
  let zoneText := zone.getD ""
  if cronText = "" then
    .error ⟨"schedule.cron", "a schedule states a cron expression"⟩
  else if (words cronText).length ≠ 5 then
    .error ⟨"schedule.cron", s!"a cron expression has five fields, got {quoted cronText}"⟩
  else if zoneText = "" then
    .error ⟨"schedule.zone", "a schedule states its IANA zone"⟩
  else if library.zoneKnown zoneText = false then
    .error ⟨"schedule.zone", s!"no zone named {quoted zoneText} is in the zone database"⟩
  else
    match library.refusal cronText with
    | some text => .error ⟨"schedule.cron", s!"{quoted cronText} is not a cron expression: {text}"⟩
    | none =>
      if library.forward cronText zoneText at_ = none then
        .error ⟨"schedule.cron", s!"{quoted cronText} names no moment in the next fifty years"⟩
      else .ok ⟨cronText, zoneText⟩

/-- A `$` matches before a last newline too. -/
def withoutNewline (text : List Char) : List Char :=
  if text.getLast? = some '\n' then text.dropLast else text

/-- The minutes of a whole number and one unit, `m`, `h` or `d`; none where the pattern fails. -/
def spacingMinutes (raw : String) : Option ℕ :=
  let matched := withoutNewline raw.toList
  let digits := matched.dropLast
  let number := digits.foldl (fun n c => 10 * n + (c.toNat - '0'.toNat)) 0
  if digits ≠ [] ∧ digits.all Char.isDigit then
    match matched.getLast? with
    | some 'm' => some number
    | some 'h' => some (number * 60)
    | some 'd' => some (number * (24 * 60))
    | _ => none
  else none

def parseSpacing (raw : String) : Except ConfigFieldError Spacing :=
  match spacingMinutes raw with
  | none => .error ⟨"spacing", s!"a spacing is a whole number and m, h, or d, got {quoted raw}"⟩
  | some minutes =>
    if least : 1 ≤ minutes then .ok ⟨minutes, least⟩
    else .error ⟨"spacing", s!"a spacing is at least one minute, got {quoted raw}"⟩

def anchorValue : Anchor → String
  | .scheduled => "scheduled"
  | .started => "started"
  | .finished => "finished"

def parseAnchor (raw : String) : Except ConfigFieldError Anchor :=
  match [Anchor.scheduled, .started, .finished].find? fun a => anchorValue a = raw with
  | some anchor => .ok anchor
  | none =>
    .error ⟨"anchor", s!"an anchor is scheduled, started, or finished, got {quoted raw}"⟩

/-- A schedule table as written. -/
structure ScheduleShape where
  cron : Option String
  zone : Option String
  deriving DecidableEq, Repr

/-- `Rhythm.parse` of a stated or a merged rhythm. -/
def parseRhythm (library : CronLibrary) (schedule : Option ScheduleShape)
    (spacing anchor : Option String) (at_ : Instant) : Except ConfigFieldError Rhythm := do
  let parsed ← schedule.mapM fun shape => parseSchedule library shape.cron shape.zone at_
  let parsedSpacing ← spacing.mapM parseSpacing
  if parsed = none ∧ parsedSpacing = none then
    .error ⟨"schedule", "a cadence states a schedule, a spacing, or both"⟩
  else
    match anchor with
    | none => .ok { schedule := parsed, spacing := parsedSpacing }
    | some raw =>
      if parsedSpacing = none then
        .error ⟨"anchor", "an anchor counts a spacing, and this cadence states none"⟩
      else do
        let parsedAnchor ← parseAnchor raw
        .ok { schedule := parsed, spacing := parsedSpacing, anchor := some parsedAnchor }

inductive ScopeSelection | all | listed | default
  deriving DecidableEq, Repr

inductive RunMode | full | delta
  deriving DecidableEq, Repr

def runModeValue : RunMode → String
  | .full => "full"
  | .delta => "delta"

/-- A chore's scopes as written: a text, or a list of slugs. -/
inductive ScopesShape
  | text (raw : String)
  | listed (slugs : List String)
  deriving DecidableEq, Repr

structure ChoreShape where
  key : Option String
  routine : Option String
  scopes : Option ScopesShape := none
  mode : Option String := none
  note : Option String := none
  promote : Option Bool := none
  deriving DecidableEq, Repr

/-- A validated chore; `scopes` holds slugs only when listed. -/
structure ChoreSpec where
  key : String
  routineSlug : String
  selection : ScopeSelection
  scopes : List String
  mode : RunMode
  note : Option String
  promote : Bool
  deriving DecidableEq, Repr

def ChoreSpec.namesSameScopes (spec other : ChoreSpec) : Bool :=
  decide (spec.selection = other.selection) &&
    (spec.scopes.all (· ∈ other.scopes) && other.scopes.all (· ∈ spec.scopes))

def isSlug (raw : String) : Bool :=
  let matched := withoutNewline raw.toList
  decide (matched ≠ []) && matched.all fun c => c.isLower || c.isDigit || c = '-'

/-- `_slug`. -/
def parseSlug (raw field : String) : Except ConfigFieldError String :=
  if isSlug raw then .ok raw
  else .error ⟨field, s!"scope slug must match [a-z0-9-]+, got {quoted raw}"⟩

/-- The selection and the slugs a chore's scopes name; a listed set is held sorted, each slug once. -/
def parseScopes (where_ : String) :
    Option ScopesShape → Except ConfigFieldError (ScopeSelection × List String)
  | none => .ok (.default, [])
  | some (.text raw) =>
    if raw ≠ "all" then
      .error ⟨where_ ++ ".scopes", s!"scopes is 'all' or a list of slugs, got {quoted raw}"⟩
    else .ok (.all, [])
  | some (.listed slugs) =>
    if slugs = [] then .error ⟨where_ ++ ".scopes", "a scope list names at least one scope"⟩
    else do
      let parsed ← slugs.zipIdx.mapM fun (slug, i) => parseSlug slug s!"{where_}.scopes[{i}]"
      .ok (.listed, sortedTexts parsed.dedup)

def parseMode (where_ : String) : Option String → Except ConfigFieldError RunMode
  | none => .ok .full
  | some raw =>
    match [RunMode.full, .delta].find? fun m => runModeValue m = raw with
    | some mode => .ok mode
    | none => .error ⟨where_ ++ ".mode", s!"a mode is full or delta, got {quoted raw}"⟩

/-- `_chore_spec`. -/
def choreSpec (shape : ChoreShape) (where_ : String) : Except ConfigFieldError ChoreSpec :=
  if shape.key.getD "" = "" then .error ⟨where_ ++ ".key", "a chore states its key"⟩
  else do
    let key ← parseSlug (shape.key.getD "") (where_ ++ ".key")
    if shape.routine.getD "" = "" then
      .error ⟨where_ ++ ".routine", "a chore states the routine it runs"⟩
    else do
      let (selection, scopes) ← parseScopes where_ shape.scopes
      let mode ← parseMode where_ shape.mode
      .ok { key, routineSlug := shape.routine.getD "", selection, scopes, mode,
            note := shape.note, promote := shape.promote.getD true }

/-- The chores from one index on, past the keys already seen. -/
def parseChoresFrom (index : ℕ) (seen : List String) :
    List ChoreShape → Except ConfigFieldError (List ChoreSpec)
  | [] => .ok []
  | shape :: shapes => do
    let where_ := s!"chores[{index}]"
    let spec ← choreSpec shape where_
    if spec.key ∈ seen then
      .error ⟨where_ ++ ".key", s!"two chores share the key {quoted spec.key}"⟩
    else do
      let specs ← parseChoresFrom (index + 1) (spec.key :: seen) shapes
      .ok (spec :: specs)

def parseChores (shapes : List ChoreShape) : Except ConfigFieldError (List ChoreSpec) :=
  parseChoresFrom 0 [] shapes

/-- A stored chore, with the id minted when its key first appeared. -/
structure Chore where
  choreId : String
  spec : ChoreSpec
  scopesSetAt : Instant
  deriving DecidableEq, Repr

def Chore.key (chore : Chore) : String := chore.spec.key

/-- A dict of the chores by key: the last of a key stands. -/
def byKey (chores : List Chore) (key : String) : Option Chore :=
  chores.reverse.find? fun chore => chore.key = key

structure ChoreMerge where
  chores : List Chore
  added : List String := []
  removed : List String := []
  changed : List String := []
  deriving DecidableEq, Repr

/-- The chore a declared spec becomes: a new key mints its id, a kept one keeps it. -/
def mergedChore (mint : String → String) (stored : List Chore) (at_ : Instant)
    (spec : ChoreSpec) : Chore :=
  match byKey stored spec.key with
  | none => { choreId := mint spec.key, spec, scopesSetAt := at_ }
  | some held =>
    if held.spec = spec then held
    else
      { held with
        spec
        scopesSetAt := if held.spec.namesSameScopes spec then held.scopesSetAt else at_ }

/-- `merge_chores`; `mint` gives the random id of each new key. -/
def mergeChores (mint : String → String) (stored : List Chore) (declared : List ChoreSpec)
    (at_ : Instant) : ChoreMerge :=
  { chores := declared.map (mergedChore mint stored at_)
    added := (declared.filter fun spec => (byKey stored spec.key).isNone).map (·.key)
    removed := (stored.filter fun chore => chore.key ∉ declared.map (·.key)).map (·.key)
    changed := (declared.filter fun spec =>
      (byKey stored spec.key).any fun held => held.spec ≠ spec).map (·.key) }

inductive Sparse (α : Type)
  | unset
  | stated (value : α)
  deriving DecidableEq, Repr

def Sparse.getD {α : Type} (held : α) : Sparse α → α
  | .unset => held
  | .stated value => value

/-- A cadence as a create writes it. -/
structure CadenceShape where
  slug : Option String
  name : Option String := none
  schedule : Option ScheduleShape := none
  spacing : Option String := none
  anchor : Option String := none
  chores : List ChoreShape := []
  deriving DecidableEq, Repr

/-- A sparse edit; `chores`, when stated, is the whole list. -/
structure CadenceEdit where
  name : Sparse (Option String) := .unset
  schedule : Sparse (Option ScheduleShape) := .unset
  spacing : Sparse (Option String) := .unset
  anchor : Sparse (Option String) := .unset
  chores : Sparse (List ChoreShape) := .unset
  deriving DecidableEq, Repr

def CadenceEdit.touchesRhythm (edit : CadenceEdit) : Bool :=
  decide (edit.schedule ≠ .unset ∨ edit.spacing ≠ .unset ∨ edit.anchor ≠ .unset)

inductive Door | board | cli | api | apply | migration
  deriving DecidableEq, Repr

inductive ChangeOp | create | edit | retire | enable | replace
  deriving DecidableEq, Repr

structure ChangeContext where
  actor : String
  door : Door
  applyId : Option String := none
  deriving DecidableEq, Repr

/-- A chore as its change row reports it. -/
structure ChoreValue where
  routine : String
  scopes : Option ScopesShape
  mode : String
  note : Option String
  promote : Bool
  deriving DecidableEq, Repr

/-- A projected value of a change entry. -/
inductive FieldValue
  | none
  | text (value : String)
  | flag (value : Bool)
  | schedule (cron zone : String)
  | minutes (value : ℕ)
  | chore (value : ChoreValue)
  | order (keys : List String)
  deriving DecidableEq, Repr

structure FieldChange where
  field : String
  old : FieldValue
  new : FieldValue
  deriving DecidableEq, Repr

structure ConfigChange where
  recordedAt : Instant
  actor : String
  door : Door
  recordKind : String
  recordKey : String
  revision : ℕ
  op : ChangeOp
  diff : List FieldChange
  applyId : Option String
  projectId : Option String
  deriving DecidableEq, Repr

/-- `lifecycle.field_changes`. -/
def fieldChanges (fields : List (String × FieldValue × FieldValue)) : List FieldChange :=
  (fields.filter fun (_, old, new) => old ≠ new).map fun (name, old, new) => ⟨name, old, new⟩

def choreValue (spec : ChoreSpec) : ChoreValue :=
  { routine := spec.routineSlug
    scopes := match spec.selection with
      | .all => some (.text "all")
      | .listed => some (.listed spec.scopes)
      | .default => none
    mode := runModeValue spec.mode
    note := spec.note
    promote := spec.promote }

/-- The wire name of a chore's entry. -/
def choreField (key : String) : String := "chores." ++ key

/-- The value of the chore under a key; none where no chore has it. -/
def keyedValue (chores : List Chore) (key : String) : FieldValue :=
  match byKey chores key with
  | none => .none
  | some chore => .chore (choreValue chore.spec)

/-- The keys of the chores also kept beside, in their order. -/
def keptOrder (chores beside : List Chore) : List String :=
  (chores.map Chore.key).filter fun key => key ∈ beside.map Chore.key

/-- `_chore_changes`: the chores added, changed and removed, then the order of those kept. -/
def choreChanges (stored : List Chore) (merge : ChoreMerge) : List FieldChange :=
  let oldOrder := keptOrder stored merge.chores
  let newOrder := keptOrder merge.chores stored
  (merge.added.map fun key => ⟨choreField key, .none, keyedValue merge.chores key⟩) ++
    (merge.changed.map fun key =>
      ⟨choreField key, keyedValue stored key, keyedValue merge.chores key⟩) ++
    (merge.removed.map fun key => ⟨choreField key, keyedValue stored key, .none⟩) ++
    (if oldOrder ≠ newOrder then [⟨"chores.order", .order oldOrder, .order newOrder⟩] else [])

structure Cadence where
  cadenceId : String
  slug : String
  name : String
  rhythm : Rhythm
  chores : List Chore
  createdAt : Instant
  projectId : String
  revision : ℕ := 1
  retired : Bool := false
  deriving DecidableEq, Repr

def scheduleValue (rhythm : Rhythm) : FieldValue :=
  match rhythm.schedule with
  | none => .none
  | some schedule => .schedule schedule.cron schedule.zone

def spacingValue (rhythm : Rhythm) : FieldValue :=
  match rhythm.spacing with
  | none => .none
  | some spacing => .minutes spacing.minutes

def rhythmAnchorValue (rhythm : Rhythm) : FieldValue :=
  match rhythm.anchor with
  | none => .none
  | some anchor => .text (anchorValue anchor)

/-- The values of `_fields_diff`, in its order. -/
def Cadence.ownValues (cadence : Cadence) : List FieldValue :=
  [.text cadence.name, scheduleValue cadence.rhythm, spacingValue cadence.rhythm,
    rhythmAnchorValue cadence.rhythm]

def ownFields : List String := ["name", "schedule", "spacing_minutes", "anchor"]

/-- `_fields_diff`: against none for a create. -/
def Cadence.fieldsDiff (cadence : Cadence) (old : Option Cadence) : List FieldChange :=
  let oldValues := match old with
    | none => List.replicate ownFields.length FieldValue.none
    | some record => record.ownValues
  fieldChanges (ownFields.zip (oldValues.zip cadence.ownValues))

/-- `_change`, through `ConfigChange.of`. -/
def Cadence.change (cadence : Cadence) (ctx : ChangeContext) (revision : ℕ) (op : ChangeOp)
    (changes : List FieldChange) (at_ : Instant) : ConfigChange :=
  { recordedAt := at_, actor := ctx.actor, door := ctx.door, recordKind := "cadence",
    recordKey := cadence.slug, revision, op, diff := changes, applyId := ctx.applyId,
    projectId := some cadence.projectId }

/-- `Cadence.new`: at revision 1, with its create change. -/
def Cadence.new (library : CronLibrary) (cadenceId : String) (mint : String → String)
    (shape : CadenceShape) (projectId : String) (ctx : ChangeContext) (at_ : Instant) :
    Except ConfigFieldError (Cadence × ConfigChange) :=
  if shape.slug.getD "" = "" then .error ⟨"slug", "a cadence states its slug"⟩
  else do
    let slug ← parseSlug (shape.slug.getD "") "slug"
    let rhythm ← parseRhythm library shape.schedule shape.spacing shape.anchor at_
    let specs ← parseChores shape.chores
    let merge := mergeChores mint [] specs at_
    let name := if shape.name.getD "" = "" then slug else shape.name.getD ""
    let record : Cadence :=
      { cadenceId, slug, name, rhythm, chores := merge.chores, createdAt := at_, projectId }
    let changes := record.fieldsDiff none ++ choreChanges [] merge
    .ok (record, record.change ctx 1 .create changes at_)

/-- `require_revision`. -/
def Cadence.requireRevision (cadence : Cadence) (ifMatch : Option ℕ) : Except Refused Unit :=
  match ifMatch with
  | none => .ok ()
  | some revision =>
    if revision ≠ cadence.revision then .error (.revision "cadence" cadence.slug cadence.revision)
    else .ok ()

/-- `_merged_rhythm`: the stored rhythm written back, each stated field over it, validated whole. -/
def Cadence.mergedRhythm (library : CronLibrary) (cadence : Cadence) (edit : CadenceEdit)
    (at_ : Instant) : Except ConfigFieldError Rhythm :=
  let held := cadence.rhythm
  let heldSchedule := held.schedule.map fun s => ScheduleShape.mk (some s.cron) (some s.zone)
  let heldSpacing := held.spacing.map fun s => toString s.minutes ++ "m"
  let heldAnchor := held.anchor.map anchorValue
  parseRhythm library (edit.schedule.getD heldSchedule) (edit.spacing.getD heldSpacing)
    (edit.anchor.getD heldAnchor) at_

/-- The rhythm an edit leaves. -/
def Cadence.editedRhythm (library : CronLibrary) (cadence : Cadence) (edit : CadenceEdit)
    (at_ : Instant) : Except ConfigFieldError Rhythm :=
  if edit.touchesRhythm then cadence.mergedRhythm library edit at_ else .ok cadence.rhythm

/-- A field error as the refusal of a verb. -/
def checked {α : Type} (parsed : Except ConfigFieldError α) : Except Refused α :=
  parsed.mapError .field

/-- The name an edit leaves; null is refused. -/
def Cadence.mergedName (cadence : Cadence) (edit : CadenceEdit) : Except ConfigFieldError String :=
  match edit.name with
  | .unset => .ok cadence.name
  | .stated none => .error ⟨"name", "must not be null"⟩
  | .stated (some name) => .ok name

/-- The chores an edit leaves, with what it did to them. -/
def Cadence.merge (mint : String → String) (cadence : Cadence) (edit : CadenceEdit)
    (at_ : Instant) : Except ConfigFieldError ChoreMerge :=
  match edit.chores with
  | .unset => .ok { chores := cadence.chores }
  | .stated shapes => do
    let specs ← parseChores shapes
    .ok (mergeChores mint cadence.chores specs at_)

/-- The record `Cadence.edit` merges, still at the stored revision, and the chores' merge. -/
def Cadence.merged (library : CronLibrary) (mint : String → String) (cadence : Cadence)
    (edit : CadenceEdit) (ifMatch : Option ℕ) (at_ : Instant) :
    Except Refused (Cadence × ChoreMerge) := do
  cadence.requireRevision ifMatch
  let name ← checked (cadence.mergedName edit)
  let rhythm ← checked (cadence.editedRhythm library edit at_)
  let merge ← checked (cadence.merge mint edit at_)
  .ok ({ cadence with name, rhythm, chores := merge.chores }, merge)

/-- `Cadence.edit`: none where the edit changes nothing. -/
def Cadence.edit (library : CronLibrary) (mint : String → String) (cadence : Cadence)
    (edit : CadenceEdit) (ctx : ChangeContext) (ifMatch : Option ℕ) (at_ : Instant) :
    Except Refused (Option (Cadence × ConfigChange)) := do
  let (merged, merge) ← cadence.merged library mint edit ifMatch at_
  let changes := merged.fieldsDiff (some cadence) ++ choreChanges cadence.chores merge
  if changes = [] then .ok none
  else
    let edited := { merged with revision := cadence.revision + 1 }
    .ok (some (edited, cadence.change ctx edited.revision .edit changes at_))

inductive RecordState | active | retired
  deriving DecidableEq, Repr

def RecordState.of (retired : Bool) : RecordState :=
  if retired then .retired else .active

inductive Verdict | legal | noOp | refused
  deriving DecidableEq, Repr

/-- Which lifecycle verbs are legal from which state; no entry for a create or a replace. -/
def fieldedRecordTransitions : RecordState → ChangeOp → Option Verdict
  | _, .edit => some .legal
  | .active, .retire => some .legal
  | .active, .enable => some .noOp
  | .retired, .retire => some .noOp
  | .retired, .enable => some .legal
  | _, _ => none

def transition (retired desired : Bool) : Option ChangeOp :=
  let op := if desired then ChangeOp.retire else .enable
  if fieldedRecordTransitions (.of retired) op = some .noOp then none else some op

/-- `Cadence.set_retired`: none where it already stands there. -/
def Cadence.setRetired (cadence : Cadence) (retired : Bool) (ctx : ChangeContext)
    (ifMatch : Option ℕ) (at_ : Instant) : Except Refused (Option (Cadence × ConfigChange)) := do
  cadence.requireRevision ifMatch
  match transition cadence.retired retired with
  | none => .ok none
  | some op =>
    let moved := { cadence with revision := cadence.revision + 1, retired }
    let flip := fieldChanges [("retired", .flag cadence.retired, .flag retired)]
    .ok (some (moved, cadence.change ctx moved.revision op flip at_))

end Blizzard.CadenceRecords
