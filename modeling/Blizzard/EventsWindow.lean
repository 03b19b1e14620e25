import Mathlib.Data.Prod.Lex
import Mathlib.Data.String.Basic
import Mathlib.Data.Bool.Basic
import Blizzard.HubTables
import Blizzard.SortedRanks
import Blizzard.BoundedMerges

/-! # The events window

The derivation markers and drop facts one export pass takes: two reads past the
pass's position, each in the events order up to a limit, merged and cut at a
number of rows on an item boundary. -/
namespace Blizzard.EventsWindow
open HubTables SortedRanks BoundedMerges

abbrev TenantId := String

/-- A position in the events order: the source's time, the segment, the extractor version, empty for a
drop, then the tenant; none stands past every tenant's item beside it. -/
structure EventsPosition where
  at_ : Instant
  segmentId : String := ""
  extractorVersion : String := ""
  tenant : Option TenantId := none
  deriving DecidableEq, Repr

def EventsPosition.order (position : EventsPosition) :
    Instant ×ₗ String ×ₗ String ×ₗ Bool ×ₗ String :=
  toLex (position.at_, toLex (position.segmentId, toLex (position.extractorVersion,
    toLex (position.tenant.isNone, position.tenant.getD ""))))

theorem EventsPosition.order_injective : Function.Injective EventsPosition.order := by
  rintro ⟨at_, segment, version, tenant⟩ ⟨at', segment', version', tenant'⟩ same
  simp only [order, EmbeddingLike.apply_eq_iff_eq, Prod.mk.injEq] at same
  obtain ⟨rfl, rfl, rfl, none_, name⟩ := same
  cases tenant with
  | none => cases tenant' with
    | none => rfl
    | some _ => cases none_
  | some _ => cases tenant' with
    | none => cases none_
    | some _ =>
      cases name
      rfl

instance : LinearOrder EventsPosition :=
  LinearOrder.lift' EventsPosition.order EventsPosition.order_injective

/-- One segment's most recent derivation by one extractor version. -/
structure DerivationMarker where
  segmentId : String
  extractorVersion : String
  contentFingerprint : String
  derivedAt : Instant
  eventCount : ℕ
  complete : Bool
  tenant : Option TenantId := none
  deriving DecidableEq, Repr

/-- One segment's drop: the moment its events stopped counting. -/
structure DropFact where
  segmentId : String
  chunkId : ChunkId
  epoch : ℤ
  spawnGeneration : ℤ
  droppedAt : Instant
  tenant : Option TenantId := none
  deriving DecidableEq, Repr

inductive EventsItem
  | marker (marker : DerivationMarker)
  | drop (fact : DropFact)
  deriving DecidableEq, Repr

def positionOf : EventsItem → EventsPosition
  | .drop fact => ⟨fact.droppedAt, fact.segmentId, "", fact.tenant⟩
  | .marker marker =>
    ⟨marker.derivedAt, marker.segmentId, marker.extractorVersion, marker.tenant⟩

/-- The rows an item becomes: a derivation's own and one for each event, a drop's one. -/
def cost : EventsItem → ℕ
  | .drop _ => 1
  | .marker marker => 1 + marker.eventCount

/-- The loop over the merged items: nothing past the bound, and no item past `limit` rows but the
first. -/
def takeLoop (bound : Option EventsPosition) (limit : ℕ) :
    List EventsItem → ℕ → List EventsItem → List EventsItem
  | taken, _, [] => taken
  | taken, rows, item :: items =>
    if bound.any fun last => decide (last < positionOf item) then taken
    else if taken ≠ [] ∧ limit < rows + cost item then taken
    else takeLoop bound limit (taken ++ [item]) (rows + cost item) items

/-- The items one pass writes, in cursor order, from two reads each capped at `readLimit`. -/
def take (markers : List DerivationMarker) (drops : List DropFact) (limit readLimit : ℕ) :
    List EventsItem :=
  let bound := leastBound (fullBound positionOf readLimit (markers.map EventsItem.marker))
    (fullBound positionOf readLimit (drops.map EventsItem.drop))
  takeLoop bound limit [] 0
    (merged positionOf (markers.map EventsItem.marker) (drops.map EventsItem.drop))

/-! ## The reads -/

structure MarkerRow where
  tenantId : TenantId
  segmentId : String
  extractorVersion : String
  contentFingerprint : String
  derivedAt : Instant
  eventCount : ℕ
  complete : Bool
  deriving DecidableEq, Repr

structure DropRow where
  id : ℕ
  segmentId : String
  chunkId : ChunkId
  epoch : ℤ
  spawnGeneration : ℤ
  droppedAt : Instant
  tenantId : TenantId
  deriving DecidableEq, Repr

def marker (row : MarkerRow) : DerivationMarker where
  segmentId := row.segmentId
  extractorVersion := row.extractorVersion
  contentFingerprint := row.contentFingerprint
  derivedAt := row.derivedAt
  eventCount := row.eventCount
  complete := row.complete
  tenant := some row.tenantId

def drop (row : DropRow) : DropFact where
  segmentId := row.segmentId
  chunkId := row.chunkId
  epoch := row.epoch
  spawnGeneration := row.spawnGeneration
  droppedAt := row.droppedAt
  tenant := some row.tenantId

/-- The open tenants' markers and drops. A marker's tenant, segment and version are its key, and no
extractor's version is empty. -/
structure EventsCorpus where
  markers : List MarkerRow := []
  drops : List DropRow := []
  keyed : (markers.map fun row => (row.tenantId, row.segmentId, row.extractorVersion)).Nodup
  versioned : ∀ row ∈ markers, row.extractorVersion ≠ ""

def markerPast (position : EventsPosition) (row : MarkerRow) : Bool :=
  let later := decide (position.at_ < row.derivedAt) ||
    decide (row.derivedAt = position.at_) &&
      (decide (position.segmentId < row.segmentId) ||
        decide (row.segmentId = position.segmentId) &&
          decide (position.extractorVersion < row.extractorVersion))
  match position.tenant with
  | none => later
  | some tenant =>
    later || decide (row.derivedAt = position.at_) && decide (row.segmentId = position.segmentId) &&
      decide (row.extractorVersion = position.extractorVersion) && decide (tenant < row.tenantId)

def dropPast (position : EventsPosition) (row : DropRow) : Bool :=
  let past := decide (position.at_ < row.droppedAt) ||
    decide (row.droppedAt = position.at_) && decide (position.segmentId < row.segmentId)
  match position.tenant with
  | none => past
  | some tenant =>
    if position.extractorVersion = "" then
      past || decide (row.droppedAt = position.at_) &&
        decide (row.segmentId = position.segmentId) && decide (tenant < row.tenantId)
    else past

def markerOrder (row : MarkerRow) : Instant ×ₗ String ×ₗ String ×ₗ String :=
  toLex (row.derivedAt, toLex (row.segmentId, toLex (row.extractorVersion, row.tenantId)))

def dropOrder (row : DropRow) : Instant ×ₗ String ×ₗ String ×ₗ ℕ :=
  toLex (row.droppedAt, toLex (row.segmentId, toLex (row.tenantId, row.id)))

def markersAfter (corpus : EventsCorpus) (position : EventsPosition) (until_ : Instant)
    (limit : ℕ) (extractorVersion : Option String) : List DerivationMarker :=
  ((ranked markerOrder (corpus.markers.filter fun row =>
    markerPast position row && decide (row.derivedAt ≤ until_) &&
      extractorVersion.all fun version => decide (row.extractorVersion = version))).take limit).map
        marker

def dropsAfter (corpus : EventsCorpus) (position : EventsPosition) (until_ : Instant)
    (limit : ℕ) : List DropFact :=
  ((ranked dropOrder (corpus.drops.filter fun row =>
    dropPast position row && decide (row.droppedAt ≤ until_))).take limit).map drop

/-- The items of one pass from a position. -/
def eventsPass (corpus : EventsCorpus) (until_ : Instant) (extractorVersion : Option String)
    (readLimit limit : ℕ) (position : EventsPosition) : List EventsItem :=
  take (markersAfter corpus position until_ readLimit extractorVersion)
    (dropsAfter corpus position until_ readLimit) limit readLimit

end Blizzard.EventsWindow
