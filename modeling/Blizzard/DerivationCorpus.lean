import Mathlib.Data.List.Sort
import Mathlib.Data.List.Dedup

/-! # One tenant's derivation corpus

The transcript segments and chunks a tenant holds, the markers of the segments
derived so far, and the three reads a derivation pass makes of them: the change
probe, the candidacy and the derived segments. -/
namespace Blizzard.DerivationCorpus

/-- Microseconds. -/
abbrev Instant := ℤ

/-- What a segment's fingerprint is hashed from: each record's digest and harness version. -/
abbrev Fingerprint := List (String × Option String)

/-- A row of `transcript_segments`. -/
structure SegmentRow where
  id : ℕ
  segmentId : String
  chunkId : String
  turnRangeStart : ℕ
  final : Bool
  supersedes : Option String
  contentDigest : String
  harnessVersion : Option String
  receivedAt : Instant
  deriving DecidableEq, Repr

/-- A row of `transcript_event_derivations`; the segment's event rows stand and fall with it. -/
structure DerivationMarker where
  segmentId : String
  extractorVersion : String
  contentFingerprint : Fingerprint
  deriving DecidableEq, Repr

/-- What one tenant's tables hold. -/
structure Corpus where
  segments : List SegmentRow
  chunks : List String
  markers : List DerivationMarker
  isOpen : Bool
  deriving DecidableEq, Repr

structure DerivationSignature where
  segmentCount : ℕ
  maxSegmentId : Option ℕ
  maxReceivedAt : Option Instant
  chunkCount : ℕ
  deriving DecidableEq, Repr

/-- The signature of a tenant holding no segment and no chunk. -/
def gone : DerivationSignature := ⟨0, none, none, 0⟩

structure CandidacyRead where
  visibleSegmentIds : List String
  candidateSegmentIds : List String
  deriving DecidableEq, Repr

def forcedFullPassFloor : Instant := 10 * 60 * 1000000

def derivationDue (lastSignature : Option DerivationSignature) (signature : DerivationSignature)
    (lastFullPassAt : Option Instant) (now : Instant) : Bool :=
  match lastFullPassAt with
  | none => true
  | some last =>
    if forcedFullPassFloor ≤ now - last then true else decide (some signature ≠ lastSignature)

def isCandidate (markerFingerprint : Option Fingerprint) (currentFingerprint : Fingerprint) : Bool :=
  decide (markerFingerprint ≠ some currentFingerprint)

namespace Corpus

/-- The change probe: a tenant holding neither segment nor chunk has no entry in it. -/
def derivationSignature (corpus : Corpus) : Option DerivationSignature :=
  if corpus.segments = [] ∧ corpus.chunks = [] then none
  else some {
    segmentCount := corpus.segments.length
    maxSegmentId := (corpus.segments.map (·.id)).max?
    maxReceivedAt := (corpus.segments.map (·.receivedAt)).max?
    chunkCount := corpus.chunks.length }

def superseded (corpus : Corpus) (segmentId : String) : Bool :=
  corpus.segments.any fun successor => successor.supersedes == some segmentId

/-- Final, of a minted chunk, and superseded by no segment; an open tenant's only. -/
def visibleSegmentIds (corpus : Corpus) : List String :=
  if corpus.isOpen then
    ((corpus.segments.filter fun row =>
        row.final && !corpus.superseded row.segmentId && corpus.chunks.contains row.chunkId).map
      (·.segmentId)).dedup.insertionSort (· ≤ ·)
  else []

def contentFingerprint (corpus : Corpus) (segmentId : String) : Fingerprint :=
  ((corpus.segments.filter fun row => row.segmentId == segmentId).insertionSort
      fun a b => a.turnRangeStart ≤ b.turnRangeStart).map
    fun row => (row.contentDigest, row.harnessVersion)

def markerFingerprint (corpus : Corpus) (extractorVersion segmentId : String) :
    Option Fingerprint :=
  (corpus.markers.find? fun marker =>
    marker.segmentId == segmentId && marker.extractorVersion == extractorVersion).map
      (·.contentFingerprint)

/-- A tenant with no visible segment has no entry in the read. -/
def candidacy (corpus : Corpus) (extractorVersion : String) : Option CandidacyRead :=
  if corpus.visibleSegmentIds = [] then none
  else some {
    visibleSegmentIds := corpus.visibleSegmentIds
    candidateSegmentIds := corpus.visibleSegmentIds.filter fun id =>
      isCandidate (corpus.markerFingerprint extractorVersion id) (corpus.contentFingerprint id) }

/-- The candidates of the read, none where the tenant has no entry in it. -/
def candidateSegmentIds (corpus : Corpus) (extractorVersion : String) : List String :=
  match corpus.candidacy extractorVersion with
  | some read => read.candidateSegmentIds
  | none => []

/-- The segments carrying a marker of any version, the tenant open or not. -/
def markedIds (corpus : Corpus) : List String :=
  corpus.markers.map (·.segmentId)

/-- The segments carrying any derivation marker, an open tenant's only. -/
def derivedSegmentIds (corpus : Corpus) : List String :=
  if corpus.isOpen then corpus.markedIds.dedup else []

/-- The segment's marker of this version, replaced. -/
def replaceSegmentEvents (corpus : Corpus) (segmentId extractorVersion : String)
    (fingerprint : Fingerprint) : Corpus :=
  { corpus with
    markers := (corpus.markers.filter fun marker =>
        !(marker.segmentId == segmentId && marker.extractorVersion == extractorVersion)) ++
      [⟨segmentId, extractorVersion, fingerprint⟩] }

/-- The segments' markers of every version, deleted. -/
def dropSegments (corpus : Corpus) (segmentIds : List String) : Corpus :=
  { corpus with markers := corpus.markers.filter fun marker =>
      !segmentIds.contains marker.segmentId }

/-- What the rest of the hub may do to a tenant between two steps of the reconciler: its segments
and chunks change freely, markers only go, and a closed tenant stays closed. -/
def Permits (corpus changed : Corpus) : Prop :=
  changed.markers ⊆ corpus.markers ∧ (changed.isOpen → corpus.isOpen)

instance (corpus changed : Corpus) : Decidable (corpus.Permits changed) :=
  inferInstanceAs (Decidable (_ ∧ _))

variable {corpus changed : Corpus} {id : String}

theorem derivationSignature_ne_gone {signature : DerivationSignature}
    (h : corpus.derivationSignature = some signature) : signature ≠ gone := by
  simp only [derivationSignature] at h
  split at h
  · cases h
  · rename_i holds
    rintro rfl
    simp only [gone, Option.some.injEq, DerivationSignature.mk.injEq,
      List.length_eq_zero_iff] at h
    exact holds ⟨h.1, h.2.2.2⟩

theorem derivationSignature_eq_none :
    corpus.derivationSignature = none ↔ corpus.segments = [] ∧ corpus.chunks = [] := by
  simp [derivationSignature]

/-- A tenant the probe has no entry for has no visible segment. -/
theorem visibleSegmentIds_of_gone (h : corpus.derivationSignature = none) :
    corpus.visibleSegmentIds = [] := by
  obtain ⟨none_, -⟩ := derivationSignature_eq_none.mp h
  simp [visibleSegmentIds, none_]

theorem candidacy_isNone {extractorVersion : String} :
    (corpus.candidacy extractorVersion).isNone ↔ corpus.visibleSegmentIds = [] := by
  simp only [candidacy]
  split <;> simp_all

theorem candidateSegmentIds_subset (extractorVersion : String) :
    corpus.candidateSegmentIds extractorVersion ⊆ corpus.visibleSegmentIds := by
  intro id hid
  by_cases none_ : corpus.visibleSegmentIds = []
  · simp [candidateSegmentIds, candidacy, none_] at hid
  · simp only [candidateSegmentIds, candidacy, if_neg none_] at hid
    exact List.mem_of_mem_filter hid

theorem mem_derivedSegmentIds :
    id ∈ corpus.derivedSegmentIds ↔ corpus.isOpen ∧ id ∈ corpus.markedIds := by
  cases h : corpus.isOpen <;> simp [derivedSegmentIds, h]

@[simp] theorem replaceSegmentEvents_isOpen (segmentId extractorVersion : String)
    (fingerprint : Fingerprint) :
    (corpus.replaceSegmentEvents segmentId extractorVersion fingerprint).isOpen = corpus.isOpen :=
  rfl

@[simp] theorem dropSegments_isOpen (segmentIds : List String) :
    (corpus.dropSegments segmentIds).isOpen = corpus.isOpen := rfl

/-- A replacement marks no segment but its own. -/
theorem mem_markedIds_replace {segmentId extractorVersion : String} {fingerprint : Fingerprint}
    (h : id ∈ (corpus.replaceSegmentEvents segmentId extractorVersion fingerprint).markedIds) :
    id ∈ corpus.markedIds ∨ id = segmentId := by
  simp only [markedIds, replaceSegmentEvents, List.map_append, List.mem_append, List.mem_map,
    List.mem_filter, List.map_cons, List.map_nil, List.mem_singleton] at h ⊢
  rcases h with ⟨marker, ⟨mem, -⟩, rfl⟩ | rfl
  · exact .inl ⟨marker, mem, rfl⟩
  · exact .inr rfl

theorem mem_markedIds_drop {segmentIds : List String} :
    id ∈ (corpus.dropSegments segmentIds).markedIds ↔ id ∈ corpus.markedIds ∧ id ∉ segmentIds := by
  simp only [markedIds, dropSegments, List.mem_map, List.mem_filter]
  constructor
  · rintro ⟨marker, ⟨mem, kept⟩, rfl⟩
    exact ⟨⟨marker, mem, rfl⟩, by simpa using kept⟩
  · rintro ⟨⟨marker, mem, rfl⟩, kept⟩
    exact ⟨marker, ⟨mem, by simpa using kept⟩, rfl⟩

/-- What the rest of the hub does marks nothing. -/
theorem Permits.marked (h : corpus.Permits changed) (mem : id ∈ changed.markedIds) :
    id ∈ corpus.markedIds := by
  obtain ⟨marker, hm, rfl⟩ := List.mem_map.mp mem
  exact List.mem_map.mpr ⟨marker, h.1 hm, rfl⟩

end Corpus

/-- What never converged is due. -/
theorem derivationDue_none (lastSignature : Option DerivationSignature)
    (signature : DerivationSignature) (now : Instant) :
    derivationDue lastSignature signature none now := rfl

/-- Where the floor has elapsed since the last full pass, a pass is due. -/
theorem derivationDue_of_floor {last now : Instant} (lastSignature : Option DerivationSignature)
    (signature : DerivationSignature) (elapsed : forcedFullPassFloor ≤ now - last) :
    derivationDue lastSignature signature (some last) now := by
  simp [derivationDue, elapsed]

/-- A changed signature is due at once. -/
theorem derivationDue_of_ne {lastSignature : Option DerivationSignature}
    {signature : DerivationSignature} (changed : some signature ≠ lastSignature)
    (lastFullPassAt : Option Instant) (now : Instant) :
    derivationDue lastSignature signature lastFullPassAt now := by
  cases lastFullPassAt with
  | none => rfl
  | some last => simp [derivationDue, changed]

end Blizzard.DerivationCorpus
