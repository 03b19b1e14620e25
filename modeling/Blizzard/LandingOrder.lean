import Mathlib.Data.Prod.Lex
import Mathlib.Data.String.Basic
import Mathlib.Order.Basic
import Mathlib.Data.Bool.Basic
import Blizzard.SortedRanks
import Blizzard.FloatSlots

/-! # A project's landing order

The standing repository links of a project, each at its newest position or
unranked, in the order their repositories land in; and the facts that a whole
order and a single move write, one for each link whose position changes. -/
namespace Blizzard.LandingOrder
open SortedRanks FloatSlots

abbrev RepositoryId := String

structure RankedLink where
  repositoryId : RepositoryId
  slug : String
  position : Option ℚ
  deriving DecidableEq, Repr

/-- Position ascending, unranked after every ranked one, ties by slug. -/
def landingSortKey (position : Option ℚ) (slug : String) : Bool ×ₗ ℚ ×ₗ String :=
  toLex (position.isNone, toLex (position.getD 0, slug))

def RankedLink.key (link : RankedLink) : Bool ×ₗ ℚ ×ₗ String :=
  landingSortKey link.position link.slug

def inLandingOrder (links : List RankedLink) : List RankedLink := ranked RankedLink.key links

/-- A project's links in landing order, and its sequence. A link's repository is its key, and one
tenant's slugs are distinct. -/
structure LandingOrder where
  links : List RankedLink
  seq : ℕ
  ids : (links.map (·.repositoryId)).Nodup
  slugs : (links.map (·.slug)).Nodup
  sorted : links.Pairwise fun a b => a.key ≤ b.key

/-- One position to write; none makes its link unranked. -/
structure PositionFact where
  repositoryId : RepositoryId
  position : Option ℚ
  deriving DecidableEq, Repr

inductive OrderRefused
  | repositoryNotLinked (field : String) (repository : RepositoryId) (project : String)
  | configField (field detail : String)
  deriving DecidableEq, Repr

def firstPosition : ℚ := 1

/-- The link with the newest of the positions written for it, if any. -/
def moved (facts : List PositionFact) (link : RankedLink) : RankedLink :=
  match (facts.filter fun fact => decide (fact.repositoryId = link.repositoryId)).getLast? with
  | some fact => { link with position := fact.position }
  | none => link

/-- The links in landing order once the facts land on them. -/
def after (links : List RankedLink) (facts : List PositionFact) : List RankedLink :=
  inLandingOrder (links.map (moved facts))

def byId (links : List RankedLink) (repositoryId : RepositoryId) : Option RankedLink :=
  links.find? fun link => decide (link.repositoryId = repositoryId)

/-- A fact for each wanted position whose link does not already stand there. -/
def changed (links : List RankedLink) (wanted : List (RepositoryId × Option ℚ)) :
    List PositionFact :=
  (wanted.filter fun pair =>
    decide ((byId links pair.1).bind (·.position) ≠ pair.2)).map fun pair => ⟨pair.1, pair.2⟩

/-- The first named repository that is not linked or is named again. -/
def checkNamed (links : List RankedLink) (project field : String) :
    List RepositoryId → List RepositoryId → Option OrderRefused
  | _, [] => none
  | seen, repositoryId :: ordered =>
    match byId links repositoryId with
    | none => some (.repositoryNotLinked field repositoryId project)
    | some link =>
      if repositoryId ∈ seen then
        some (.configField field ("repository " ++ link.slug ++ " is named twice"))
      else checkNamed links project field (repositoryId :: seen) ordered

/-- The facts that rank `ordered` one apart from the first position, and every other link
unranked. -/
def wholeOrder (links : List RankedLink) (ordered : List RepositoryId) (project : String)
    (field : String := "repositories") : Except OrderRefused (List PositionFact) :=
  match checkNamed links project field [] ordered with
  | some refused => .error refused
  | none =>
    .ok (changed links (links.map fun link =>
      (link.repositoryId, (ordered.idxOf? link.repositoryId).map fun index : ℕ =>
        firstPosition + index)))

/-- The ranked links but one. -/
def rankedOthers (links : List RankedLink) (repositoryId : RepositoryId) : List RankedLink :=
  (inLandingOrder links).filter fun link =>
    link.position.isSome && decide (link.repositoryId ≠ repositoryId)

/-- The facts that land a link after the ranked link at `index`, at the front with none. -/
def landing (spent : ℚ → ℚ → Bool) (links : List RankedLink) (repositoryId : RepositoryId)
    (index : Option ℕ) : Except OrderRefused (List PositionFact) :=
  let others := rankedOthers links repositoryId
  match landAfter spent (others.filterMap (·.position)) index firstPosition with
  | none => .error (.configField "position" "no gap is left")
  | some slot =>
    .ok (changed links (((others.map (·.repositoryId)).zip (slot.renumbered.map some)) ++
      [(repositoryId, some slot.position)]))

/-- The facts that move a link to unranked, or to just after the ranked `after`, to the front with
none. -/
def move (spent : ℚ → ℚ → Bool) (links : List RankedLink) (repositoryId : RepositoryId)
    (after : Option RepositoryId) (unranked : Bool) (project : String) :
    Except OrderRefused (List PositionFact) :=
  match byId links repositoryId with
  | none => .error (.repositoryNotLinked "repository" repositoryId project)
  | some _ =>
    match after with
    | none =>
      if unranked then .ok (changed links [(repositoryId, none)])
      else landing spent links repositoryId none
    | some anchor =>
      match byId links anchor with
      | none => .error (.repositoryNotLinked "after_repository" anchor project)
      | some link =>
        if unranked then
          .error (.configField "after_repository" "an unranked repository is after no other")
        else if anchor = repositoryId then
          .error (.configField "after_repository" "a repository cannot move after itself")
        else
          match (rankedOthers links repositoryId).findIdx? fun other =>
              decide (other.repositoryId = anchor) with
          | none =>
            .error (.configField "after_repository"
              ("repository " ++ link.slug ++ " is unranked; rank it first"))
          | some index => landing spent links repositoryId (some index)

/-- One landing-order write. -/
inductive OrderWrite
  | whole (ordered : List RepositoryId)
  | front (repositoryId : RepositoryId)
  | beside (repositoryId anchor : RepositoryId)
  | unranked (repositoryId : RepositoryId)
  deriving DecidableEq, Repr

/-- The facts a write plans on the order as read. -/
def plan (spent : ℚ → ℚ → Bool) (order : LandingOrder) (project : String) :
    OrderWrite → Except OrderRefused (List PositionFact)
  | .whole ordered => wholeOrder order.links ordered project
  | .front repositoryId => move spent order.links repositoryId none false project
  | .beside repositoryId anchor => move spent order.links repositoryId (some anchor) false project
  | .unranked repositoryId => move spent order.links repositoryId none true project

end Blizzard.LandingOrder
