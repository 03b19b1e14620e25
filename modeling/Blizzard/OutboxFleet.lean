import Blizzard.OutboxLanes

/-! # A runner's outboxes over its stores

The runner runs on one host's store, its home, and enqueues, drains and prunes there. While it does
not run, an operator copies its rows between stores: a reset into an archive, an ingest into another
host, which then is the home, or an ingest of an archive back. Each transaction is one step, and the
process may stop between any two. -/
namespace Blizzard.OutboxFleet
open HubTables OutboxLanes

abbrev StoreId := String

/-- One lane's drain: the rows it read and has not sent, or sent and not acknowledged yet. -/
inductive Flight
  | walking (rest : List OutboxRow)
  | answered (group rest : List OutboxRow)

/-- What the hub received under a number. -/
structure Delivery where
  seq : ℕ
  entry : Buffered
  deriving DecidableEq, Repr

def OutboxRow.delivery (row : OutboxRow) : Delivery := ⟨row.seq, row.entry⟩

def Delivery.lane (d : Delivery) : Lane := d.entry.lane

/-- `copied` names the store a copy of this store's rows went to, until this store's runner runs on
or either is emptied. `issued` is every committed insert in commit order and `hub` what the hub
received in order of arrival. -/
structure Fleet where
  stores : StoreId → Outbox
  home : StoreId
  clock : Instant
  copied : StoreId → Option StoreId := fun _ => none
  flight : Lane → Option Flight := fun _ => none
  issued : List Delivery := []
  hub : List Delivery := []

def Fleet.start (home : StoreId) (clock : Instant) : Fleet :=
  { stores := fun _ => {}, home, clock }

def Fleet.here (w : Fleet) : Outbox := w.stores w.home

inductive Event
  | unit (entries : List Buffered) (commits : Bool)
  | tick (elapsed : ℕ)
  | prune
  | drain (lane : Lane)
  | push (lane : Lane) (received : ℕ) (answered : Bool)
  | ack (lane : Lane)
  | restart
  | copy (source destination : StoreId)
  | move (destination : StoreId)
  | reset (store archive : StoreId)
  | discard (source : StoreId)

/-- The home's outbox after the runner wrote to it. -/
def Fleet.ran (w : Fleet) (outbox : Outbox) : Fleet :=
  { w with
    stores := Function.update w.stores w.home outbox
    copied := Function.update w.copied w.home none }

/-- No drain is under way, as while the host is stopped. -/
def Fleet.Still (w : Fleet) : Prop := w.flight .outbound = none ∧ w.flight .transcript = none

/-- A store as its migrations leave it. -/
def Unused (o : Outbox) : Prop :=
  o.rows = [] ∧ o.lastSeq .outbound = none ∧ o.lastSeq .transcript = none

/-- What a transaction's inserts issued, in order. -/
def issuedBy (before after : Outbox) : List Delivery :=
  (after.rows.drop before.rows.length).map OutboxRow.delivery

/-- No copy of a store stands, nor one into it. -/
def Fleet.forgets (w : Fleet) (store : StoreId) : StoreId → Option StoreId :=
  fun s => if s = store ∨ w.copied s = some store then none else w.copied s

instance (f : Option Flight) : Decidable (f = none) :=
  match f with
  | none => .isTrue rfl
  | some _ => .isFalse (by simp)

instance (o : Outbox) : Decidable (Unused o) := inferInstanceAs (Decidable (_ ∧ _))

instance (w : Fleet) : Decidable w.Still := inferInstanceAs (Decidable (_ ∧ _))

def Fleet.step (cap : ℕ) (w : Fleet) : Event → Fleet
  | .unit entries commits =>
    match insertAll w.clock w.here entries with
    | some after =>
      if commits then
        { w.ran after with issued := w.issued ++ issuedBy w.here after }
      else w
    | none => w
  | .tick elapsed => { w with clock := w.clock + elapsed }
  | .prune => w.ran (pruneOutbound w.here w.clock)
  | .drain lane =>
    match w.flight lane with
    | none =>
      { w.ran w.here with
        flight := Function.update w.flight lane (some (.walking (w.here.pending lane))) }
    | some _ => w
  -- a request may reach the hub in part, and its answer may be lost
  | .push lane received answered =>
    match w.flight lane with
    | some (.walking rest) =>
      let group := nextGroup cap lane rest
      let left := rest.drop group.length
      let next := if answered ∧ group ≠ [] then some (.answered group left) else none
      { w with
        hub := w.hub ++ (if answered then group else group.take received).map OutboxRow.delivery
        flight := Function.update w.flight lane next }
    | _ => w
  | .ack lane =>
    match w.flight lane with
    | some (.answered group rest) =>
      { w.ran (ackBatch lane w.here (group.map (·.seq)) w.clock) with
        flight := Function.update w.flight lane (some (.walking rest)) }
    | _ => w
  | .restart => { w with flight := fun _ => none }
  | .copy source destination =>
    if w.Still ∧ source ≠ destination ∧ (w.stores destination).rows = [] then
      match carryOutboxRows (w.stores source) (w.stores destination) with
      | some held =>
        { w with
          stores := Function.update w.stores destination held
          copied := Function.update (Function.update w.copied destination none) source
            (some destination) }
      | none => w
    else w
  -- the runner's token leaves the source with its rows copied and the source not run since
  | .move destination =>
    if w.Still ∧ w.copied w.home = some destination then { w with home := destination } else w
  | .reset store archive =>
    if w.Still ∧ store ≠ archive ∧ archive ≠ w.home ∧ Unused (w.stores archive) then
      match carryOutboxRows (w.stores store) (w.stores archive) with
      | some held =>
        { w with
          stores := Function.update (Function.update w.stores archive held) store
            (removeRunnerRows (w.stores store) true)
          copied := { w with copied := w.forgets archive }.forgets store }
      | none => w
    else w
  | .discard source =>
    if w.Still ∧ source ≠ w.home ∧ w.copied source ≠ none then
      { w with
        stores := Function.update w.stores source (removeRunnerRows (w.stores source) false)
        copied := w.forgets source }
    else w

def Fleet.run (cap : ℕ) (w : Fleet) (events : List Event) : Fleet :=
  events.foldl (Fleet.step cap) w

end Blizzard.OutboxFleet
