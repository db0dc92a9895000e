import LazyExpiry.Session.Step

/-!
# Performing an operation

The operations of a session act on a `Desk` : the store in memory with its clock and
policy, under a watch. Both expiring stores call on the watched store, so that their
calls are written down and can be made to fail, while the operations of the store in
memory itself pass the watch by.

`Operation.perform` performs an operation, and `AsyncCall.start` makes an asynchronous
call and leaves its work.
-/

namespace LazyExpiry

/-- A store in memory with its clock and policy, under a watch. -/
abbrev Desk (κ α : Type) [Ord κ] := Watched (World κ α) κ (Stamped α) (Remark κ α)

variable {κ α β : Type} [Ord κ]

namespace Desk

/-- An operation of the store in memory, past the watch. -/
def onMemory (x : Action (Memory κ (Stamped α)) β) : Action (Desk κ α) β :=
  Watched.unwatched (World.onMemory x)

/-- The desk with its clock changed. -/
def withClock (f : Clock → Clock) (d : Desk κ α) : Desk κ α :=
  d.withWorld { d.world with clock := f d.world.clock }

/-- A context as it describes itself at a reading of its clock. -/
def describeContext (now : Timestamp) : String := s!"TtlContext \x7b now: {now}, .. \x7d"

end Desk

variable [Std.TransOrd κ]

/-- Makes an asynchronous call and leaves its work. -/
def AsyncCall.start (c : AsyncCall κ α) (d : Desk κ α) :
    Deferred (Desk κ α) (Answer κ α) × Desk κ α :=
  match c with
  | expiring c =>
    let called := c.async d
    (called.1.map .ofLive, called.2)
  | stored c =>
    let called := Watched.unwatchedLater c.storedLater d
    (called.1.map .ofStored, called.2)

/-- Performs an operation. -/
def Operation.perform : Operation κ α → Action (Desk κ α) (Answer κ α)
  | setClock t, d => .ok .done (d.withClock (·.set t))
  | advanceClock s, d => .ok .done (d.withClock (·.advance s))
  | readClock, d => .ok (.time (Context.now d).1) (Context.now d).2
  | stamp value, d =>
    let stamped := LazyExpiry.stamp value d
    .ok (.stored (some stamped.1)) stamped.2
  | check stored now, d =>
    let judged := judge stored now d
    .ok (.live judged.1) judged.2
  | describeContext, d => .ok (.text (Desk.describeContext (Context.now d).1)) (Context.now d).2
  | describeMemory, d => .ok (.text d.world.memory.describe) d
  | direct c, d => (c.direct d).map .ofLive
  | list view, d => (Direct.list view.project d).map .items
  | async c, d =>
    let called := c.start d
    called.1.await called.2
  | store c, d => (Watched.unwatched c.stored d).map .ofStored
  | plan fault, d => .ok .done { d with faults := d.faults ++ [fault] }
  | heal, d => .ok .done { d with faults := [] }
  | lookup key, d => (Desk.onMemory (Memory.lookup key) d).map .stored
  | insert key stored, d => (Desk.onMemory (Memory.insert key stored) d).map fun _ => .done
  | insertAll batch, d => (Desk.onMemory (Memory.insertAll batch) d).map fun _ => .done
  | delete key, d => (Desk.onMemory (Memory.delete key) d).map .flag
  | containsKey key, d => (Desk.onMemory (Memory.containsKey key) d).map .flag
  | size, d => (Desk.onMemory Memory.size d).map .number
  | isEmpty, d => (Desk.onMemory Memory.isEmpty d).map .flag
  | clearAll, d => (Desk.onMemory Memory.clearAll d).map fun _ => .done
  | stats, d => (Desk.onMemory Memory.stats d).map .stats
  | pageSize, d => .ok (.number d.world.memory.pageSize.count) d
  | withPageSize n, d =>
    (Desk.onMemory (fun m => .ok () { m with pageSize := .ofNat n }) d).map fun _ => .done
  | poison, d => (Desk.onMemory Memory.poison d).map fun _ => .text "poisoned"

end LazyExpiry
