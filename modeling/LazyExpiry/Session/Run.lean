import LazyExpiry.Session.Callback

/-!
# Running a session

A `Session` is a desk and what is open on it, each kind of thing under handles of its
own. `Session.step` takes one step and answers it ; a step that fails does not end the
session. Whatever uses up what is open, such as draining a paged pass or awaiting work,
closes its handle also when it fails, and opening under a handle in use replaces what was
there, but only once the opening has succeeded.

`Session.run` takes a list of steps and reports on each : its answer, what the watch wrote
down meanwhile, what the store then holds, where the clock then stands, how often the
policy was asked, and the notes taken.
-/

namespace LazyExpiry

/-- Work left by an asynchronous call, by what it leads to. -/
inductive Pending (κ α : Type) [Ord κ] where
  | answer (work : Deferred (Desk κ α) (Answer κ α))
  | pass (work : Deferred (Desk κ α)
      (PagedEntries (WatchedPages (Memory.Pages κ) κ (Stamped α)) κ α (Item κ α)))
  | pages (work : Deferred (Desk κ α) (Memory.Pages κ))

/-- A desk and what is open on it. -/
structure Session (κ α : Type) [Ord κ] where
  desk : Desk κ α
  passes : Table Handle
    (LiveEntries κ α (Item κ α) × WatchedCursor (Memory.Position κ) κ (Stamped α)) := .empty
  paged : Table Handle
    (PagedEntries (WatchedPages (Memory.Pages κ) κ (Stamped α)) κ α (Item κ α)) := .empty
  pending : Table Handle (Pending κ α) := .empty
  cursors : Table Handle (Memory.Position κ) := .empty
  sources : Table Handle (Memory.Pages κ) := .empty

namespace Session

variable {κ α β : Type} [Ord κ]

/-! ## Using what is open -/

/-- Uses the pass under a handle. -/
def onPass (handle : Handle)
    (x : Action (LiveEntries κ α (Item κ α) ×
      WatchedCursor (Memory.Position κ) κ (Stamped α) × Desk κ α) (Answer κ α))
    (s : Session κ α) : Except Refusal (Answer κ α) × Session κ α :=
  match s.passes.get? handle with
  | none => (.error .noSuchHandle, s)
  | some (it, cursor) =>
    let r := x (it, cursor, s.desk)
    (Refusal.outcome r, { s with
      desk := r.world.2.2
      passes := s.passes.insert handle (r.world.1, r.world.2.1) })

/-- Uses the cursor under a handle. -/
def onCursor (handle : Handle) (x : Action (Memory.Position κ × World κ α) (Answer κ α))
    (s : Session κ α) : Except Refusal (Answer κ α) × Session κ α :=
  match s.cursors.get? handle with
  | none => (.error .noSuchHandle, s)
  | some cursor =>
    let r := x (cursor, s.desk.world)
    (Refusal.outcome r, { s with
      desk := s.desk.withWorld r.world.2
      cursors := s.cursors.insert handle r.world.1 })

/-- Uses the page source under a handle. -/
def onPages (handle : Handle) (x : Action (Memory.Pages κ × World κ α) (Answer κ α))
    (s : Session κ α) : Except Refusal (Answer κ α) × Session κ α :=
  match s.sources.get? handle with
  | none => (.error .noSuchHandle, s)
  | some source =>
    let r := x (source, s.desk.world)
    (Refusal.outcome r, { s with
      desk := s.desk.withWorld r.world.2
      sources := s.sources.insert handle r.world.1 })

/-- Does something on the desk and keeps what came of it, if it came. -/
def keep (x : Action (Desk κ α) β) (put : β → Session κ α → Session κ α) (s : Session κ α) :
    Except Refusal (Answer κ α) × Session κ α :=
  match x s.desk with
  | .ok b d => (.ok .done, put b { s with desk := d })
  | .error e d => (.error (.failed e), { s with desk := d })

/-- Drains the paged pass under a handle, which closes it. -/
def drain (handle : Handle)
    (x : PagedEntries (WatchedPages (Memory.Pages κ) κ (Stamped α)) κ α (Item κ α) →
      Action (Desk κ α) (Option (Answer κ α)))
    (s : Session κ α) : Except Refusal (Answer κ α) × Session κ α :=
  match s.paged.get? handle with
  | none => (.error .noSuchHandle, s)
  | some it =>
    let closed := { s with paged := s.paged.erase handle }
    match x it s.desk with
    | .ok (some a) d => (.ok a, { closed with desk := d })
    | .ok none d => (.error .outOfPages, { closed with desk := d })
    | .error e d => (.error (.failed e), { closed with desk := d })

variable [Std.TransOrd κ]

/-- Makes an asynchronous call. -/
def request (r : Request κ α) (d : Desk κ α) : Pending κ α × Desk κ α :=
  match r with
  | .call c => let called := c.start d; (.answer called.1, called.2)
  | .pass view => let called := Async.pass view.project d; (.pass called.1, called.2)
  | .pages =>
    let openPages : World κ α → Deferred (World κ α) (Memory.Pages κ) × World κ α :=
      AsyncStore.entries
    let called := Watched.unwatchedLater openPages d
    (.pages called.1, called.2)

/-- Completes the work of an asynchronous call and keeps what it leads to. -/
def complete (handle : Handle) (p : Pending κ α) (s : Session κ α) :
    Except Refusal (Answer κ α) × Session κ α :=
  match p with
  | .answer work =>
    let r := work.await s.desk
    (Refusal.outcome r, { s with desk := r.world })
  | .pass work => s.keep work.await fun it s => { s with paged := s.paged.insert handle it }
  | .pages work => s.keep work.await fun it s => { s with sources := s.sources.insert handle it }

/-! ## Taking a step -/

/-- Takes a step and answers it. -/
def step (s : Session κ α) : Step κ α → Except Refusal (Answer κ α) × Session κ α
  | .perform operation =>
    let r := operation.perform s.desk
    (Refusal.outcome r, { s with desk := r.world })
  | .openPass handle view => s.keep (Direct.pass view.project) fun opened s =>
      { s with passes := s.passes.insert handle opened }
  | .hasNext handle => s.onPass handle fun p => (LiveEntries.hasNext p).map .flag
  | .nextItem handle => s.onPass handle fun p => (LiveEntries.nextItem p).map .item
  | .removeCurrent handle =>
    s.onPass handle fun p => (LiveEntries.removeCurrent p).map fun _ => .done
  | .skipped handle => s.onPass handle fun p => .ok (.number p.1.skipped.toNat) p
  | .next handle => s.onPass handle fun p => (LiveEntries.next p).map fun
      | some item => .item item
      | none => .ended
  | .collect handle => s.onPass handle fun p => (LiveEntries.collect p).map .items
  | .close handle =>
    (.ok (.flag (s.passes.contains handle)), { s with passes := s.passes.erase handle })
  | .openPaged handle view =>
    let called := request (.pass view) s.desk
    complete handle called.1 { s with desk := called.2 }
  | .pagedIsEmpty handle =>
    match s.paged.get? handle with
    | none => (.error .noSuchHandle, s)
    | some it => (.ok (.flag it.isEmpty), s)
  | .collectEach handle script => s.drain handle fun it d =>
      (it.collectEach (d.pageLimit script it.source) (Desk.collectBy script) d).map
        (Option.map .items)
  | .deliverEach handle script => s.drain handle fun it d =>
      (it.deliverEach (d.pageLimit script it.source) (Desk.deliverBy script) d).map
        (Option.map fun _ => .done)
  | .start handle r =>
    let called := request r s.desk
    (.ok .done, { s with desk := called.2, pending := s.pending.insert handle called.1 })
  | .await handle =>
    match s.pending.get? handle with
    | none => (.error .noSuchHandle, s)
    | some p => complete handle p { s with pending := s.pending.erase handle }
  | .drop handle =>
    (.ok (.flag (s.pending.contains handle)), { s with pending := s.pending.erase handle })
  | .openCursor handle =>
    let openCursor : Action (World κ α) (Memory.Position κ) := Store.entries
    s.keep (Watched.unwatched openCursor) fun c s =>
      { s with cursors := s.cursors.insert handle c }
  | .advanceCursor handle => s.onCursor handle fun p => (Cursor.advance p).map fun
      | some e => .entry e.1 e.2
      | none => .ended
  | .removeAtCursor handle => s.onCursor handle fun p => (Cursor.removeCurrent p).map fun _ => .done
  | .openPages handle =>
    let called := request .pages s.desk
    complete handle called.1 { s with desk := called.2 }
  | .nextPage handle => s.onPages handle fun p => (PageSource.nextPage p).map fun
      | some page => .page page
      | none => .ended

/-! ## Reports -/

/-- What is reported of a step. -/
structure Report (κ α : Type) where
  /-- Its answer, or how else it ended. -/
  outcome : Except Refusal (Answer κ α)
  /-- What the watch wrote down. -/
  trace : List (Mark κ (Remark κ α))
  /-- The number of entries held after it, unless the store is poisoned. -/
  size : Option Nat
  /-- The time after it. -/
  now : Timestamp
  /-- How often the policy was asked. -/
  asked : Nat
  /-- The notes taken. -/
  events : List Event

/-- The session with nothing written down, asked or noted. -/
def fresh (s : Session κ α) : Session κ α :=
  let world := { s.desk.world with asked := 0, events := [] }
  { s with desk := { s.desk with trace := [], world } }

/-- Takes a step and reports on it. -/
def report (s : Session κ α) (st : Step κ α) : Report κ α × Session κ α :=
  let taken := s.fresh.step st
  let d := taken.2.desk
  ({ outcome := taken.1
     trace := d.trace
     size := if d.world.memory.poisoned then none else some d.world.memory.table.size
     now := d.world.clock.time
     asked := d.world.asked
     events := d.world.events }, taken.2)

/-- Takes steps in order and reports on each. -/
def run (s : Session κ α) : List (Step κ α) → List (Report κ α) × Session κ α
  | [] => ([], s)
  | st :: rest =>
    let first := s.report st
    let others := first.2.run rest
    (first.1 :: others.1, others.2)

omit [Std.TransOrd κ] in
/-- The entries that the store holds in the end. -/
def finalEntries (s : Session κ α) : Except StoreError (List (κ × Stamped α)) :=
  (Memory.observe Table.entries s.desk.world.memory).outcome

/-- The statistics of the store in the end. -/
def finalStats (s : Session κ α) : Except StoreError Stats :=
  (Memory.stats s.desk.world.memory).outcome

end Session

end LazyExpiry
