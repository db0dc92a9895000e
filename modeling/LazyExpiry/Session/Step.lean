import LazyExpiry.PointCall
import LazyExpiry.Watched
import LazyExpiry.World

/-!
# What is done in a session

A session works on one store in memory through everything that can be opened on it : the
two expiring stores, passes over their live entries, and the store's own cursors and page
sources. This module names what can be done. An `Operation` is complete in itself. A
`Step` may also open something under a name, use what is open under a name, or leave the
work of an asynchronous call there to be awaited later.

`Answer` is what an operation or a step answers, and `Refusal` how it can end otherwise.
`Cue` says what the callback of a paged pass does when it is called for the item of some
index.
-/

namespace LazyExpiry

/-- What a pass over live entries shows of them. -/
inductive View where
  | entries | keys | values
  deriving DecidableEq

/-- An item of some view. -/
inductive Item (κ α : Type) where
  | entry (key : κ) (value : Option α)
  | key (key : κ)
  | value (value : Option α)

/-- The item that a view makes of a live entry. -/
def View.project {κ α : Type} : View → κ → Option α → Item κ α
  | entries, key, value => .entry key value
  | keys, key, _ => .key key
  | values, _, value => .value value

/-- A call whose work is left to be completed : on the expiring store, or on the store in
memory itself. -/
inductive AsyncCall (κ α : Type) where
  | expiring (c : PointCall κ (Option α))
  | stored (c : PointCall κ (Stamped α))

/-- Something done in a session that is complete in itself. -/
inductive Operation (κ α : Type) where
  /-- Sets the clock. -/
  | setClock (time : Timestamp)
  /-- Moves the clock forward. -/
  | advanceClock (span : Span)
  /-- Reads the clock. -/
  | readClock
  /-- Stamps a value with the time. -/
  | stamp (value : Option α)
  /-- Judges a stored value at a given time. -/
  | check (stored : Option (Stamped α)) (now : Timestamp)
  /-- Has the context describe itself, which reads the clock. -/
  | describeContext
  /-- Has the store in memory describe itself. -/
  | describeMemory
  /-- A call on the expiring store that answers at once. -/
  | direct (c : PointCall κ (Option α))
  /-- All items of a fresh pass. -/
  | list (view : View)
  /-- An asynchronous call, completed as soon as it is made. -/
  | async (c : AsyncCall κ α)
  /-- A call on the store in memory, by the contract of a store. -/
  | store (c : PointCall κ (Stamped α))
  /-- Adds a fault to the plan of the watch. -/
  | plan (fault : Fault)
  /-- Empties the plan of the watch. -/
  | heal
  | lookup (key : κ)
  | insert (key : κ) (stored : Stamped α)
  | insertAll (batch : List (κ × Stamped α))
  | delete (key : κ)
  | containsKey (key : κ)
  | size
  | isEmpty
  | clearAll
  | stats
  | pageSize
  | withPageSize (n : Nat)
  | poison

/-- Entries that an operation writes. -/
def Operation.writes {κ α : Type} : Operation κ α → Nat
  | direct c => c.writes
  | async (.expiring c) => c.writes
  | async (.stored c) => c.writes
  | store c => c.writes
  | insert _ _ => 1
  | insertAll batch => batch.length
  | _ => 0

/-- Something a callback does on the side. -/
inductive Aside (κ α : Type) where
  | perform (operation : Operation κ α)
  /-- A step on something under a handle, which a callback cannot take. -/
  | handleStep

/-- Entries that something done on the side writes. -/
def Aside.writes {κ α : Type} : Aside κ α → Nat
  | perform operation => operation.writes
  | handleStep => 0

/-- What the callback of a paged pass does for the item of one index. -/
structure Cue (κ α : Type) where
  /-- The index of the item among the live items of the pass. -/
  index : Nat
  /-- Done when the callback is called. -/
  during : List (Aside κ α) := []
  /-- Polls that find the callback's work unfinished. -/
  yields : Nat := 0
  /-- Done when the callback's work is finished. -/
  late : List (Aside κ α) := []
  /-- The failure it ends with, if any. -/
  failure : Option StoreError := none

/-- An asynchronous call to be awaited later. -/
inductive Request (κ α : Type) where
  | call (c : AsyncCall κ α)
  /-- Opens a paged pass on the expiring store. -/
  | pass (view : View)
  /-- Opens a page source on the store in memory. -/
  | pages

/-- The name under which something is open in a session. -/
abbrev Handle := String

/-- Something done in a session. -/
inductive Step (κ α : Type) where
  | perform (operation : Operation κ α)
  /-- Opens a pass over the live entries. -/
  | openPass (handle : Handle) (view : View)
  | hasNext (handle : Handle)
  | nextItem (handle : Handle)
  | removeCurrent (handle : Handle)
  | skipped (handle : Handle)
  /-- The next item of a pass as a sequence. -/
  | next (handle : Handle)
  /-- The rest of a pass as a sequence. -/
  | collect (handle : Handle)
  | close (handle : Handle)
  /-- Opens a paged pass over the live entries. -/
  | openPaged (handle : Handle) (view : View)
  | pagedIsEmpty (handle : Handle)
  | collectEach (handle : Handle) (script : List (Cue κ α))
  | deliverEach (handle : Handle) (script : List (Cue κ α))
  /-- Makes an asynchronous call and leaves its work. -/
  | start (handle : Handle) (request : Request κ α)
  /-- Completes the work that was left. -/
  | await (handle : Handle)
  /-- Forgets the work that was left. -/
  | drop (handle : Handle)
  /-- Opens a cursor on the store in memory. -/
  | openCursor (handle : Handle)
  | advanceCursor (handle : Handle)
  | removeAtCursor (handle : Handle)
  /-- Opens a page source on the store in memory. -/
  | openPages (handle : Handle)
  | nextPage (handle : Handle)

/-- What an operation or a step answers. -/
inductive Answer (κ α : Type) where
  | done
  | flag (b : Bool)
  | number (n : Nat)
  | time (t : Timestamp)
  | text (s : String)
  /-- What a read through expiry shows. -/
  | live (found : Option (Option α))
  /-- What the store holds. -/
  | stored (found : Option (Stamped α))
  | item (item : Item κ α)
  | items (items : List (Item κ α))
  | entry (key : κ) (stored : Stamped α)
  | page (entries : List (κ × Stamped α))
  /-- There is nothing more. -/
  | ended
  | stats (stats : Stats)

/-- The answer of a call on an expiring store. -/
def Answer.ofLive {κ α : Type} : Reply (Option α) → Answer κ α
  | .done => done
  | .flag b => flag b
  | .found value => live value

/-- The answer of a call on the store in memory. -/
def Answer.ofStored {κ α : Type} : Reply (Stamped α) → Answer κ α
  | .done => done
  | .flag b => flag b
  | .found value => stored value

/-- How an operation or a step can end without an answer. -/
inductive Refusal where
  /-- It failed. -/
  | failed (error : StoreError)
  /-- Nothing is open under that name. -/
  | noSuchHandle
  /-- A callback cannot do this. -/
  | notInCallback
  /-- A paged pass did not end within the pages allowed to it. -/
  | outOfPages
  deriving DecidableEq

/-- What the callback of a paged pass has written down by the watch. -/
inductive Remark (κ α : Type) where
  /-- It was called with an item. -/
  | called (item : Item κ α)
  /-- It did something on the side. -/
  | performed (outcome : Except Refusal (Answer κ α))
  /-- Its work for an item was finished. -/
  | finished (item : Item κ α)

end LazyExpiry
