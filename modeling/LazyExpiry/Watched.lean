import LazyExpiry.Store

/-!
# A watched store

`Watched σ κ ν μ` puts a watch on the store of a world `σ` : every call on it is written
down before it is forwarded, and it may be made to fail by a plan of faults
(`takeFault`), in which case it never reaches the store. A call on the asynchronous store
is written down, and its fault decided, when it is made ; the work that it leaves is
forwarded untouched. Remarks `μ` of whoever uses the store can be written between the
calls.

In place of the store's own cursor and page source a script can be watched, which replays
a fixed list of answers and failures and then ends.
-/

namespace LazyExpiry

/-! ## Calls and faults -/

/-- The calls of a store, of its cursors and of its page sources. -/
inductive CallKind where
  | get | put | putAll | remove | contains | isEmpty | clear | entries
  | advance | removeCurrent
  | asyncGet | asyncPut | asyncPutAll | asyncRemove | asyncContains | asyncIsEmpty
  | asyncClear | asyncEntries
  | nextPage
  deriving DecidableEq

namespace CallKind

/-- All kinds of calls. -/
def all : List CallKind :=
  [get, put, putAll, remove, contains, isEmpty, clear, entries, advance, removeCurrent,
    asyncGet, asyncPut, asyncPutAll, asyncRemove, asyncContains, asyncIsEmpty, asyncClear,
    asyncEntries, nextPage]

/-- The name of a kind of call. -/
def label : CallKind → String
  | get => "get"
  | put => "put"
  | putAll => "put_all"
  | remove => "remove"
  | contains => "contains"
  | isEmpty => "is_empty"
  | clear => "clear"
  | entries => "entries"
  | advance => "advance"
  | removeCurrent => "remove_current"
  | asyncGet => "async_get"
  | asyncPut => "async_put"
  | asyncPutAll => "async_put_all"
  | asyncRemove => "async_remove"
  | asyncContains => "async_contains"
  | asyncIsEmpty => "async_is_empty"
  | asyncClear => "async_clear"
  | asyncEntries => "async_entries"
  | nextPage => "next_page"

end CallKind

/-- One call, a batch with the number of its entries. -/
structure Call where
  kind : CallKind
  size : Option Nat := none
  deriving DecidableEq

/-- The name of a call. -/
def Call.label (c : Call) : String :=
  match c.size with
  | none => c.kind.label
  | some n => s!"{c.kind.label}({n})"

/-- A plan for calls of one kind to fail : `after` of them go through, then `times` of
them fail. -/
structure Fault where
  kind : CallKind
  after : Nat := 0
  times : Nat := 1
  error : StoreError

/-- What a plan does to a call of some kind, and the plan after it. The first fault for
that kind that is not used up decides : it lets the call through or makes it fail. -/
def takeFault (kind : CallKind) : List Fault → Option StoreError × List Fault
  | [] => (none, [])
  | f :: rest =>
    if f.kind = kind ∧ 0 < f.times then
      if 0 < f.after then (none, { f with after := f.after - 1 } :: rest)
      else (some f.error, { f with times := f.times - 1 } :: rest)
    else
      let taken := takeFault kind rest
      (taken.1, f :: taken.2)

/-! ## The watch -/

/-- What was written down. -/
inductive Mark (κ μ : Type) where
  /-- A call on the store. -/
  | call (c : Call)
  /-- A removal through a script, with the key of the entry it answered last. -/
  | removed (key : Option κ)
  /-- A remark between the calls. -/
  | remark (text : μ)

/-- A fixed list of answers and failures. -/
abbrev Script (ε : Type) := List (Except StoreError ε)

/-- A world whose store is watched. -/
structure Watched (σ κ ν μ : Type) where
  world : σ
  /-- What was written down, oldest first. -/
  trace : List (Mark κ μ) := []
  /-- The plan of faults. -/
  faults : List Fault := []
  /-- What cursors replay in place of the store's entries. -/
  cursorScript : Option (Script (κ × ν)) := none
  /-- What page sources replay in place of the store's pages. -/
  pageScript : Option (Script (List (κ × ν))) := none

/-- A cursor over a watched store. -/
inductive WatchedCursor (γ κ ν : Type) where
  /-- A cursor of the store. -/
  | stored (cursor : γ)
  /-- A script, with the key of the entry answered last. -/
  | scripted (rest : Script (κ × ν)) (last : Option κ)

/-- A page source over a watched store. -/
inductive WatchedPages (π κ ν : Type) where
  /-- A page source of the store. -/
  | stored (source : π)
  /-- A script. -/
  | scripted (rest : Script (List (κ × ν)))

namespace Watched

variable {σ κ ν μ γ π α β : Type}

/-- Writes something down. -/
def write (mark : Mark κ μ) (t : Watched σ κ ν μ) : Watched σ κ ν μ :=
  { t with trace := t.trace ++ [mark] }

/-- Puts the world back. -/
def withWorld (t : Watched σ κ ν μ) (w : σ) : Watched σ κ ν μ := { t with world := w }

/-- Writes a call down and decides whether it fails. -/
def call (c : Call) (t : Watched σ κ ν μ) : Option StoreError × Watched σ κ ν μ :=
  let taken := takeFault c.kind t.faults
  (taken.1, { t.write (.call c) with faults := taken.2 })

/-- Something done to the world under the watch, without being watched. -/
def unwatched (x : Action σ α) : Action (Watched σ κ ν μ) α :=
  Action.focus world (fun w t => t.withWorld w) x

/-- A call that answers at once. -/
def forward (c : Call) (x : Action σ α) : Action (Watched σ κ ν μ) α := fun t =>
  match t.call c with
  | (some e, t) => .error e t
  | (none, t) => unwatched x t

/-- A call made on the world under the watch, and its work, without being watched. -/
def unwatchedLater (x : σ → Deferred σ α × σ) (t : Watched σ κ ν μ) :
    Deferred (Watched σ κ ν μ) α × Watched σ κ ν μ :=
  let called := x t.world
  (called.1.focus world fun w t => t.withWorld w, t.withWorld called.2)

/-- A call that leaves work. -/
def forwardLater (c : Call) (x : σ → Deferred σ α × σ) (t : Watched σ κ ν μ) :
    Deferred (Watched σ κ ν μ) α × Watched σ κ ν μ :=
  match t.call c with
  | (some e, t) => (.failed e, t)
  | (none, t) => unwatchedLater x t

instance [Context σ] : Context (Watched σ κ ν μ) where
  now t := ((Context.now t.world).1, t.withWorld (Context.now t.world).2)
  isLive writtenAt now t :=
    ((Context.isLive writtenAt now t.world).1,
      t.withWorld (Context.isLive writtenAt now t.world).2)
  note event t := t.withWorld (Context.note event t.world)

/-! ## Cursors -/

/-- The next entry of a watched cursor. A call that fails by plan leaves the cursor where
it is. -/
def advance [Cursor (γ × σ) κ ν] :
    Action (WatchedCursor γ κ ν × Watched σ κ ν μ) (Option (κ × ν)) := fun s =>
  match s.2.call { kind := .advance } with
  | (some e, t) => .error e (s.1, t)
  | (none, t) =>
    match s.1 with
    | .stored cursor => (Cursor.advance (cursor, t.world)).mapWorld fun p =>
        (.stored p.1, t.withWorld p.2)
    | .scripted [] last => .ok none (.scripted [] last, t)
    | .scripted (.ok e :: rest) _ => .ok (some e) (.scripted rest (some e.1), t)
    | .scripted (.error e :: rest) last => .error e (.scripted rest last, t)

/-- Removes the entry that a watched cursor answered last. A script has nothing to remove
and only writes the key down. -/
def removeCurrent [Cursor (γ × σ) κ ν] :
    Action (WatchedCursor γ κ ν × Watched σ κ ν μ) Unit := fun s =>
  match s.2.call { kind := .removeCurrent } with
  | (some e, t) => .error e (s.1, t)
  | (none, t) =>
    match s.1 with
    | .stored cursor => (Cursor.removeCurrent (cursor, t.world)).mapWorld fun p =>
        (.stored p.1, t.withWorld p.2)
    | .scripted _ last => .ok () (s.1, t.write (.removed last))

/-- Opens a cursor, over the script if there is one. -/
def entries [Store σ κ ν γ] : Action (Watched σ κ ν μ) (WatchedCursor γ κ ν) := fun t =>
  match t.cursorScript with
  | some script => forward { kind := .entries } (fun w => .ok (.scripted script none) w) t
  | none => (forward { kind := .entries } Store.entries t).map .stored

/-! ## Page sources -/

/-- The next page of a watched source. A call that fails by plan leaves the source where
it is. -/
def nextPage [PageSource (π × σ) κ ν] :
    Action (WatchedPages π κ ν × Watched σ κ ν μ) (Option (List (κ × ν))) := fun s =>
  match s.2.call { kind := .nextPage } with
  | (some e, t) => .error e (s.1, t)
  | (none, t) =>
    match s.1 with
    | .stored source => (PageSource.nextPage (source, t.world)).mapWorld fun p =>
        (.stored p.1, t.withWorld p.2)
    | .scripted [] => .ok none (.scripted [], t)
    | .scripted (.ok page :: rest) => .ok (some page) (.scripted rest, t)
    | .scripted (.error e :: rest) => .error e (.scripted rest, t)

/-- Opens a page source, over the script if there is one. -/
def asyncEntries [AsyncStore σ κ ν π] (t : Watched σ κ ν μ) :
    Deferred (Watched σ κ ν μ) (WatchedPages π κ ν) × Watched σ κ ν μ :=
  match t.pageScript with
  | some script =>
    forwardLater { kind := .asyncEntries }
      (fun w => ({ finish := fun w => .ok (.scripted script) w }, w)) t
  | none =>
    let called := forwardLater { kind := .asyncEntries } AsyncStore.entries t
    (called.1.map .stored, called.2)

/-! ## The watched store as a store -/

instance [Store σ κ ν γ] : Store (Watched σ κ ν μ) κ ν (WatchedCursor γ κ ν) where
  get key := forward { kind := .get } (Store.get key)
  put key value := forward { kind := .put } (Store.put key value)
  putAll batch := forward { kind := .putAll, size := batch.length } (Store.putAll batch)
  remove key := forward { kind := .remove } (Store.remove key)
  contains key := forward { kind := .contains } (Store.contains key)
  isEmpty := forward { kind := .isEmpty } Store.isEmpty
  clear := forward { kind := .clear } Store.clear
  entries := entries
  advance := advance
  removeCurrent := removeCurrent

instance [AsyncStore σ κ ν π] : AsyncStore (Watched σ κ ν μ) κ ν (WatchedPages π κ ν) where
  get key := forwardLater { kind := .asyncGet } (AsyncStore.get key)
  put key value := forwardLater { kind := .asyncPut } (AsyncStore.put key value)
  putAll batch :=
    forwardLater { kind := .asyncPutAll, size := batch.length } (AsyncStore.putAll batch)
  remove key := forwardLater { kind := .asyncRemove } (AsyncStore.remove key)
  contains key := forwardLater { kind := .asyncContains } (AsyncStore.contains key)
  isEmpty := forwardLater { kind := .asyncIsEmpty } AsyncStore.isEmpty
  clear := forwardLater { kind := .asyncClear } AsyncStore.clear
  entries := asyncEntries
  nextPage := nextPage

/-! ## Watching keeps the number of entries ahead -/

/-- A bound on the entries ahead of a watched cursor. -/
def ahead [Context σ] [Store σ κ ν γ] [Drains (γ × σ) κ ν] :
    WatchedCursor γ κ ν × Watched σ κ ν μ → Nat
  | (.stored cursor, t) => Drains.ahead (cursor, t.world)
  | (.scripted rest _, _) => rest.length

instance [Context σ] [Store σ κ ν γ] [Drains (γ × σ) κ ν] :
    Drains (WatchedCursor γ κ ν × Watched σ κ ν μ) κ ν where
  ahead := ahead
  ahead_advance := by
    intro s s' e h
    simp only [Cursor.advance, advance] at h
    split at h
    · cases h
    · rename_i t hcall
      have hw : t.world = s.2.world := by
        have := congrArg (fun c => c.2.world) hcall
        simpa [call, write] using this.symm
      obtain ⟨c, t₀⟩ := s
      dsimp only at h hw
      split at h
      · rename_i cursor
        cases ha : (Cursor.advance (cursor, t.world) : Result (γ × σ) (Option (κ × ν))) with
        | error err p =>
          rw [ha] at h
          cases h
        | ok answer p =>
          rw [ha] at h
          cases h
          rw [hw] at ha
          exact Drains.ahead_advance ha
      · cases h
      · cases h
        exact Nat.lt_succ_self _
      · cases h
  ahead_now := by
    rintro ⟨c | ⟨rest, last⟩, t⟩
    · exact Drains.ahead_now (c, t.world)
    · exact Nat.le_refl _
  ahead_isLive := by
    rintro writtenAt now ⟨c | ⟨rest, last⟩, t⟩
    · exact Drains.ahead_isLive writtenAt now (c, t.world)
    · exact Nat.le_refl _
  ahead_note := by
    rintro event ⟨c | ⟨rest, last⟩, t⟩
    · exact Drains.ahead_note event (c, t.world)
    · exact Nat.le_refl _

end Watched

end LazyExpiry
