import LazyExpiry.Stamped
import LazyExpiry.Action

/-!
# The context of an expiring store

Whatever reads or writes through expiry needs three things of the world around it, and
`Context ω` names them : the time, the policy's judgement of one value, and a place for
notes on what went on (`Event`). Each may change the world, so a clock that moves when it
is read and a policy that remembers what it was asked are contexts too.

`stamp` wraps a value at the time of the call and `stampAll` a batch at one time. `judge`
is the liveness filter in a context : it asks the policy about values only, never about
an explicit null or an absent entry.
-/

namespace LazyExpiry

/-- What the expiring store notes about its own work. -/
inductive Event where
  /-- An iteration passed over an expired entry, at that time. -/
  | skipping (now : Timestamp)
  /-- An iteration came to its end after passing over that many entries. -/
  | exhausted (skipped : UInt64)
  /-- A scan for a live entry was decided. -/
  | scanned (live : Bool) (skipped : UInt64)
  /-- A collecting iteration ended with that many results from that many pages. -/
  | collected (pages count : Nat)
  /-- A delivering iteration ended after that many items from that many pages. -/
  | delivered (pages count : Nat)
  /-- A page source served a page. -/
  | servingPage (entries : Nat)
  deriving DecidableEq

/-- The line an event is logged as : level, message, fields. -/
def Event.line : Event → String
  | .skipping now => s!"TRACE skipping expired entry now={now.toNat}"
  | .exhausted skipped => s!"DEBUG live entry iteration exhausted skipped={skipped}"
  | .scanned live skipped =>
    s!"DEBUG scanned state for a live entry live={live} skipped={skipped}"
  | .collected pages count => s!"DEBUG paged iteration complete pages={pages} collected={count}"
  | .delivered pages count => s!"DEBUG paged iteration complete pages={pages} delivered={count}"
  | .servingPage entries => s!"TRACE serving state page entries={entries}"

/-- A world with a time, a policy and a place for notes. -/
class Context (ω : Type) where
  /-- One reading of the clock. -/
  now (world : ω) : Timestamp × ω
  /-- The policy's judgement of a value written at the first time and read at the second. -/
  isLive (writtenAt now : Timestamp) (world : ω) : Bool × ω
  /-- A note of something that went on. -/
  note (event : Event) (world : ω) : ω

variable {γ ω κ α : Type}

/-- Beside any other state, a context is still there. -/
instance [Context ω] : Context (γ × ω) where
  now s := ((Context.now s.2).1, s.1, (Context.now s.2).2)
  isLive writtenAt now s :=
    ((Context.isLive writtenAt now s.2).1, s.1, (Context.isLive writtenAt now s.2).2)
  note event s := (s.1, Context.note event s.2)

variable [Context ω]

/-- A value with the time of the call. -/
def stamp (value : Option α) (w : ω) : Stamped α × ω :=
  (⟨value, (Context.now w).1⟩, (Context.now w).2)

/-- A batch of values under one time. -/
def stampAll (now : Timestamp) (batch : List (κ × Option α)) : List (κ × Stamped α) :=
  batch.map fun e => (e.1, ⟨e.2, now⟩)

theorem map_fst_stampAll (now : Timestamp) (batch : List (κ × Option α)) :
    (stampAll now batch).map Prod.fst = batch.map Prod.fst := by
  rw [stampAll, List.map_map]
  rfl

/-- What a read at `now` shows of a stored value, by the policy of the world. -/
def judge (stored : Option (Stamped α)) (now : Timestamp) (w : ω) : Option (Option α) × ω :=
  match stored with
  | none => (none, w)
  | some ⟨none, _⟩ => (some none, w)
  | some ⟨some v, writtenAt⟩ =>
    let asked := Context.isLive writtenAt now w
    (if asked.1 then some (some v) else none, asked.2)

end LazyExpiry
