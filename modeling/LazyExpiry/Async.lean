import LazyExpiry.Store

/-!
# An expiring store that answers later

Over an `AsyncStore` of stamped values in a world with a `Context`, these calls are the
plain key-value contract with expired entries filtered out. Each makes one call on the
store and leaves its work, with the filter put behind it. A write takes the time at the
call, however late its work is completed ; a read takes it when its work is completed,
also when the store failed.

`isEmpty` asks the store itself and so counts what has expired, since telling expired
entries apart would mean draining the store.
-/

namespace LazyExpiry.Async

variable {σ κ α π ρ : Type} [Context σ] [AsyncStore σ κ (Stamped α) π]

/-- What a completed read of the store shows, by a reading of the clock taken then. -/
def judgeAnswer (r : Result σ (Option (Stamped α))) : Result σ (Option (Option α)) :=
  match r with
  | .ok stored w =>
    let reading := Context.now w
    let judged := judge stored reading.1 reading.2
    .ok judged.1 judged.2
  | .error e w => .error e (Context.now w).2

/-- The live value under a key. -/
def get (key : κ) (w : σ) : Deferred σ (Option (Option α)) × σ :=
  let called := AsyncStore.get key w
  ({ waits := called.1.waits, finish := fun w => judgeAnswer (called.1.finish w) }, called.2)

/-- Whether there is a live value under a key. -/
def contains (key : κ) (w : σ) : Deferred σ Bool × σ :=
  let called := get key w
  (called.1.map Option.isSome, called.2)

/-- Writes a value, or an explicit null, with the time of the call. -/
def put (key : κ) (value : Option α) (w : σ) : Deferred σ Unit × σ :=
  let stamped := stamp value w
  AsyncStore.put key stamped.1 stamped.2

/-- Writes a batch under one reading of the clock, taken at the call. -/
def putAll (batch : List (κ × Option α)) (w : σ) : Deferred σ Unit × σ :=
  let reading := Context.now w
  AsyncStore.putAll (stampAll reading.1 batch) reading.2

/-- Removes the entry under a key, live or expired. -/
def remove (key : κ) (w : σ) : Deferred σ Unit × σ := AsyncStore.remove key w

/-- Whether the store holds no entry, live or expired. -/
def isEmpty (w : σ) : Deferred σ Bool × σ := AsyncStore.isEmpty w

/-- Removes every entry, live or expired. -/
def clear (w : σ) : Deferred σ Unit × σ := AsyncStore.clear w

/-- A fresh pass over the live entries. -/
def pass (project : κ → Option α → ρ) (w : σ) : Deferred σ (PagedEntries π κ α ρ) × σ :=
  let called := AsyncStore.entries w
  (called.1.map fun source => { source, project }, called.2)

/-- The live entries. -/
def entries (w : σ) : Deferred σ (PagedEntries π κ α (κ × Option α)) × σ :=
  pass (fun key value => (key, value)) w

/-- The keys of the live entries. -/
def keys (w : σ) : Deferred σ (PagedEntries π κ α κ) × σ := pass (fun key _ => key) w

/-- The values of the live entries. -/
def values (w : σ) : Deferred σ (PagedEntries π κ α (Option α)) × σ := pass (fun _ value => value) w

end LazyExpiry.Async
