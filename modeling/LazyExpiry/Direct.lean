import LazyExpiry.LiveEntries
import LazyExpiry.Store

/-!
# An expiring store that answers at once

Over a `Store` of stamped values in a world with a `Context`, these operations are the
plain key-value contract with expired entries filtered out. Each of them makes one call
on the store and passes its failure on. A write takes the time before its call, a read
after it. Nothing is ever removed because it has expired.

`entries`, `keys` and `values` open a pass over the live entries. `isEmpty` asks whether
such a pass yields anything : it scans past expired entries to the first live one, where
the store itself would count what has expired.
-/

namespace LazyExpiry.Direct

variable {σ κ α γ ρ : Type} [Context σ] [Store σ κ (Stamped α) γ]

/-! ## Reading and writing one key -/

/-- The live value under a key : `some none` is a live explicit null, and `none` is the
lack of a live value. -/
def get (key : κ) : Action σ (Option (Option α)) := fun w =>
  (Store.get key w).bind fun stored w =>
    let reading := Context.now w
    let judged := judge stored reading.1 reading.2
    .ok judged.1 judged.2

/-- Whether there is a live value under a key. -/
def contains (key : κ) : Action σ Bool := fun w => (get key w).map Option.isSome

/-- Writes a value, or an explicit null, with the time of the call. -/
def put (key : κ) (value : Option α) : Action σ Unit := fun w =>
  let stamped := stamp value w
  Store.put key stamped.1 stamped.2

/-- Writes a batch under one reading of the clock. -/
def putAll (batch : List (κ × Option α)) : Action σ Unit := fun w =>
  let reading := Context.now w
  Store.putAll (stampAll reading.1 batch) reading.2

/-- Removes the entry under a key, live or expired. -/
def remove (key : κ) : Action σ Unit := Store.remove key

/-- Removes every entry, live or expired. -/
def clear : Action σ Unit := Store.clear

/-! ## Passes over the live entries -/

/-- A fresh pass over the live entries, with its cursor. -/
def pass (project : κ → Option α → ρ) : Action σ (LiveEntries κ α ρ × γ) := fun w =>
  (Store.entries w).map fun cursor => ({ project }, cursor)

/-- The live entries in store order. -/
def entries : Action σ (LiveEntries κ α (κ × Option α) × γ) := pass fun key value => (key, value)

/-- The same as `entries`. -/
def iter : Action σ (LiveEntries κ α (κ × Option α) × γ) := entries

/-- The keys of the live entries in store order. -/
def keys : Action σ (LiveEntries κ α κ × γ) := pass fun key _ => key

/-- The values of the live entries in store order. -/
def values : Action σ (LiveEntries κ α (Option α) × γ) := pass fun _ value => value

/-- Whether no live entry is there. -/
def isEmpty [Settles (γ × σ) κ α] : Action σ Bool := fun w =>
  (keys w).bind fun opened w =>
    match LiveEntries.hasNext (opened.1, opened.2, w) with
    | .ok live s => .ok (!live) (Context.note (.scanned live s.1.skipped) s.2.2)
    | .error e s => .error e s.2.2

/-- The items of a fresh pass, or its first failure. -/
def list [Drains (γ × σ) κ (Stamped α)] (project : κ → Option α → ρ) : Action σ (List ρ) := fun w =>
  (pass project w).bind fun opened w =>
    (LiveEntries.collect (opened.1, opened.2, w)).mapWorld fun s => s.2.2

end LazyExpiry.Direct
