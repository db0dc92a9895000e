import LazyExpiry.Cursor
import LazyExpiry.Paged

/-!
# What a store offers

`Store σ κ ν γ` is a world `σ` with a key-value store in it : point reads and writes, a
write of a whole batch, and `entries`, which opens a cursor `γ` before the first entry.
`AsyncStore σ κ ν π` is the same for calls whose effect comes later : every call answers
the work it leaves as a `Deferred`, and `entries` leads to a page source `π`.

A store knows nothing of expiry, and nothing is assumed of how it behaves. Under expiry
the value type is `Stamped α`.
-/

namespace LazyExpiry

/-- A key-value store that answers at once. -/
class Store (σ : Type) (κ ν γ : outParam Type) extends Cursor (γ × σ) κ ν where
  /-- The value under a key. -/
  get (key : κ) : Action σ (Option ν)
  /-- Writes one entry. -/
  put (key : κ) (value : ν) : Action σ Unit
  /-- Writes all entries of a batch in one operation. -/
  putAll (batch : List (κ × ν)) : Action σ Unit
  /-- Removes the entry under a key, if there is one. -/
  remove (key : κ) : Action σ Unit
  /-- Whether there is an entry under a key. -/
  contains (key : κ) : Action σ Bool
  /-- Whether there is no entry. -/
  isEmpty : Action σ Bool
  /-- Removes every entry. -/
  clear : Action σ Unit
  /-- A fresh cursor before the first entry. -/
  entries : Action σ γ

/-- A key-value store whose calls leave work to be completed. -/
class AsyncStore (σ : Type) (κ ν π : outParam Type) extends PageSource (π × σ) κ ν where
  /-- The value under a key. -/
  get (key : κ) (world : σ) : Deferred σ (Option ν) × σ
  /-- Writes one entry. -/
  put (key : κ) (value : ν) (world : σ) : Deferred σ Unit × σ
  /-- Writes all entries of a batch in one operation. -/
  putAll (batch : List (κ × ν)) (world : σ) : Deferred σ Unit × σ
  /-- Removes the entry under a key, if there is one. -/
  remove (key : κ) (world : σ) : Deferred σ Unit × σ
  /-- Whether there is an entry under a key. -/
  contains (key : κ) (world : σ) : Deferred σ Bool × σ
  /-- Whether there is no entry. -/
  isEmpty (world : σ) : Deferred σ Bool × σ
  /-- Removes every entry. -/
  clear (world : σ) : Deferred σ Unit × σ
  /-- A fresh page source before the first entry. -/
  entries (world : σ) : Deferred σ π × σ

end LazyExpiry
