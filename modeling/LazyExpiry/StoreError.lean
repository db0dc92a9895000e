/-!
# Failures

`StoreError` lists what a store, an iteration or a caller's callback can fail with, and
`StoreError.message` is the one place where a failure is worded.
-/

namespace LazyExpiry

/-- The failures of a store and of the iterations over it. -/
inductive StoreError where
  /-- An item was asked for after the last live one. -/
  | endOfSequence
  /-- A removal was asked for outside the window right after an item. -/
  | invalidIteratorState
  /-- The store itself failed. -/
  | backend (reason : String)
  /-- A callback of the caller failed. -/
  | callback (reason : String)
  deriving DecidableEq

/-- The text of a failure. -/
def StoreError.message : StoreError → String
  | .endOfSequence => "no more live entries in this iteration"
  | .invalidIteratorState =>
    "remove_current() is only allowed right after next_item(), " ++
      "before any further has_next() or next_item()"
  | .backend reason => "state backend error: " ++ reason
  | .callback reason => "iteration callback failed: " ++ reason

end LazyExpiry
