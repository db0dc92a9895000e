import LazyExpiry.Policy

/-!
# Stamped values and the liveness filter

A store under expiry holds `Stamped` values : a value, or an explicit null, with the
time at which it was written. Every read passes what the store holds through `check`,
which tells three cases apart : nothing live is there (`none`), an explicit null is
there (`some none`), or a live value is (`some (some v)`). An explicit null is live
whatever the policy says, so the policy is not asked about it.
-/

namespace LazyExpiry

/-- A value, or an explicit null, with the time of its writing. -/
structure Stamped (α : Type) where
  /-- The value ; `none` is the explicit null. -/
  value : Option α
  /-- When it was written. -/
  writtenAt : Timestamp
  deriving BEq, DecidableEq

variable {α : Type}

/-- What a read at `now` shows of a stored value. -/
def check (policy : Policy) (stored : Option (Stamped α)) (now : Timestamp) :
    Option (Option α) :=
  match stored with
  | none => none
  | some ⟨none, _⟩ => some none
  | some ⟨some v, writtenAt⟩ => if policy writtenAt now then some (some v) else none

@[simp] theorem check_none (policy : Policy) (now : Timestamp) :
    check policy (none : Option (Stamped α)) now = none := rfl

@[simp] theorem check_null (policy : Policy) (t now : Timestamp) :
    check policy (some (⟨none, t⟩ : Stamped α)) now = some none := rfl

@[simp] theorem check_value (policy : Policy) (v : α) (t now : Timestamp) :
    check policy (some ⟨some v, t⟩) now = if policy t now then some (some v) else none := rfl

end LazyExpiry
