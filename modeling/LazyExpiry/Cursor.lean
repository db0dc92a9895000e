import LazyExpiry.Context

/-!
# Cursors

A `Cursor ω κ ν` is a world one can walk through entry by entry : `Cursor.advance`
answers the next entry, or `none` at the end, and `Cursor.removeCurrent` removes the
entry answered last. A cursor may fail at any call, may answer entries again after an
end or a failure, and may share its world with others who change it in between.

One step of an iteration over stamped entries is a `pull` : advance, read the clock,
judge the entry. Two classes say how far a cursor can lead. `Settles ω` bounds the run of
expired entries ahead, which is all that a search for the next live entry needs in order
to return ; live entries may go on for ever. `Drains ω` bounds all the entries ahead,
which is what it takes to collect the rest, and implies the former (`Drains.ahead_pull`).
-/

namespace LazyExpiry

/-- A world to be walked through entry by entry. -/
class Cursor (ω : Type) (κ ν : outParam Type) where
  /-- Moves to the next entry and answers it, or `none` at the end. -/
  advance : Action ω (Option (κ × ν))
  /-- Removes the entry answered last. -/
  removeCurrent : Action ω Unit

/-- What one step of an iteration brings. -/
inductive Pull (κ α : Type) where
  /-- A live entry. -/
  | live (key : κ) (value : Option α)
  /-- An entry that is there but expired. -/
  | expired
  /-- No entry. -/
  | ended

variable {ω κ ν α : Type}

section Iteration

variable [Context ω] [Cursor ω κ (Stamped α)]

/-- Advances the cursor and judges what it answers at a fresh reading of the clock. The
clock is read only when there is an entry, and an expired entry is noted. -/
def pull : Action ω (Pull κ α) := fun w =>
  match Cursor.advance w with
  | .error e w => .error e w
  | .ok none w => .ok .ended w
  | .ok (some (key, stored)) w =>
    let reading := Context.now w
    let judged := judge (some stored) reading.1 reading.2
    match judged.1 with
    | some value => .ok (.live key value) judged.2
    | none => .ok .expired (Context.note (.skipping reading.1) judged.2)

/-- Every run of expired entries comes to an end, so a search for the next live entry
returns. -/
class Settles (ω : Type) (κ α : outParam Type) [Context ω] [Cursor ω κ (Stamped α)] where
  /-- A bound on the expired entries before the next answer of another kind. -/
  expiredAhead : ω → Nat
  expiredAhead_pull : ∀ {w w' : ω},
    pull w = .ok (.expired : Pull κ α) w' → expiredAhead w' < expiredAhead w

end Iteration

/-- At any moment only so many entries are ahead : each answer brings the number down,
and the context does not raise it. -/
class Drains (ω : Type) (κ ν : outParam Type) [Context ω] [Cursor ω κ ν] where
  /-- A bound on the entries ahead. -/
  ahead : ω → Nat
  ahead_advance : ∀ {w w' : ω} {e : κ × ν}, Cursor.advance w = .ok (some e) w' → ahead w' < ahead w
  ahead_now : ∀ w : ω, ahead (Context.now w).2 ≤ ahead w
  ahead_isLive : ∀ (writtenAt now : Timestamp) (w : ω),
    ahead (Context.isLive writtenAt now w).2 ≤ ahead w
  ahead_note : ∀ (event : Event) (w : ω), ahead (Context.note event w) ≤ ahead w

namespace Drains

variable [Context ω] [Cursor ω κ (Stamped α)] [Drains ω κ (Stamped α)]

theorem ahead_judge (stored : Option (Stamped α)) (now : Timestamp) (w : ω) :
    ahead (judge stored now w).2 ≤ ahead w := by
  unfold judge
  split
  · exact Nat.le_refl _
  · exact Nat.le_refl _
  · exact ahead_isLive _ _ w

/-- Every entry pulled, live or expired, is one fewer ahead. -/
theorem ahead_pull {w w' : ω} {p : Pull κ α} (h : pull w = .ok p w') (hp : p ≠ .ended) :
    ahead w' < ahead w := by
  unfold pull at h
  split at h
  · cases h
  · cases h
    exact absurd rfl hp
  · rename_i key stored w₁ hadv
    have h₁ := ahead_advance hadv
    have h₂ := ahead_now w₁
    have h₃ := ahead_judge (some stored) (Context.now w₁).1 (Context.now w₁).2
    dsimp only at h
    split at h <;> cases h
    · omega
    · have h₄ := ahead_note (.skipping (Context.now w₁).1)
        (judge (some stored) (Context.now w₁).1 (Context.now w₁).2).2
      omega

end Drains

instance [Context ω] [Cursor ω κ (Stamped α)] [Drains ω κ (Stamped α)] : Settles ω κ α where
  expiredAhead := Drains.ahead
  expiredAhead_pull h := Drains.ahead_pull h (by simp)

end LazyExpiry
