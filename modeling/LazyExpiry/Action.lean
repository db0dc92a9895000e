import LazyExpiry.StoreError

/-!
# Actions that may fail

An `Action ω α` is a computation on a world `ω` : it answers an `α` or fails with a
`StoreError`, and it leaves a world in both cases (`Result`). The world after a failure
matters, since a store that fails may have counted the attempt, and an iteration that
meets a failure goes on from where it stopped. `Action.focus` runs an action on one part
of a world.
-/

namespace LazyExpiry

/-- What became of an action : an answer or a failure, and the world it left. -/
inductive Result (ω α : Type) where
  | ok (answer : α) (world : ω)
  | error (error : StoreError) (world : ω)

namespace Result

variable {ω σ α β : Type}

/-- The world that was left. -/
def world : Result ω α → ω
  | ok _ w => w
  | error _ w => w

/-- The answer or the failure. -/
def outcome : Result ω α → Except StoreError α
  | ok a _ => .ok a
  | error e _ => .error e

/-- The same end with another answer. -/
def map (f : α → β) : Result ω α → Result ω β
  | ok a w => ok (f a) w
  | error e w => error e w

/-- The same end with another world. -/
def mapWorld (f : ω → σ) : Result ω α → Result σ α
  | ok a w => ok a (f w)
  | error e w => error e (f w)

/-- What follows an answer ; a failure is the end. -/
def bind (r : Result ω α) (f : α → ω → Result ω β) : Result ω β :=
  match r with
  | ok a w => f a w
  | error e w => error e w

@[simp] theorem world_ok (a : α) (w : ω) : (ok a w).world = w := rfl
@[simp] theorem world_error (e : StoreError) (w : ω) : (error e w : Result ω α).world = w := rfl
@[simp] theorem outcome_ok (a : α) (w : ω) : (ok a w).outcome = .ok a := rfl
@[simp] theorem outcome_error (e : StoreError) (w : ω) :
    (error e w : Result ω α).outcome = .error e := rfl
@[simp] theorem map_ok (f : α → β) (a : α) (w : ω) : (ok a w).map f = ok (f a) w := rfl
@[simp] theorem map_error (f : α → β) (e : StoreError) (w : ω) :
    (error e w : Result ω α).map f = error e w := rfl
@[simp] theorem mapWorld_ok (f : ω → σ) (a : α) (w : ω) : (ok a w).mapWorld f = ok a (f w) := rfl
@[simp] theorem mapWorld_error (f : ω → σ) (e : StoreError) (w : ω) :
    (error e w : Result ω α).mapWorld f = error e (f w) := rfl
@[simp] theorem bind_ok (a : α) (w : ω) (f : α → ω → Result ω β) : (ok a w).bind f = f a w := rfl
@[simp] theorem bind_error (e : StoreError) (w : ω) (f : α → ω → Result ω β) :
    (error e w).bind f = error e w := rfl

@[simp] theorem world_mapWorld (r : Result ω α) (f : ω → σ) :
    (r.mapWorld f).world = f r.world := by
  cases r <;> rfl

@[simp] theorem outcome_mapWorld (r : Result ω α) (f : ω → σ) :
    (r.mapWorld f).outcome = r.outcome := by
  cases r <;> rfl

@[simp] theorem world_map (r : Result ω α) (f : α → β) : (r.map f).world = r.world := by
  cases r <;> rfl

theorem outcome_map (r : Result ω α) (f : α → β) : (r.map f).outcome = r.outcome.map f := by
  cases r <;> rfl

theorem mapWorld_map (r : Result ω α) (f : ω → σ) (g : α → β) :
    (r.map g).mapWorld f = (r.mapWorld f).map g := by
  cases r <;> rfl

theorem map_eq_ok_iff {r : Result ω α} {f : α → β} {b : β} {w : ω} :
    r.map f = ok b w ↔ ∃ a, r = ok a w ∧ f a = b := by
  cases r with
  | ok a w₁ =>
    constructor
    · rintro ⟨⟩
      exact ⟨a, rfl, rfl⟩
    · rintro ⟨_, ⟨⟩, rfl⟩
      rfl
  | error e w₁ => simp

theorem map_eq_error_iff {r : Result ω α} {f : α → β} {e : StoreError} {w : ω} :
    r.map f = error e w ↔ r = error e w := by
  cases r with
  | ok a w₁ => simp
  | error e' w₁ => simp

theorem mapWorld_eq_ok_iff {r : Result ω α} {f : ω → σ} {a : α} {v : σ} :
    r.mapWorld f = ok a v ↔ ∃ w, r = ok a w ∧ f w = v := by
  cases r with
  | ok b w =>
    constructor
    · rintro ⟨⟩
      exact ⟨w, rfl, rfl⟩
    · rintro ⟨_, ⟨⟩, rfl⟩
      rfl
  | error e w => simp

theorem mapWorld_eq_error_iff {r : Result ω α} {f : ω → σ} {e : StoreError} {v : σ} :
    r.mapWorld f = error e v ↔ ∃ w, r = error e w ∧ f w = v := by
  cases r with
  | ok b w => simp
  | error e' w =>
    constructor
    · rintro ⟨⟩
      exact ⟨w, rfl, rfl⟩
    · rintro ⟨_, ⟨⟩, rfl⟩
      rfl

end Result

/-- A computation on a world `ω` that answers an `α` or fails. -/
abbrev Action (ω α : Type) := ω → Result ω α

namespace Action

variable {ω σ α : Type}

/-- An action on one part of the world, given how to look at that part and how to put it
back. -/
def focus (view : ω → σ) (put : σ → ω → ω) (x : Action σ α) : Action ω α := fun w =>
  (x (view w)).mapWorld fun s => put s w

end Action

end LazyExpiry
