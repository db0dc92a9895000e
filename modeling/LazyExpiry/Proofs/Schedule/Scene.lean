import Mathlib.Logic.Function.Basic
import LazyExpiry.PointCall
import LazyExpiry.World
import LazyExpiry.Proofs.Pass.Run

/-!
# Schedules of calls on one store

A `Scene` is one store in memory with a clock and a policy, shared by the expiring store
that answers at once and the one that answers later, and the passes that are open on it.
An `Act` is done at once : a direct call, a move of the clock, or the use of a pass. A
`System` is a scene with the calls that were made and not completed, each under a ticket,
and a `Move` is an act, or makes such a call, completes it or drops it. Moves come in any
order (`run`), and answer what acts and completions do.

Every scene carries its history, the effects on what the store holds in the order in which
they came about. It is written and never read. What a removal through a pass removed, it
takes from the calls on that pass alone : an item is handed out together with its key, and
the key removed is that of the item handed out last (`lastHanded`).
-/

namespace LazyExpiry

variable {κ α β ρ : Type}

/-- Under an updated name there is the new thing or an old one. -/
theorem eq_some_of_update {f : Nat → Option β} {name other : Nat} {new : Option β} {b : β}
    (h : Function.update f name new other = some b) : new = some b ∨ f other = some b := by
  by_cases ho : other = name
  · subst ho
    exact .inl (by rwa [Function.update_self] at h)
  · exact .inr (by rwa [Function.update_of_ne ho] at h)

/-! ## Effects -/

/-- A change of what a store holds. -/
inductive Effect (κ α : Type) where
  /-- A value, or an explicit null, was written, and when. -/
  | wrote (key : κ) (stored : Stamped α)
  | removed (key : κ)
  | cleared

/-- What a call that was made at that time changes. -/
def PointCall.effects (calledAt : Timestamp) : PointCall κ (Option α) → List (Effect κ α)
  | get _ => []
  | put key value => [.wrote key ⟨value, calledAt⟩]
  | putAll batch => batch.map fun e => .wrote e.1 ⟨e.2, calledAt⟩
  | remove key => [.removed key]
  | contains _ => []
  | isEmpty => []
  | clear => [.cleared]

/-- The item handed out last. -/
def lastHanded (past : List (PassEvent ρ)) : Option ρ := past.reverse.findSome? PassEvent.item?

/-- What a call on a pass changes, after those calls on it. -/
def PassEvent.effects (past : List (PassEvent (κ × ρ))) :
    PassEvent (κ × ρ) → List (Effect κ α)
  | ⟨.removeCurrent, .ok _⟩ => (lastHanded past).toList.map fun item => .removed item.1
  | _ => []

/-! ## Scenes -/

/-- An open pass over the live entries of a store in memory. Every item comes with its
key. -/
structure OpenPass (κ α ρ : Type) where
  pass : LiveEntries κ α (κ × ρ)
  position : Memory.Position κ := {}
  /-- The calls made on it, oldest first. -/
  past : List (PassEvent (κ × ρ)) := []

/-- A store in memory with a clock and a policy, and the passes open on it. -/
structure Scene (κ α ρ : Type) [Ord κ] where
  world : World κ α
  passes : Nat → Option (OpenPass κ α ρ) := fun _ => none
  /-- The effects on what the store holds, oldest first. -/
  history : List (Effect κ α) := []

/-- What a move answers. -/
inductive Told (κ α ρ : Type) where
  /-- The outcome of a call on an expiring store. -/
  | replied (outcome : Except StoreError (Reply (Option α)))
  /-- The outcome of a call on a pass. -/
  | passed (outcome : Except StoreError (PassAnswer (κ × ρ)))
  /-- The outcome of opening a pass. -/
  | opened (outcome : Except StoreError Unit)

/-- Something done at once. -/
inductive Act (κ α ρ : Type) where
  /-- A call on the expiring store that answers at once. -/
  | direct (c : PointCall κ (Option α))
  | setClock (time : Timestamp)
  | advanceClock (span : Span)
  /-- Opens a pass, for the items that `project` makes of live entries. -/
  | openPass (handle : Nat) (project : κ → Option α → ρ)
  /-- A call on an open pass. -/
  | onPass (handle : Nat) (c : PassCall)

namespace Scene

variable [Ord κ]

/-- The scene after an operation that has those effects if it succeeds. -/
def follow (s : Scene κ α ρ) (effects : List (Effect κ α)) : Result (World κ α) β → Scene κ α ρ
  | .ok _ world => { s with world, history := s.history ++ effects }
  | .error _ world => { s with world }

@[simp] theorem world_follow (s : Scene κ α ρ) (effects : List (Effect κ α))
    (r : Result (World κ α) β) : (s.follow effects r).world = r.world := by
  cases r <;> rfl

@[simp] theorem passes_follow (s : Scene κ α ρ) (effects : List (Effect κ α))
    (r : Result (World κ α) β) : (s.follow effects r).passes = s.passes := by
  cases r <;> rfl

/-- The scene with its clock changed. -/
def changeClock (f : Clock → Clock) (s : Scene κ α ρ) : Scene κ α ρ :=
  { s with world := { s.world with clock := f s.world.clock } }

variable [Std.TransOrd κ]

/-- Opens a pass under a handle, in place of one that is open there. -/
def openPass (handle : Nat) (project : κ → Option α → ρ) (s : Scene κ α ρ) :
    List (Told κ α ρ) × Scene κ α ρ :=
  match Direct.pass (fun key value => (key, project key value)) s.world with
  | .ok (pass, position) world =>
    ([.opened (.ok ())],
      { s with world, passes := Function.update s.passes handle (some { pass, position }) })
  | .error e world => ([.opened (.error e)], { s with world })

/-- Makes a call on a pass that is open under that handle. -/
def onPass (handle : Nat) (c : PassCall) (p : OpenPass κ α ρ) (s : Scene κ α ρ) :
    List (Told κ α ρ) × Scene κ α ρ :=
  let r := LiveEntries.call c (p.pass, p.position, s.world)
  let event := ⟨c, r.outcome⟩
  let p' := { pass := r.world.1, position := r.world.2.1, past := p.past ++ [event] }
  ([.passed r.outcome],
    { world := r.world.2.2, passes := Function.update s.passes handle (some p'),
      history := s.history ++ event.effects p.past })

end Scene

variable [Ord κ] [Std.TransOrd κ]

/-- Does something at once. Without a pass under its handle, a call on one does nothing. -/
def Act.perform (a : Act κ α ρ) (s : Scene κ α ρ) : List (Told κ α ρ) × Scene κ α ρ :=
  match a with
  | direct c =>
    let r := c.direct s.world
    ([.replied r.outcome], s.follow (c.effects s.world.clock.time) r)
  | setClock time => ([], s.changeClock (·.set time))
  | advanceClock span => ([], s.changeClock (·.advance span))
  | openPass handle project => s.openPass handle project
  | onPass handle c =>
    match s.passes handle with
    | none => ([], s)
    | some p => s.onPass handle c p

/-! ## Systems -/

/-- A call that was made and is not completed. -/
structure OpenCall (κ α : Type) [Ord κ] where
  call : PointCall κ (Option α)
  calledAt : Timestamp
  /-- The work that it left. -/
  work : Deferred (World κ α) (Reply (Option α))

/-- A scene with the calls that are to be completed, by their tickets. -/
structure System (κ α ρ : Type) [Ord κ] where
  scene : Scene κ α ρ
  pending : Nat → Option (OpenCall κ α) := fun _ => none

/-- What is done next. -/
inductive Move (κ α ρ : Type) where
  | act (a : Act κ α ρ)
  /-- Makes a call on the expiring store that answers later. A call under the same ticket
  that is not completed is dropped. -/
  | call (ticket : Nat) (c : PointCall κ (Option α))
  /-- Completes the call under a ticket. -/
  | complete (ticket : Nat)
  /-- Drops the call under a ticket. -/
  | drop (ticket : Nat)

/-- Makes a move. Without a call under its ticket, a completion does nothing. -/
def Move.make (m : Move κ α ρ) (st : System κ α ρ) : List (Told κ α ρ) × System κ α ρ :=
  match m with
  | act a =>
    let done := a.perform st.scene
    (done.1, { st with scene := done.2 })
  | call ticket c =>
    let called := c.async st.scene.world
    let pending := { call := c, calledAt := st.scene.world.clock.time, work := called.1 }
    ([], { scene := { st.scene with world := called.2 },
           pending := Function.update st.pending ticket (some pending) })
  | complete ticket =>
    match st.pending ticket with
    | none => ([], st)
    | some p =>
      let r := p.work.await st.scene.world
      ([.replied r.outcome],
        { scene := st.scene.follow (p.call.effects p.calledAt) r,
          pending := Function.update st.pending ticket none })
  | drop ticket => ([], { st with pending := Function.update st.pending ticket none })

/-- Makes moves in order, and keeps what they answer. -/
def System.run : List (Move κ α ρ) → System κ α ρ → List (Told κ α ρ) × System κ α ρ
  | [], st => ([], st)
  | m :: rest, st =>
    let made := m.make st
    let others := run rest made.2
    (made.1 ++ others.1, others.2)

end LazyExpiry
