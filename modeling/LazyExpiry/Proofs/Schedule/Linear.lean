import LazyExpiry.Proofs.Point.Reads
import LazyExpiry.Proofs.Schedule.Scene

/-!
# Calls take effect when they are completed

A call on the store that answers later leaves its work, and the work may be completed late,
out of order, or never. `linearise` puts moves in sequence : it deletes the making and the
dropping of calls, and where a call is completed it puts what the call comes to
(`PointCall.completed`). That is the direct call, by the contents and the clock at that
place, but for two things : a write is stamped by the clock as it was when the call was
made, and whether the store is empty is asked of the store itself.

`linearise` reads nothing but the moves. With a clock that only moves when it is told to,
the moves tell what it showed at each call (`Move.clock`), and which call is under which
ticket (`Move.book`). `InStep` is the invariant that links a system to this bookkeeping :
the works that are left do what their calls come to. `run_linearised` follows from its
step by induction on the moves.
-/

namespace LazyExpiry

variable {κ α β ρ : Type} [Ord κ]

/-! ## What a completion comes to -/

namespace World

/-- An action under a clock that shows `time` for as long as it takes. -/
def showing (time : Timestamp) (x : Action (World κ α) β) : Action (World κ α) β := fun w =>
  (x { w with clock := w.clock.set time }).mapWorld fun w' => { w' with clock := w.clock }

/-- An operation of the store in memory comes to the same by any clock. -/
theorem onMemory_of_clock (x : Action (Memory κ (Stamped α)) β) (w : World κ α) (clock : Clock) :
    (onMemory x { w with clock }).mapWorld (fun w' => { w' with clock := w.clock }) =
      onMemory x w := by
  unfold onMemory Action.focus
  rcases x w.memory with _ | _ <;> rfl

end World

variable [Std.TransOrd κ]

namespace PointCall

/-- What a call that was made at that time comes to when it is completed. -/
def completed (calledAt : Timestamp) :
    PointCall κ (Option α) → Action (World κ α) (Reply (Option α))
  | get key => direct (get key)
  | put key value => World.showing calledAt (direct (put key value))
  | putAll batch => World.showing calledAt (direct (putAll batch))
  | remove key => direct (remove key)
  | contains key => direct (contains key)
  | isEmpty => fun w => (Store.isEmpty w).map .flag
  | clear => direct clear

/-! ## Calls by a clock that stands still -/

theorem judgeAnswer_eq_get {w : World κ α} (h : w.clock.stride = 0) (key : κ) :
    Async.judgeAnswer (Store.get key w) = Direct.get key w := by
  have hclock := World.clock_onMemory (Memory.lookup key) w
  simp only [Direct.get, Store.get]
  rcases hl : World.onMemory (Memory.lookup key) w with ⟨stored, w'⟩ | ⟨e, w'⟩
  · rfl
  · -- the deferred read takes the time after a failure too
    rw [hl, Result.world_error] at hclock
    rw [Async.judgeAnswer, World.now_of_stride (hclock ▸ h), Result.bind_error]

/-- The work that a call leaves does what the call comes to, whenever it is completed. -/
theorem await_async (c : PointCall κ (Option α)) (w : World κ α) {w' : World κ α}
    (h : w'.clock.stride = 0) : (c.async w).1.await w' = c.completed w.clock.time w' := by
  match c with
  | get key => exact congrArg (Result.map Reply.found) (judgeAnswer_eq_get h key)
  | put key value =>
    have hput := World.onMemory_of_clock (Memory.insert key ⟨value, w.clock.time⟩) w'
      (w'.clock.set w.clock.time).read.2
    rw [completed, World.showing, direct, Result.mapWorld_map]
    exact congrArg (Result.map fun _ => Reply.done) hput.symm
  | putAll batch =>
    have hput := World.onMemory_of_clock (Memory.insertAll (stampAll w.clock.time batch)) w'
      (w'.clock.set w.clock.time).read.2
    rw [completed, World.showing, direct, Result.mapWorld_map]
    exact congrArg (Result.map fun _ => Reply.done) hput.symm
  | remove key =>
    have hremove := World.onMemory_map (Memory.delete key) (fun _ => ()) w'
    exact congrArg (Result.map fun _ => Reply.done) hremove
  | contains key =>
    rw [completed, direct, Direct.contains, ← judgeAnswer_eq_get h]
    rfl
  | isEmpty => rfl
  | clear => rfl

/-- Making a call changes nothing. -/
theorem world_async (c : PointCall κ (Option α)) {w : World κ α} (h : w.clock.stride = 0) :
    (c.async w).2 = w := by
  have hnow : (Context.now w).2 = w := by rw [World.now_of_stride h]
  match c with
  | get _ | remove _ | contains _ | isEmpty | clear => rfl
  | put _ _ | putAll _ => exact hnow

theorem clock_get {w : World κ α} (h : w.clock.stride = 0) (key : κ) :
    (Direct.get key w).world.clock = w.clock := by
  have hclock := World.clock_onMemory (Memory.lookup key) w
  simp only [Direct.get, Store.get]
  rcases hl : World.onMemory (Memory.lookup key) w with ⟨stored, w'⟩ | ⟨e, w'⟩
  · rw [hl, Result.world_ok] at hclock
    rw [Result.bind_ok, World.now_of_stride (hclock ▸ h), ← hclock]
    rcases stored with - | ⟨- | v, writtenAt⟩ <;> rfl
  · rw [hl] at hclock
    exact hclock

/-- No call moves the clock. -/
theorem clock_direct (c : PointCall κ (Option α)) {w : World κ α} (h : w.clock.stride = 0) :
    (c.direct w).world.clock = w.clock := by
  have hnow : (Context.now w).2 = w := by rw [World.now_of_stride h]
  match c with
  | get key =>
    rw [direct, Result.world_map]
    exact clock_get h key
  | put key value =>
    rw [direct, Result.world_map, Direct.put, stamp, hnow]
    exact World.clock_onMemory _ w
  | putAll batch =>
    rw [direct, Result.world_map, Direct.putAll, hnow]
    exact World.clock_onMemory _ w
  | remove key =>
    have hdelete := Result.world_map (World.onMemory (Memory.delete key) w) fun _ => ()
    rw [direct, Result.world_map]
    exact (congrArg World.clock hdelete).trans (World.clock_onMemory _ w)
  | contains key =>
    rw [direct, Result.world_map, Direct.contains, Result.world_map]
    exact clock_get h key
  | isEmpty =>
    rw [direct, Result.world_map]
    exact Direct.held_isEmpty (P := (·.clock = w.clock)) (heldByLooking_clock h) rfl
  | clear =>
    rw [direct, Result.world_map]
    exact World.clock_onMemory _ w

theorem clock_completed (c : PointCall κ (Option α)) (calledAt : Timestamp) {w : World κ α}
    (h : w.clock.stride = 0) : (c.completed calledAt w).world.clock = w.clock := by
  match c with
  | get _ | remove _ | contains _ | clear =>
    rw [completed]
    exact clock_direct _ h
  | put _ _ | putAll _ => rw [completed, World.showing, Result.world_mapWorld]
  | isEmpty =>
    rw [completed, Result.world_map]
    exact World.clock_onMemory _ w

end PointCall

/-! ## The clock of a schedule -/

/-- What an act makes of the clock. -/
def Act.clock : Act κ α ρ → Clock → Clock
  | setClock time, c => c.set time
  | advanceClock span, c => c.advance span
  | _, c => c

theorem clock_onPass {c : PassCall} {handle : Nat} {p : OpenPass κ α ρ} {s : Scene κ α ρ}
    (h : s.world.clock.stride = 0) : (s.onPass handle c p).2.world.clock = s.world.clock := by
  by_cases hc : c = .removeCurrent
  · subst hc
    obtain ⟨pass, position, past⟩ := p
    have hremove : ∀ last : Memory.Position κ,
        (Cursor.removeCurrent (last, s.world)).world.2.clock = s.world.clock := by
      intro last
      simp [Cursor.removeCurrent, World.atPosition, Action.focus]
    simp only [Scene.onPass, LiveEntries.call, Result.world_map, LiveEntries.removeCurrent]
    split
    · have := hremove position
      rcases hr : Cursor.removeCurrent (position, s.world) with _ | _ <;> rw [hr] at this <;>
        exact this
    · rfl
  · exact LiveEntries.held_call (heldByLooking_clock h)
      (s := (p.pass, p.position, s.world)) rfl hc

/-- A clock that stands still is changed by acts only as they say. -/
theorem Act.clock_perform (a : Act κ α ρ) {s : Scene κ α ρ} (h : s.world.clock.stride = 0) :
    (a.perform s).2.world.clock = a.clock s.world.clock := by
  match a with
  | direct c =>
    rw [perform, Scene.world_follow]
    exact c.clock_direct h
  | setClock _ | advanceClock _ | openPass _ _ => rfl
  | onPass handle c =>
    rw [perform]
    split
    · rfl
    · exact clock_onPass h

omit [Ord κ] [Std.TransOrd κ] in
theorem Act.stride_clock (a : Act κ α ρ) (c : Clock) : (a.clock c).stride = c.stride := by
  match a with
  | direct _ | setClock _ | advanceClock _ | openPass _ _ | onPass _ _ => rfl

/-! ## The sequential run -/

/-- What a sequential run does. -/
inductive Serial (κ α ρ : Type) where
  | act (a : Act κ α ρ)
  /-- The completion of a call that was made at that time. -/
  | completed (calledAt : Timestamp) (c : PointCall κ (Option α))

namespace Serial

/-- Does the next thing. -/
def perform (x : Serial κ α ρ) (s : Scene κ α ρ) : List (Told κ α ρ) × Scene κ α ρ :=
  match x with
  | act a => a.perform s
  | completed calledAt c =>
    let r := c.completed calledAt s.world
    ([.replied r.outcome], s.follow (c.effects calledAt) r)

/-- Does one thing after the other, and keeps what was answered. -/
def run : List (Serial κ α ρ) → Scene κ α ρ → List (Told κ α ρ) × Scene κ α ρ
  | [], s => ([], s)
  | x :: rest, s =>
    let done := x.perform s
    let others := run rest done.2
    (done.1 ++ others.1, others.2)

theorem run_append (xs ys : List (Serial κ α ρ)) (s : Scene κ α ρ) :
    run (xs ++ ys) s = ((run xs s).1 ++ (run ys (run xs s).2).1, (run ys (run xs s).2).2) := by
  induction xs generalizing s with
  | nil => rfl
  | cons x rest ih => simp only [List.cons_append, run, ih, List.append_assoc]

theorem run_singleton (x : Serial κ α ρ) (s : Scene κ α ρ) : run [x] s = x.perform s := by
  simp only [run, List.append_nil]

end Serial

/-- The calls that are made and not completed, by their tickets, each with its time. -/
abbrev Ledger (κ α : Type) := Nat → Option (Timestamp × PointCall κ (Option α))

namespace Move

/-- What is left of a move in sequence. -/
def serial (ledger : Ledger κ α) : Move κ α ρ → List (Serial κ α ρ)
  | act a => [.act a]
  | call _ _ => []
  | complete ticket => (ledger ticket).toList.map fun c => .completed c.1 c.2
  | drop _ => []

/-- What a move makes of the clock. -/
def clock : Move κ α ρ → Clock → Clock
  | act a, c => a.clock c
  | _, c => c

/-- What a move makes of the ledger, by that clock. -/
def book (clock : Clock) (ledger : Ledger κ α) : Move κ α ρ → Ledger κ α
  | act _ => ledger
  | call ticket c => Function.update ledger ticket (some (clock.time, c))
  | complete ticket => Function.update ledger ticket none
  | drop ticket => Function.update ledger ticket none

end Move

/-- Moves in sequence : no call is made or dropped, and each is carried out where it is
completed. -/
def linearise : List (Move κ α ρ) → Clock → Ledger κ α → List (Serial κ α ρ)
  | [], _, _ => []
  | m :: rest, clock, ledger =>
    m.serial ledger ++ linearise rest (m.clock clock) (m.book clock ledger)

/-! ## The simulation -/

/-- The bookkeeping of a schedule is right about a system. -/
structure InStep (st : System κ α ρ) (clock : Clock) (ledger : Ledger κ α) : Prop where
  clock_eq : st.scene.world.clock = clock
  stride_eq : clock.stride = 0
  ledger_eq : ledger = fun ticket => (st.pending ticket).map fun p => (p.calledAt, p.call)
  /-- The work that is left does what its call comes to. -/
  await_eq : ∀ {ticket p}, st.pending ticket = some p → ∀ {w : World κ α}, w.clock.stride = 0 →
    p.work.await w = p.call.completed p.calledAt w

namespace InStep

variable {st : System κ α ρ} {clock : Clock} {ledger : Ledger κ α}

theorem stride_world (h : InStep st clock ledger) : st.scene.world.clock.stride = 0 := by
  rw [h.clock_eq, h.stride_eq]

theorem ledger_update (h : InStep st clock ledger) (ticket : Nat) (new : Option (OpenCall κ α)) :
    Function.update ledger ticket (new.map fun p => (p.calledAt, p.call)) =
      fun other =>
        (Function.update st.pending ticket new other).map fun p => (p.calledAt, p.call) := by
  funext other
  rw [h.ledger_eq]
  exact (Function.apply_update (fun _ => Option.map fun p : OpenCall κ α => (p.calledAt, p.call))
    st.pending ticket new other).symm

/-- The ticket of a call that is completed or dropped is free. -/
theorem free (h : InStep st clock ledger) (ticket : Nat) {scene : Scene κ α ρ}
    (hclock : scene.world.clock = clock) :
    InStep { scene, pending := Function.update st.pending ticket none } clock
      (Function.update ledger ticket none) where
  clock_eq := hclock
  stride_eq := h.stride_eq
  ledger_eq := h.ledger_update ticket none
  await_eq {other p} hp := by
    rcases eq_some_of_update hp with hnew | hold
    · cases hnew
    · exact h.await_eq hold

/-- One move comes to what is left of it in sequence. -/
theorem make (h : InStep st clock ledger) (m : Move κ α ρ) :
    ((m.make st).1, (m.make st).2.scene) = Serial.run (m.serial ledger) st.scene ∧
      InStep (m.make st).2 (m.clock clock) (m.book clock ledger) := by
  have hstride := h.stride_world
  match m with
  | .act a =>
    refine ⟨(Serial.run_singleton (.act a) st.scene).symm, ?_, ?_, h.ledger_eq, h.await_eq⟩
    · exact (a.clock_perform hstride).trans (by rw [h.clock_eq]; rfl)
    · exact (a.stride_clock clock).trans h.stride_eq
  | .call ticket c =>
    have hworld := c.world_async hstride
    refine ⟨?_, ?_, h.stride_eq, ?_, ?_⟩
    · simp only [Move.make, hworld]
      rfl
    · simp only [Move.make, hworld]
      exact h.clock_eq
    · rw [← h.clock_eq]
      exact h.ledger_update ticket (some ⟨c, st.scene.world.clock.time, _⟩)
    · intro other p hp w hw
      rcases eq_some_of_update hp with hnew | hold
      · rw [← Option.some.inj hnew]
        exact c.await_async _ hw
      · exact h.await_eq hold hw
  | .complete ticket =>
    have hl := congrFun h.ledger_eq ticket
    rcases hp : st.pending ticket with - | p
    · rw [hp, Option.map_none] at hl
      have hbook : Function.update ledger ticket none = ledger := by
        rw [← hl, Function.update_eq_self]
      simp only [Move.make, hp, Move.serial, hl, Move.book, hbook]
      exact ⟨rfl, h⟩
    · rw [hp, Option.map_some] at hl
      have hdo := h.await_eq hp hstride
      simp only [Move.make, hp, Move.serial, hl, hdo, Option.toList_some, List.map_cons,
        List.map_nil, Serial.run_singleton]
      refine ⟨rfl, h.free ticket ?_⟩
      rw [Scene.world_follow, PointCall.clock_completed _ _ hstride]
      exact h.clock_eq
  | .drop ticket => exact ⟨rfl, h.free ticket h.clock_eq⟩

/-- Moves come to the same as they do in sequence. -/
theorem run (h : InStep st clock ledger) (moves : List (Move κ α ρ)) :
    ((System.run moves st).1, (System.run moves st).2.scene) =
        Serial.run (linearise moves clock ledger) st.scene ∧
      ∃ clock ledger, InStep (System.run moves st).2 clock ledger := by
  induction moves generalizing st clock ledger with
  | nil => exact ⟨rfl, clock, ledger, h⟩
  | cons m rest ih =>
    obtain ⟨hmade, hnext⟩ := h.make m
    obtain ⟨hrest, hlast⟩ := ih hnext
    refine ⟨?_, hlast⟩
    rw [linearise, Serial.run_append, ← hmade, ← hrest]
    rfl

end InStep

namespace System

/-- Calls take effect when they are completed. By a clock that only moves when it is told
to, moves answer what they do in sequence and leave the same scene, and at every moment
making a call or dropping one leaves the scene alone. -/
theorem run_linearised {s : Scene κ α ρ} (h : s.world.clock.stride = 0)
    (moves : List (Move κ α ρ)) :
    ((run moves { scene := s }).1, (run moves { scene := s }).2.scene) =
        Serial.run (linearise moves s.world.clock fun _ => none) s ∧
      (∀ ticket c, ((Move.call ticket c).make (run moves { scene := s }).2).2.scene =
        (run moves { scene := s }).2.scene) ∧
      ∀ ticket, ((Move.drop ticket).make (run moves { scene := s }).2).2.scene =
        (run moves { scene := s }).2.scene := by
  have start : InStep { scene := s } s.world.clock (fun _ => none) := by
    refine ⟨rfl, h, rfl, ?_⟩
    intro ticket p hp
    cases hp
  obtain ⟨hrun, clock, ledger, hlast⟩ := start.run moves
  refine ⟨hrun, fun ticket c => ?_, fun ticket => rfl⟩
  exact congrArg Prod.snd (hlast.make (.call ticket c)).1

/-- Two writes of one key, completed in the other order after a read of it was called. -/
def overtaken : List (Move Nat Nat Unit) :=
  [.call 0 (.put 1 (some 5)), .act (.setClock 10), .call 1 (.put 1 (some 6)), .call 2 (.get 1),
    .call 3 .clear, .complete 1, .complete 0, .drop 3, .complete 2]

/-- The older stamp is left, and the read sees it. -/
theorem run_linearised_overtaken :
    let s : Scene Nat Nat Unit := { world := { policy := .always } }
    ((run overtaken { scene := s }).1, (run overtaken { scene := s }).2.scene) =
        Serial.run [.act (.setClock 10), .completed 10 (.put 1 (some 6)),
          .completed 0 (.put 1 (some 5)), .completed 10 (.get 1)] s ∧
      (run overtaken { scene := s }).1 =
        [.replied (.ok .done), .replied (.ok .done), .replied (.ok (.found (some (some 5))))] ∧
      (run overtaken { scene := s }).2.scene.world.memory.table.get? 1 = some ⟨some 5, 0⟩ :=
  ⟨(run_linearised rfl overtaken).1, rfl, rfl⟩

end System

end LazyExpiry
