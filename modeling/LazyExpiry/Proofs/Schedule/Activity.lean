import LazyExpiry.Proofs.Paged.Held
import LazyExpiry.Proofs.Schedule.Scene

/-!
# Paged passes within a schedule

A paged pass runs its callback while it goes on, and the callback may use both stores, the
clock, the open passes and the calls that are not completed. So a system is itself a world
that pages can be read from, and a `Callback` is any function on systems that touches them
by moves alone, both when it is called and when the work it leaves is finished ; which
moves, it may decide by all it sees. A `Receiver` is the same for a pass that delivers.

An `Activity` is a move or a whole paged pass, from wherever its source stands and however
many pages it may ask for. What every move keeps, every activity keeps (`held_perform`).
-/

namespace LazyExpiry

variable {κ α ρ υ : Type} [Ord κ]

/-! ## Systems as worlds -/

namespace System

/-- Puts the world back. -/
def withWorld (st : System κ α ρ) (world : World κ α) : System κ α ρ :=
  { st with scene := { st.scene with world } }

instance : Context (System κ α ρ) where
  now st := ((Context.now st.scene.world).1, st.withWorld (Context.now st.scene.world).2)
  isLive writtenAt now st :=
    ((Context.isLive writtenAt now st.scene.world).1,
      st.withWorld (Context.isLive writtenAt now st.scene.world).2)
  note event st := st.withWorld (Context.note event st.scene.world)

instance : PageSource (Memory.Pages κ × System κ α ρ) κ (Stamped α) where
  nextPage s := (World.nextPage (s.1, s.2.scene.world)).mapWorld fun p => (p.1, s.2.withWorld p.2)

end System

/-! ## Activities -/

variable [Std.TransOrd κ]

/-- The callback of a collecting pass. It touches a system by moves alone. -/
structure Callback (κ α ρ υ : Type) [Ord κ] [Std.TransOrd κ] where
  call : Nat → ρ → System κ α ρ → Deferred (System κ α ρ) υ × System κ α ρ
  called : ∀ index item st, ∃ moves, (call index item st).2 = (System.run moves st).2
  finished : ∀ index item st st', ∃ moves,
    ((call index item st).1.finish st').world = (System.run moves st').2

/-- The callback of a delivering pass. It touches a system by moves alone. -/
structure Receiver (κ α ρ : Type) [Ord κ] [Std.TransOrd κ] where
  take : Nat → ρ → Action (System κ α ρ) Unit
  taken : ∀ index item st, ∃ moves, (take index item st).world = (System.run moves st).2

/-- A move, or a paged pass over the live entries. -/
inductive Activity (κ α ρ υ : Type) [Ord κ] [Std.TransOrd κ] where
  | move (m : Move κ α ρ)
  | collectEach (it : PagedEntries (Memory.Pages κ) κ α ρ) (limit : Nat)
    (callback : Callback κ α ρ υ)
  | deliverEach (it : PagedEntries (Memory.Pages κ) κ α ρ) (limit : Nat)
    (receiver : Receiver κ α ρ)

namespace Activity

/-- The system after an activity, however it ends. -/
def perform (a : Activity κ α ρ υ) (st : System κ α ρ) : System κ α ρ :=
  match a with
  | move m => (m.make st).2
  | collectEach it limit callback => (it.collectEach limit callback.call st).world
  | deliverEach it limit receiver => (it.deliverEach limit receiver.take st).world

/-- The system after activities in order. -/
def carryOut : List (Activity κ α ρ υ) → System κ α ρ → System κ α ρ
  | [], st => st
  | a :: rest, st => carryOut rest (a.perform st)

end Activity

/-! ## What activities keep -/

section Held

variable {P : System κ α ρ → Prop}

theorem System.held_run (hmove : ∀ (m : Move κ α ρ) {st}, P st → P (m.make st).2) :
    ∀ (moves : List (Move κ α ρ)) {st : System κ α ρ}, P st → P (run moves st).2
  | [], _, hst => hst
  | m :: rest, _, hst => held_run hmove rest (hmove m hst)

theorem Activity.held_perform (hP : HeldByPaging (π := Memory.Pages κ) P)
    (hmove : ∀ (m : Move κ α ρ) {st}, P st → P (m.make st).2) (a : Activity κ α ρ υ)
    {st : System κ α ρ} (hst : P st) : P (a.perform st) := by
  match a with
  | move m => exact hmove m hst
  | collectEach it limit callback =>
    refine PagedEntries.held_collectFrom hP ?_ ?_ limit 0 [] it.source hst
    · intro index item st hst
      obtain ⟨moves, hcalled⟩ := callback.called index item st
      rw [hcalled]
      exact System.held_run hmove moves hst
    · intro index item st st' hst'
      obtain ⟨moves, hfinished⟩ := callback.finished index item st st'
      rw [hfinished]
      exact System.held_run hmove moves hst'
  | deliverEach it limit receiver =>
    refine PagedEntries.held_deliverFrom hP ?_ limit 0 0 it.source hst
    intro index item st hst
    obtain ⟨moves, htaken⟩ := receiver.taken index item st
    rw [htaken]
    exact System.held_run hmove moves hst

theorem Activity.held_carryOut (hP : HeldByPaging (π := Memory.Pages κ) P)
    (hmove : ∀ (m : Move κ α ρ) {st}, P st → P (m.make st).2) :
    ∀ (activities : List (Activity κ α ρ υ)) {st : System κ α ρ}, P st → P (carryOut activities st)
  | [], _, hst => hst
  | a :: rest, _, hst => held_carryOut hP hmove rest (a.held_perform hP hmove hst)

end Held

end LazyExpiry
