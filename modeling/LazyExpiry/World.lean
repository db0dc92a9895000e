import LazyExpiry.Direct
import LazyExpiry.Async
import LazyExpiry.Memory
import LazyExpiry.Time

/-!
# A store in memory with a clock and a policy

`World κ α` is what the two expiring stores share when they stand over one store in
memory : the store, a clock, a policy, how often the policy was asked, and the notes
taken. It is a `Context`, a `Store` and an `AsyncStore`, so everything that is defined
over those runs on it.

A call on the asynchronous store changes nothing before its work is completed, apart
from one thing that it takes along : the page size of a page source is the one at the
call.
-/

namespace LazyExpiry

/-- A store in memory with a clock and a policy. -/
structure World (κ α : Type) [Ord κ] where
  memory : Memory κ (Stamped α) := {}
  clock : Clock := {}
  policy : Policy
  /-- How often the policy was asked. -/
  asked : Nat := 0
  /-- The notes taken, oldest first. -/
  events : List Event := []

namespace World

variable {κ α β γ : Type} [Ord κ]

instance : Context (World κ α) where
  now w := (w.clock.read.1, { w with clock := w.clock.read.2 })
  isLive writtenAt now w := (w.policy writtenAt now, { w with asked := w.asked + 1 })
  note event w := { w with events := w.events ++ [event] }

/-- Reading a clock that stands still changes nothing. -/
theorem now_of_stride {w : World κ α} (h : w.clock.stride = 0) :
    Context.now w = (w.clock.time, w) := by
  simp only [Context.now, Clock.read_of_stride h]

/-- An operation of the store in memory. -/
def onMemory (x : Action (Memory κ (Stamped α)) β) : Action (World κ α) β :=
  Action.focus World.memory (fun m w => { w with memory := m }) x

/-- An operation of the store in memory leaves the clock alone. -/
theorem clock_onMemory (x : Action (Memory κ (Stamped α)) β) (w : World κ α) :
    (onMemory x w).world.clock = w.clock := by
  simp [onMemory, Action.focus]

theorem onMemory_map {δ : Type} (x : Action (Memory κ (Stamped α)) β) (f : β → δ) (w : World κ α) :
    onMemory (fun m => (x m).map f) w = (onMemory x w).map f :=
  Result.mapWorld_map _ _ _

/-- An operation of the store in memory on a position in it. -/
def atPosition (x : Action (γ × Memory κ (Stamped α)) β) : Action (γ × World κ α) β :=
  Action.focus (fun s => (s.1, s.2.memory)) (fun p s => (p.1, { s.2 with memory := p.2 })) x

/-- An operation of the store in memory, left to be completed. -/
def later (x : Action (Memory κ (Stamped α)) β) (w : World κ α) :
    Deferred (World κ α) β × World κ α :=
  ({ finish := onMemory x }, w)

/-- The next page of the store in memory, which notes each page that it serves. -/
def nextPage : Action (Memory.Pages κ × World κ α) (Option (List (κ × Stamped α))) := fun s =>
  match atPosition Memory.nextPage s with
  | .ok (some page) s => .ok (some page) (Context.note (.servingPage page.length) s)
  | r => r

variable [Std.TransOrd κ]

instance : Store (World κ α) κ (Stamped α) (Memory.Position κ) where
  get key := onMemory (Memory.lookup key)
  put key value := onMemory (Memory.insert key value)
  putAll batch := onMemory (Memory.insertAll batch)
  remove key w := (onMemory (Memory.delete key) w).map fun _ => ()
  contains key := onMemory (Memory.containsKey key)
  isEmpty := onMemory Memory.isEmpty
  clear := onMemory Memory.clearAll
  entries w := .ok {} w
  advance := atPosition Memory.advance
  removeCurrent := atPosition Memory.removeLast

instance : AsyncStore (World κ α) κ (Stamped α) (Memory.Pages κ) where
  get key := later (Memory.lookup key)
  put key value := later (Memory.insert key value)
  putAll batch := later (Memory.insertAll batch)
  remove key := later fun m => (Memory.delete key m).map fun _ => ()
  contains key := later (Memory.containsKey key)
  isEmpty := later Memory.isEmpty
  clear := later Memory.clearAll
  entries w := ({ finish := fun w' => .ok { pageSize := w.memory.pageSize } w' }, w)
  nextPage := nextPage

/-- Only the entries beyond the position are ahead of it. -/
instance : Drains (Memory.Position κ × World κ α) κ (Stamped α) where
  ahead s := (s.2.memory.table.after s.1.last).length
  ahead_advance := by
    intro s s' e h
    cases hm : Memory.advance (s.1, s.2.memory) with
    | error err m => simp [Cursor.advance, atPosition, Action.focus, hm] at h
    | ok answer m =>
      simp only [Cursor.advance, atPosition, Action.focus, hm, Result.mapWorld_ok,
        Result.ok.injEq] at h
      obtain ⟨rfl, rfl⟩ := h
      exact Memory.length_after_advance hm
  ahead_now _ := Nat.le_refl _
  ahead_isLive _ _ _ := Nat.le_refl _
  ahead_note _ _ := Nat.le_refl _

end World

end LazyExpiry
