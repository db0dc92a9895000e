import LazyExpiry.PointCall
import LazyExpiry.World
import LazyExpiry.Proofs.Pass.Run

/-!
# What a read of one key shows

Over a store in memory that is not poisoned, a read shows `check` of what the table holds,
by the policy and the time of the world. It counts as a read, it may ask the policy, and
it reads the clock ; the table and the policy stay as they are (`SameStore`). A read that
was deferred shows what a direct one does at its completion, whenever it was called.
-/

namespace LazyExpiry

variable {κ α : Type} [Ord κ]

/-- Both worlds hold the same entries under the same policy and are not poisoned. -/
structure SameStore (w w' : World κ α) : Prop where
  table_eq : w'.memory.table = w.memory.table
  policy_eq : w'.policy = w.policy
  not_poisoned : w'.memory.poisoned = false

theorem SameStore.refl {w : World κ α} (h : w.memory.poisoned = false) : SameStore w w :=
  ⟨rfl, rfl, h⟩

theorem SameStore.trans {w w' w'' : World κ α} (h : SameStore w w') (h' : SameStore w' w'') :
    SameStore w w'' :=
  ⟨h'.table_eq.trans h.table_eq, h'.policy_eq.trans h.policy_eq, h'.not_poisoned⟩

/-- A world judges by its policy, and only counts that it was asked. -/
theorem judge_eq_check (stored : Option (Stamped α)) (now : Timestamp) (w : World κ α) :
    ∃ asked, judge stored now w = (check w.policy stored now, { w with asked }) := by
  rcases stored with - | ⟨- | v, writtenAt⟩
  · exact ⟨w.asked, rfl⟩
  · exact ⟨w.asked, rfl⟩
  · exact ⟨w.asked + 1, rfl⟩

/-- The lock is sound, and values are judged by `policy`. -/
structure Intact (policy : Policy) (w : World κ α) : Prop where
  policy_eq : w.policy = policy
  not_poisoned : w.memory.poisoned = false

theorem SameStore.intact {policy : Policy} {w w' : World κ α} (h : SameStore w w')
    (hw : Intact policy w) : Intact policy w' :=
  ⟨h.policy_eq.trans hw.policy_eq, h.not_poisoned⟩

namespace Intact

variable {policy : Policy} {w : World κ α} (h : Intact policy w)

include h

theorem onMemory {β : Type} {x : Action (Memory κ (Stamped α)) β}
    (hx : (x w.memory).world.poisoned = false) : Intact policy (World.onMemory x w).world := by
  refine ⟨?_, ?_⟩ <;> rw [World.onMemory, Action.focus, Result.world_mapWorld]
  · exact h.policy_eq
  · exact hx

theorem now : Intact policy (Context.now w).2 := ⟨h.policy_eq, h.not_poisoned⟩

theorem put [Std.TransOrd κ] (key : κ) (value : Option α) :
    Intact policy (Direct.put key value w).world := by
  refine h.now.onMemory ?_
  rw [Memory.insert_of_not_poisoned h.now.not_poisoned]
  exact h.not_poisoned

theorem putAll [Std.TransOrd κ] (batch : List (κ × Option α)) :
    Intact policy (Direct.putAll batch w).world := by
  refine h.now.onMemory ?_
  rw [Memory.insertAll_of_not_poisoned h.now.not_poisoned]
  exact h.not_poisoned

theorem remove [Std.TransOrd κ] (key : κ) : Intact policy (Direct.remove key w).world := by
  have hworld : (Direct.remove key w).world = (World.onMemory (Memory.delete key) w).world :=
    Result.world_map _ _
  rw [hworld]
  refine h.onMemory ?_
  rw [Memory.delete_of_not_poisoned h.not_poisoned]
  exact h.not_poisoned

theorem clear [Std.TransOrd κ] : Intact policy (Direct.clear w).world := by
  refine h.onMemory ?_
  rw [Memory.clearAll_of_not_poisoned h.not_poisoned]
  exact h.not_poisoned

end Intact

variable [Std.TransOrd κ]

theorem get_of_not_poisoned {w : World κ α} (h : w.memory.poisoned = false) (key : κ) :
    ∃ w', Store.get key w = .ok (w.memory.table.get? key) w' ∧ SameStore w w' ∧
      w'.clock = w.clock := by
  have hlookup := Memory.lookup_of_not_poisoned h key
  refine ⟨{ w with memory := w.memory.count fun c => { c with gets := c.gets + 1 } }, ?_, ?_, rfl⟩
  · simp only [Store.get, World.onMemory, Action.focus, hlookup, Result.mapWorld_ok]
  · exact ⟨rfl, rfl, h⟩

namespace Direct

theorem get_eq_check {w : World κ α} (h : w.memory.poisoned = false) (key : κ) :
    ∃ w', get key w = .ok (check w.policy (w.memory.table.get? key) w.clock.time) w' ∧
      SameStore w w' := by
  obtain ⟨w₁, hstore, hsame, hclock⟩ := get_of_not_poisoned h key
  obtain ⟨asked, hjudge⟩ := judge_eq_check (w.memory.table.get? key) w₁.clock.time
    (Context.now w₁).2
  have hpolicy : (Context.now w₁).2.policy = w.policy := hsame.policy_eq
  refine ⟨{ (Context.now w₁).2 with asked }, ?_, hsame.table_eq, hpolicy, hsame.not_poisoned⟩
  rw [get, hstore, Result.bind_ok]
  change Result.ok (judge _ w₁.clock.time _).1 (judge _ w₁.clock.time _).2 = _
  rw [hjudge]
  exact congrArg (Result.ok · _) (by rw [hpolicy, hclock])

theorem contains_eq_check {w : World κ α} (h : w.memory.poisoned = false) (key : κ) :
    ∃ w', contains key w =
        .ok (check w.policy (w.memory.table.get? key) w.clock.time).isSome w' ∧ SameStore w w' := by
  obtain ⟨w', hget, hsame⟩ := get_eq_check h key
  exact ⟨w', by rw [contains, hget, Result.map_ok], hsame⟩

end Direct

namespace Async

/-- Once it is completed, a read that was deferred has read. -/
theorem await_get {w : World κ α} (h : w.memory.poisoned = false) (key : κ) (called : World κ α) :
    (get key called).1.await w = Direct.get key w := by
  obtain ⟨w₁, hstore, -⟩ := get_of_not_poisoned h key
  change judgeAnswer (Store.get key w) = _
  rw [Direct.get, hstore, Result.bind_ok]
  rfl

theorem await_contains {w : World κ α} (h : w.memory.poisoned = false) (key : κ)
    (called : World κ α) : (contains key called).1.await w = Direct.contains key w := by
  rw [Direct.contains, ← await_get h key called]
  rfl

end Async

/-- What looking ahead leaves alone, the question for a live entry does. -/
theorem Direct.held_isEmpty {P : World κ α → Prop}
    (hP : LiveEntries.HeldByLooking fun s : Memory.Position κ × World κ α => P s.2)
    {w : World κ α} (hw : P w) : P (isEmpty w).world := by
  let s := (({ project := fun key _ => key } : LiveEntries κ α κ), ({} : Memory.Position κ), w)
  have hlook := LiveEntries.held_hasNext? hP (s := s) hw (LiveEntries.hasNext?_eq_some s)
  simp only [isEmpty, keys, pass, Store.entries, Result.map_ok, Result.bind_ok]
  rcases hl : LiveEntries.hasNext s with ⟨live, s'⟩ | ⟨e, s'⟩ <;> rw [hl] at hlook
  · exact hP.note (.scanned live s'.1.skipped) hlook
  · exact hlook

/-- Looking ahead leaves a clock that stands still alone. -/
theorem heldByLooking_clock {clock : Clock} (h : clock.stride = 0) :
    LiveEntries.HeldByLooking fun s : Memory.Position κ × World κ α => s.2.clock = clock where
  advance {s} hs := by
    rw [← hs]
    simp [Cursor.advance, World.atPosition, Action.focus]
  now {s} hs := by
    have hnow := World.now_of_stride (w := s.2) (hs ▸ h)
    change (Context.now s.2).2.clock = clock
    rw [hnow, hs]
  isLive _ _ hs := hs
  note _ hs := hs

/-- Looking ahead leaves the entries and the policy alone. -/
theorem heldByLooking_sameStore (w : World κ α) :
    LiveEntries.HeldByLooking fun s : Memory.Position κ × World κ α => SameStore w s.2 where
  advance {s} hs := by
    simp only [Cursor.advance, World.atPosition, Action.focus, Result.world_mapWorld,
      Memory.world_advance]
    exact hs
  now hs := ⟨hs.table_eq, hs.policy_eq, hs.not_poisoned⟩
  isLive _ _ hs := ⟨hs.table_eq, hs.policy_eq, hs.not_poisoned⟩
  note _ hs := ⟨hs.table_eq, hs.policy_eq, hs.not_poisoned⟩

end LazyExpiry
