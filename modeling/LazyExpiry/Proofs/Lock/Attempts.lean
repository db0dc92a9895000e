import LazyExpiry.PointCall
import LazyExpiry.Session.Perform

/-!
# Attempts behind a broken lock

Behind a broken lock whatever needs the table fails. The counters are raised before the lock is
taken, so the attempt is counted all the same (`Attempts`), but for the pages, which are counted
when they are served. Nothing else becomes of the store.

This is said once of the store in memory (`Memory.Refuses`) and passed on, through the world
around it and the watch over that, to the desk of a session : `Desk.Tried` relates a desk to the
one after some attempts, and `Desk.Refused` says that a result is such a failure. A watch without
faults and scripts (`Desk.Idle`) only forwards.
-/

namespace LazyExpiry

variable {κ ν α β δ : Type}

/-! ## Attempts -/

/-- Attempts on a store, by what counts them. -/
structure Attempts where
  gets : Nat := 0
  puts : Nat := 0
  removes : Nat := 0

namespace Attempts

instance : Add Attempts where
  add a b := ⟨a.gets + b.gets, a.puts + b.puts, a.removes + b.removes⟩

theorem add_eq (a b : Attempts) :
    a + b = ⟨a.gets + b.gets, a.puts + b.puts, a.removes + b.removes⟩ := rfl

@[simp] theorem none_add (a : Attempts) : {} + a = a := by
  simp [add_eq]

@[simp] theorem add_none (a : Attempts) : a + {} = a := by
  simp [add_eq]

end Attempts

/-- The counters after some attempts. Pages are not counted. -/
def Counters.tried (a : Attempts) (c : Counters) : Counters where
  gets := c.gets + UInt64.ofNat a.gets
  puts := c.puts + UInt64.ofNat a.puts
  removes := c.removes + UInt64.ofNat a.removes
  pages := c.pages

@[simp] theorem Counters.tried_none (c : Counters) : c.tried {} = c := by
  simp [tried]

theorem Counters.tried_tried (a b : Attempts) (c : Counters) :
    (c.tried a).tried b = c.tried (a + b) := by
  simp only [tried, Attempts.add_eq, UInt64.ofNat_add, UInt64.add_assoc]

/-! ## The store in memory -/

section Stores

variable [Ord κ]

namespace Memory

/-- The store after some attempts. -/
def tried (a : Attempts) (m : Memory κ ν) : Memory κ ν := m.count (·.tried a)

@[simp] theorem tried_none (m : Memory κ ν) : m.tried {} = m := by
  simp [tried, count]

/-- Behind a broken lock the action fails, and counts so many attempts. -/
def Refuses (a : Attempts) (x : Action (Memory κ ν) β) : Prop :=
  ∀ m, m.poisoned = true → x m = .error lockPoisoned (m.tried a)

theorem refuses_map {a : Attempts} {x : Action (Memory κ ν) β} (hx : Refuses a x) (f : β → δ) :
    Refuses a fun m => (x m).map f := fun m h => congrArg (Result.map f) (hx m h)

theorem refuses_locked (x : Table κ ν → β × Table κ ν) : Refuses {} (locked x) := fun m h => by
  rw [locked_of_poisoned h, tried_none]

theorem refuses_observe (x : Table κ ν → β) : Refuses {} (observe x) := refuses_locked _

/-- The counters are raised before the lock is taken. -/
theorem refuses_counted {a : Attempts} {f : Counters → Counters} (hf : ∀ c, f c = c.tried a)
    (x : Table κ ν → β × Table κ ν) : Refuses a fun m => locked x (m.count f) := fun m h => by
  have hcount : m.count f = m.tried a := congrArg (fun c => { m with counters := c }) (hf _)
  exact hcount ▸ locked_of_poisoned h

theorem refuses_lookup (key : κ) : Refuses { gets := 1 } (lookup key : Action (Memory κ ν) _) :=
  refuses_counted (a := { gets := 1 }) (f := fun c => { c with gets := c.gets + 1 })
    (by simp [Counters.tried]) fun t => (t.get? key, t)

theorem refuses_delete (key : κ) : Refuses { removes := 1 } (delete key : Action (Memory κ ν) _) :=
  refuses_counted (by simp [Counters.tried]) _

theorem refuses_stats : Refuses {} (stats : Action (Memory κ ν) Stats) :=
  fun m h => refuses_observe _ m h

theorem refuses_poison : Refuses { puts := 2 } (poison : Action (Memory κ ν) Unit) := fun m h => by
  rw [poison, if_pos h]
  simp [tried, count, Counters.tried]

variable [Std.TransOrd κ]

theorem refuses_insert (key : κ) (value : ν) : Refuses { puts := 1 } (insert key value) :=
  refuses_counted (by simp [Counters.tried]) _

theorem refuses_insertAll (batch : List (κ × ν)) :
    Refuses { puts := batch.length } (insertAll batch) :=
  refuses_counted (by simp [Counters.tried]) _

end Memory

/-- How a removal at a cursor fails. Without a key there is nothing to remove. -/
def Memory.Position.failure (position : Memory.Position κ) : StoreError :=
  match position.last with
  | some _ => Memory.lockPoisoned
  | none => .invalidIteratorState

/-- What a removal at a cursor tries. -/
def Memory.Position.attempts (position : Memory.Position κ) : Attempts :=
  match position.last with
  | some _ => { removes := 1 }
  | none => {}

/-! ## The world around it -/

namespace World

/-- The world after some attempts on its store. -/
def tried (a : Attempts) (w : World κ α) : World κ α := { w with memory := w.memory.tried a }

/-- Behind a broken lock the action fails, and counts so many attempts. -/
def Refuses (a : Attempts) (x : Action (World κ α) β) : Prop :=
  ∀ w, w.memory.poisoned = true → x w = .error Memory.lockPoisoned (w.tried a)

theorem refuses_onMemory {a : Attempts} {x : Action (Memory κ (Stamped α)) β}
    (hx : Memory.Refuses a x) : Refuses a (onMemory x) := fun w h => by
  rw [onMemory, Action.focus, hx _ h]
  rfl

theorem refuses_map {a : Attempts} {x : Action (World κ α) β} (hx : Refuses a x) (f : β → δ) :
    Refuses a fun w => (x w).map f := fun w h => congrArg (Result.map f) (hx w h)

/-- A call that changes nothing, and leaves work that fails behind a broken lock. -/
def LeavesRefused (a : Attempts) (x : World κ α → Deferred (World κ α) β × World κ α) : Prop :=
  ∀ w, Refuses a (x w).1.finish ∧ (x w).2 = w

theorem leavesRefused_later {a : Attempts} {x : Action (Memory κ (Stamped α)) β}
    (hx : Memory.Refuses a x) : LeavesRefused a (later x) := fun _ => ⟨refuses_onMemory hx, rfl⟩

theorem LeavesRefused.replying {a : Attempts}
    {x : World κ α → Deferred (World κ α) β × World κ α} (hx : LeavesRefused a x)
    (f : β → Reply ν) : LeavesRefused a fun w => PointCall.replying f (x w) :=
  fun w => ⟨refuses_map (hx w).1 f, (hx w).2⟩

/-- A cursor stays where it is. -/
theorem advance_of_poisoned {w : World κ α} (h : w.memory.poisoned = true)
    (position : Memory.Position κ) : atPosition Memory.advance (position, w) =
      .error Memory.lockPoisoned (position, w) := by
  simp only [atPosition, Action.focus, Memory.advance, Memory.observe_of_poisoned h,
    Result.mapWorld_error]

/-- A removal at a cursor fails as its position tells. -/
theorem removeLast_of_poisoned {w : World κ α} (h : w.memory.poisoned = true)
    (position : Memory.Position κ) : atPosition Memory.removeLast (position, w) =
      .error position.failure (position, w.tried position.attempts) := by
  obtain ⟨- | key⟩ := position
  · simp only [Memory.Position.attempts, tried, Memory.tried_none]
    rfl
  · simp only [atPosition, Action.focus, Memory.removeLast, Memory.refuses_delete key _ h,
      Result.map_error, Result.mapWorld_error]
    rfl

/-- A source that takes itself for drained does not look at the store. -/
theorem nextPage_of_drained (w : World κ α) {source : Memory.Pages κ}
    (h : source.drained = true) : nextPage (source, w) = .ok none (source, w) := by
  simp only [nextPage, atPosition, Action.focus, Memory.nextPage, h, if_true, Result.mapWorld_ok]

/-- Any other source stays where it is. -/
theorem nextPage_of_poisoned {w : World κ α} (h : w.memory.poisoned = true)
    {source : Memory.Pages κ} (hsource : source.drained = false) :
    nextPage (source, w) = .error Memory.lockPoisoned (source, w) := by
  simp only [nextPage, atPosition, Action.focus, Memory.nextPage, hsource, Bool.false_eq_true,
    if_false, Memory.observe_of_poisoned h, Result.mapWorld_error]

end World

end Stores

/-! ## The desk -/

/-- The watch has no plan and no script, so that it only forwards. -/
structure Desk.Idle [Ord κ] (d : Desk κ α) : Prop where
  faults : d.faults = []
  cursorScript : d.cursorScript = none
  pageScript : d.pageScript = none

/-- The lock is broken, and the watch only forwards. -/
structure Desk.Broken [Ord κ] (d : Desk κ α) : Prop extends Desk.Idle d where
  poisoned : d.world.memory.poisoned = true

/-- The second is the first after some attempts. -/
structure Desk.Tried [Ord κ] (a : Attempts) (d d' : Desk κ α) : Prop where
  table_eq : d'.world.memory.table = d.world.memory.table
  counters_eq : d'.world.memory.counters = d.world.memory.counters.tried a
  poisoned_eq : d'.world.memory.poisoned = d.world.memory.poisoned
  idle : d.Idle → d'.Idle

/-- The result is the failure of all that needs the table, after some attempts. -/
structure Desk.Refused [Ord κ] (a : Attempts) (d : Desk κ α) (r : Result (Desk κ α) β) : Prop where
  outcome_eq : r.outcome = .error Memory.lockPoisoned
  tried : d.Tried a r.world

/-- Behind a broken lock the action fails, and counts so many attempts. -/
def Desk.Refuses [Ord κ] (a : Attempts) (x : Action (Desk κ α) β) : Prop :=
  ∀ d, d.Broken → Desk.Refused a d (x d)

namespace Desk

variable [Ord κ] {d d' d'' : Desk κ α} {a b : Attempts} {r : Result (Desk κ α) β}

theorem Tried.trans (h : d.Tried a d') (h' : d'.Tried b d'') : d.Tried (a + b) d'' where
  table_eq := h'.table_eq.trans h.table_eq
  counters_eq := by rw [h'.counters_eq, h.counters_eq, Counters.tried_tried]
  poisoned_eq := h'.poisoned_eq.trans h.poisoned_eq
  idle hd := h'.idle (h.idle hd)

theorem Tried.broken (h : d.Tried a d') (hd : d.Broken) : d'.Broken where
  toIdle := h.idle hd.toIdle
  poisoned := h.poisoned_eq.trans hd.poisoned

/-- Nothing was tried if the counters are as before. -/
theorem tried_none (htable : d'.world.memory.table = d.world.memory.table)
    (hcounters : d'.world.memory.counters = d.world.memory.counters)
    (hpoisoned : d'.world.memory.poisoned = d.world.memory.poisoned) (hidle : d.Idle → d'.Idle) :
    d.Tried {} d' where
  table_eq := htable
  counters_eq := by rw [hcounters, Counters.tried_none]
  poisoned_eq := hpoisoned
  idle := hidle

theorem Tried.refl (d : Desk κ α) : d.Tried {} d := tried_none rfl rfl rfl id

theorem Tried.before (h : d.Tried {} d') (h' : d'.Tried a d'') : d.Tried a d'' := by
  have htried := h.trans h'
  rwa [Attempts.none_add] at htried

theorem Tried.after (h : d.Tried a d') (h' : d'.Tried {} d'') : d.Tried a d'' := by
  have htried := h.trans h'
  rwa [Attempts.add_none] at htried

theorem Idle.withWorld (h : d.Idle) (w : World κ α) : Idle (d.withWorld w) :=
  ⟨h.faults, h.cursorScript, h.pageScript⟩

theorem tried_withWorld (a : Attempts) (d : Desk κ α) : d.Tried a (d.withWorld (d.world.tried a)) :=
  ⟨rfl, rfl, rfl, fun h => h.withWorld _⟩

/-- A change beside the store tries nothing. -/
theorem tried_of_memory_eq {w : World κ α} (h : w.memory = d.world.memory) :
    d.Tried {} (d.withWorld w) :=
  tried_none (congrArg Memory.table h) (congrArg Memory.counters h) (congrArg Memory.poisoned h)
    fun h => h.withWorld w

theorem tried_write (d : Desk κ α) (mark : Mark κ (Remark κ α)) : d.Tried {} (d.write mark) :=
  tried_none rfl rfl rfl fun h => ⟨h.faults, h.cursorScript, h.pageScript⟩

theorem tried_now (d : Desk κ α) : d.Tried {} (Context.now d).2 := tried_of_memory_eq rfl

theorem tried_note (event : Event) (d : Desk κ α) : d.Tried {} (Context.note event d) :=
  tried_of_memory_eq rfl

theorem tried_judge (stored : Option (Stamped α)) (now : Timestamp) (d : Desk κ α) :
    d.Tried {} (judge stored now d).2 := by
  unfold judge
  split
  · exact .refl d
  · exact .refl d
  · exact tried_of_memory_eq rfl

/-- An idle watch writes a call down and lets it through. -/
theorem Idle.call_eq (h : d.Idle) (c : Call) : d.call c = (none, d.write (.call c)) := by
  have hfaults := h.faults
  obtain ⟨world, trace, faults, cursorScript, pageScript⟩ := d
  subst hfaults
  rfl

namespace Refused

theorem before (h : d.Tried {} d') (hr : Refused a d' r) : Refused a d r :=
  ⟨hr.outcome_eq, h.before hr.tried⟩

theorem map (hr : Refused a d r) (f : β → δ) : Refused a d (r.map f) := by
  refine ⟨?_, ?_⟩
  · rw [Result.outcome_map, hr.outcome_eq]
    rfl
  · rw [Result.world_map]
    exact hr.tried

theorem bind (hr : Refused a d r) (f : β → Action (Desk κ α) δ) : Refused a d (r.bind f) := by
  obtain ⟨houtcome, htried⟩ := hr
  rcases r with ⟨answer, d'⟩ | ⟨e, d'⟩
  · cases houtcome
  · exact ⟨congrArg Except.error (Except.error.inj houtcome), htried⟩

end Refused

/-- What the world refuses, is refused past the watch. -/
theorem refuses_unwatched {x : Action (World κ α) β} (hx : World.Refuses a x) :
    Refuses a (Watched.unwatched x : Action (Desk κ α) β) := fun d hd => by
  rw [Watched.unwatched, Action.focus, hx _ hd.poisoned]
  exact ⟨rfl, tried_withWorld a d⟩

/-- What the world refuses, is refused under the watch. -/
theorem refuses_forward (c : Call) {x : Action (World κ α) β} (hx : World.Refuses a x) :
    Refuses a (Watched.forward c x : Action (Desk κ α) β) := fun d hd => by
  have hwrite := tried_write d (.call c)
  have hforward : Watched.forward c x d = Watched.unwatched x (d.write (.call c)) := by
    rw [Watched.forward, hd.toIdle.call_eq]
  rw [hforward]
  exact .before hwrite (refuses_unwatched hx _ (hwrite.broken hd))

/-! ## Work that was left -/

/-- Making the call tries nothing, and the work that it leaves is refused whenever it is
completed. -/
structure LeavesRefused (a : Attempts) (d : Desk κ α)
    (called : Deferred (Desk κ α) β × Desk κ α) : Prop where
  finish : Refuses a called.1.finish
  tried : d.Tried {} called.2

namespace LeavesRefused

variable {called : Deferred (Desk κ α) β × Desk κ α}

theorem before (h : d.Tried {} d') (hc : LeavesRefused a d' called) : LeavesRefused a d called :=
  ⟨hc.finish, h.before hc.tried⟩

theorem map (hc : LeavesRefused a d called) (f : β → δ) :
    LeavesRefused a d (called.1.map f, called.2) :=
  ⟨fun d' hd' => (hc.finish d' hd').map f, hc.tried⟩

theorem await (hc : LeavesRefused a d called) (hd : d.Broken) :
    Refused a d (called.1.await called.2) :=
  .before hc.tried (hc.finish _ (hc.tried.broken hd))

end LeavesRefused

theorem leavesRefused_unwatchedLater {x : World κ α → Deferred (World κ α) β × World κ α}
    (hx : World.LeavesRefused a x) (d : Desk κ α) :
    LeavesRefused a d (Watched.unwatchedLater x d) where
  finish := refuses_unwatched (hx d.world).1
  tried := by
    rw [Watched.unwatchedLater, (hx d.world).2]
    exact .refl d

theorem leavesRefused_forwardLater (c : Call)
    {x : World κ α → Deferred (World κ α) β × World κ α} (hx : World.LeavesRefused a x)
    (hd : d.Idle) : LeavesRefused a d (Watched.forwardLater c x d) := by
  rw [Watched.forwardLater, hd.call_eq]
  exact .before (tried_write d _) (leavesRefused_unwatchedLater hx _)

end Desk

end LazyExpiry
