import Mathlib.Data.List.Basic
import LazyExpiry.World

/-!
# A batch is written at one time

A batch takes one reading of the clock, when it is called for, however late it is written and
whatever the clock does. That is proved over a store in memory beside any context, and so for
every source of time ; a `World` is a special case (`World.putAll_apart`).

What the store holds after a batch is told by `WrittenAt` : under a key of the batch the last
value there, stamped with the one reading, and under every other key what it held before. If the
clock stands still, writing the pairs one by one comes to the same (`putAll_folds_puts`), by
induction on the batch.
-/

namespace LazyExpiry

variable {ω κ ν α β γ σ π : Type}

/-! ## A store beside any context -/

namespace Memory

variable [Ord κ]

/-- An operation of a store in memory beside something else. -/
def apart (x : Action (Memory κ ν) β) : Action (Memory κ ν × ω) β :=
  Action.focus Prod.fst (fun m s => (m, s.2)) x

/-- An operation on a position in a store in memory beside something else. -/
def atPosition (x : Action (γ × Memory κ ν) β) : Action (γ × Memory κ ν × ω) β :=
  Action.focus (fun s => (s.1, s.2.1)) (fun p s => (p.1, p.2, s.2.2)) x

/-- An operation of a store in memory beside something else, left to be completed. -/
def later (x : Action (Memory κ ν) β) (s : Memory κ ν × ω) :
    Deferred (Memory κ ν × ω) β × Memory κ ν × ω :=
  ({ finish := apart x }, s)

variable [Std.TransOrd κ]

instance : Store (Memory κ ν × ω) κ ν (Position κ) where
  get key := apart (lookup key)
  put key value := apart (insert key value)
  putAll batch := apart (insertAll batch)
  remove key s := (apart (delete key) s).map fun _ => ()
  contains key := apart (containsKey key)
  isEmpty := apart isEmpty
  clear := apart clearAll
  entries s := .ok {} s
  advance := atPosition advance
  removeCurrent := atPosition removeLast

instance : AsyncStore (Memory κ ν × ω) κ ν (Pages κ) where
  get key := later (lookup key)
  put key value := later (insert key value)
  putAll batch := later (insertAll batch)
  remove key := later fun m => (delete key m).map fun _ => ()
  contains key := later (containsKey key)
  isEmpty := later isEmpty
  clear := later clearAll
  entries s := ({ finish := fun s' => .ok { pageSize := s.1.pageSize } s' }, s)
  nextPage := atPosition nextPage

end Memory

/-! ## One by one -/

/-- Writes the pairs of a batch one by one, each with a reading of its own. -/
def Direct.putEach [Context σ] [Store σ κ (Stamped α) γ] : List (κ × Option α) → Action σ Unit
  | [], w => .ok () w
  | (key, value) :: batch, w => (put key value w).bind fun _ w => putEach batch w

/-- Calls for the pairs of a batch to be written one by one, and completes every call before
the next. -/
def Async.putEach [Context σ] [AsyncStore σ κ (Stamped α) π] :
    List (κ × Option α) → Action σ Unit
  | [], w => .ok () w
  | (key, value) :: batch, w =>
    let called := put key value w
    (called.1.await called.2).bind fun _ w => putEach batch w

section Readings

variable [Context ω]

/-- A context after so many readings of its clock. -/
def afterReadings : Nat → ω → ω
  | 0, c => c
  | n + 1, c => afterReadings n (Context.now c).2

/-- The clock stands still : every reading from here on answers `t`. -/
def StandsStillAt (t : Timestamp) (c : ω) : Prop := ∀ n, (Context.now (afterReadings n c)).1 = t

theorem StandsStillAt.now_eq {t : Timestamp} {c : ω} (h : StandsStillAt t c) :
    (Context.now c).1 = t := h 0

theorem StandsStillAt.next {t : Timestamp} {c : ω} (h : StandsStillAt t c) :
    StandsStillAt t (Context.now c).2 := fun n => h (n + 1)

end Readings

/-- In a world a clock without a stride stands still. -/
theorem World.standsStillAt [Ord κ] {w : World κ α} (h : w.clock.stride = 0) :
    StandsStillAt w.clock.time w := by
  intro n
  induction n with
  | zero => rfl
  | succ n ih =>
    rw [afterReadings, World.now_of_stride h]
    exact ih

/-! ## What a batch leaves -/

section Written

variable [Ord κ] [Std.TransOrd κ] {m : Memory κ (Stamped α)} {t : Timestamp}

/-- A store after a batch under one time. -/
def Memory.written (t : Timestamp) (batch : List (κ × Option α)) (m : Memory κ (Stamped α)) :
    Memory κ (Stamped α) :=
  { m.count fun c => { c with puts := c.puts + UInt64.ofNat batch.length } with
    table := m.table.insertAll (stampAll t batch) }

theorem Memory.written_nil (t : Timestamp) (m : Memory κ (Stamped α)) : m.written t [] = m := by
  simp [written, count, stampAll]

/-- The first pair of a batch is written before the others. -/
theorem Memory.written_cons (t : Timestamp) (e : κ × Option α) (batch : List (κ × Option α))
    (m : Memory κ (Stamped α)) : m.written t (e :: batch) = (m.written t [e]).written t batch := by
  simp only [written, count, stampAll, List.map_cons, List.map_nil, Table.insertAll_cons,
    Table.insertAll_nil, List.length_cons, List.length_nil, Memory.mk.injEq, Counters.mk.injEq,
    true_and, and_true]
  rw [UInt64.add_assoc, ← UInt64.ofNat_add, Nat.add_comm batch.length, Nat.zero_add]

/-- The second store is the first after a batch under one time : the last value under a key
counts, whatever time was there, other keys stay, and every pair counts as a write. -/
structure WrittenAt (t : Timestamp) (batch : List (κ × Option α))
    (m m' : Memory κ (Stamped α)) : Prop where
  last_wins : ∀ before key value after, batch = before ++ (key, value) :: after →
    key ∉ after.map Prod.fst → m'.table.get? key = some ⟨value, t⟩
  others_stay : ∀ key, key ∉ batch.map Prod.fst → m'.table.get? key = m.table.get? key
  counters_eq : m'.counters =
    { m.counters with puts := m.counters.puts + UInt64.ofNat batch.length }
  pageSize_eq : m'.pageSize = m.pageSize
  poisoned_eq : m'.poisoned = m.poisoned

theorem writtenAt_written [Std.LawfulEqOrd κ] (t : Timestamp) (batch : List (κ × Option α))
    (m : Memory κ (Stamped α)) : WrittenAt t batch m (m.written t batch) where
  last_wins before key value after hbatch hafter := by
    rw [← map_fst_stampAll t after] at hafter
    have hstamped : stampAll t batch =
        stampAll t before ++ (key, ⟨value, t⟩) :: stampAll t after := by
      rw [hbatch, stampAll, List.map_append, List.map_cons]
      rfl
    rw [Memory.written, hstamped]
    exact Table.get?_insertAll_last _ key _ hafter m.table
  others_stay key hkey := by
    rw [← map_fst_stampAll t batch] at hkey
    exact Table.get?_insertAll_of_not_mem hkey m.table
  counters_eq := rfl
  pageSize_eq := rfl
  poisoned_eq := rfl

end Written

/-! ## Batches beside a context -/

section Apart

variable [Ord κ] [Std.TransOrd κ] [Context ω] {m : Memory κ (Stamped α)}

theorem Direct.put_apart (hlock : m.poisoned = false) (key : κ) (value : Option α) (c : ω) :
    put key value (m, c) =
      .ok () (m.written (Context.now c).1 [(key, value)], (Context.now c).2) := by
  change Memory.apart (Memory.insert key ⟨value, (Context.now c).1⟩) (m, (Context.now c).2) = _
  rw [Memory.apart, Action.focus, Memory.insert_of_not_poisoned hlock]
  rfl

theorem Direct.putAll_apart (hlock : m.poisoned = false) (batch : List (κ × Option α)) (c : ω) :
    putAll batch (m, c) = .ok () (m.written (Context.now c).1 batch, (Context.now c).2) := by
  change Memory.apart (Memory.insertAll (stampAll (Context.now c).1 batch))
    (m, (Context.now c).2) = _
  rw [Memory.apart, Action.focus, Memory.insertAll_of_not_poisoned hlock, stampAll,
    List.length_map]
  rfl

/-- The work that a batch left writes it under the time of the call, and reads no clock. -/
theorem Async.await_putAll_apart (hlock : m.poisoned = false) (batch : List (κ × Option α))
    (s : Memory κ (Stamped α) × ω) (later : ω) : (putAll batch s).1.await (m, later) =
      .ok () (m.written (Context.now s.2).1 batch, later) := by
  change Memory.apart (Memory.insertAll (stampAll (Context.now s.2).1 batch)) (m, later) = _
  rw [Memory.apart, Action.focus, Memory.insertAll_of_not_poisoned hlock, stampAll,
    List.length_map]
  rfl

/-- By a clock that stands still, pairs that are written one by one come to the batch. -/
theorem Direct.putEach_apart {t : Timestamp} {batch : List (κ × Option α)} {c : ω}
    (hlock : m.poisoned = false) (ht : StandsStillAt t c) :
    putEach batch (m, c) = .ok () (m.written t batch, afterReadings batch.length c) := by
  induction batch generalizing m c with
  | nil => rw [putEach, Memory.written_nil, List.length_nil, afterReadings]
  | cons e batch ih =>
    have hwritten : (m.written t [e]).poisoned = false := hlock
    rw [putEach, put_apart hlock, Result.bind_ok, ht.now_eq, ih hwritten ht.next,
      ← Memory.written_cons t e, List.length_cons, afterReadings]

/-- The same of pairs whose writing is called for and completed one by one. -/
theorem Async.putEach_eq_direct (batch : List (κ × Option α)) (s : Memory κ (Stamped α) × ω) :
    putEach batch s = Direct.putEach batch s := by
  induction batch generalizing s with
  | nil => rfl
  | cons e batch ih =>
    rw [putEach, Direct.putEach]
    simp only [ih]
    rfl

end Apart

namespace World

variable [Ord κ] [Std.TransOrd κ]

/-- A world with that store in the place of its own. -/
def ofApart (s : Memory κ (Stamped α) × World κ α) : World κ α := { s.2 with memory := s.1 }

omit [Std.TransOrd κ] in
theorem onMemory_apart (x : Action (Memory κ (Stamped α)) β)
    (s : Memory κ (Stamped α) × World κ α) :
    (Memory.apart x s).mapWorld ofApart = onMemory x (ofApart s) := by
  change Result.mapWorld ofApart (Result.mapWorld _ (x s.1)) = Result.mapWorld _ (x s.1)
  rcases x s.1 with ⟨b, m⟩ | ⟨e, m⟩ <;> rfl

/-- A batch in a world is one in its store, beside the world. -/
theorem putAll_apart (batch : List (κ × Option α)) (w : World κ α) :
    (Direct.putAll batch (w.memory, w)).mapWorld ofApart = Direct.putAll batch w :=
  onMemory_apart (Memory.insertAll (stampAll w.clock.time batch)) (w.memory, (Context.now w).2)

end World

/-- Whatever the clock does, a batch reads it once, at the call, and the store then holds the
last value under each of its keys with that one time, written at once or later. By a clock
that stands still this is what writing its pairs one by one comes to. -/
theorem putAll_folds_puts [Ord κ] [Std.TransOrd κ] [Std.LawfulEqOrd κ] [Context ω]
    {m : Memory κ (Stamped α)} (hlock : m.poisoned = false) (batch : List (κ × Option α))
    (called : ω) :
    ∃ m', WrittenAt (Context.now called).1 batch m m' ∧
      Direct.putAll batch (m, called) = .ok () (m', (Context.now called).2) ∧
      (∀ m₀ : Memory κ (Stamped α),
        (Async.putAll batch (m₀, called)).2 = (m₀, (Context.now called).2) ∧
        ∀ later : ω, (Async.putAll batch (m₀, called)).1.await (m, later) = .ok () (m', later)) ∧
      ∀ still : ω, StandsStillAt (Context.now called).1 still →
        Direct.putEach batch (m, still) = .ok () (m', afterReadings batch.length still) ∧
        Async.putEach batch (m, still) = .ok () (m', afterReadings batch.length still) := by
  refine ⟨m.written (Context.now called).1 batch, writtenAt_written _ batch m,
    Direct.putAll_apart hlock batch called, fun m₀ => ⟨rfl, ?_⟩, fun still ht => ?_⟩
  · exact Async.await_putAll_apart hlock batch (m₀, called)
  · rw [Async.putEach_eq_direct]
    exact ⟨Direct.putEach_apart hlock ht, Direct.putEach_apart hlock ht⟩

/-- A clock that moves whenever it is read. -/
def restless : World Nat Nat := { clock := { time := 9, stride := 7 }, policy := .never }

/-- A store with a value from a later time. -/
def datedAhead : Memory Nat (Stamped Nat) where
  table := ⟨[(1, ⟨some 6, 100⟩), (4, ⟨none, 3⟩)], by decide⟩
  counters := { puts := 2 }

/-- The last of two values replaces the later one, under the one time that was read. -/
theorem putAll_folds_puts_restless : ∃ m' : Memory Nat (Stamped Nat),
    Direct.putAll [(1, some 7), (2, none), (1, some 8)] (datedAhead, restless) =
        .ok () (m', { restless with clock := { time := 16, stride := 7 } }) ∧
      m'.table.get? 1 = some ⟨some 8, 9⟩ ∧ m'.table.get? 2 = some ⟨none, 9⟩ ∧
      m'.table.get? 4 = some ⟨none, 3⟩ ∧ m'.counters.puts = 5 ∧
      (Async.putAll [(1, some 7), (2, none), (1, some 8)] (datedAhead, restless)).1.await
          (datedAhead, { restless with clock := { time := 2 } }) =
        .ok () (m', { restless with clock := { time := 2 } }) ∧
      Direct.putEach [(1, some 7), (2, none), (1, some 8)]
          (datedAhead, { restless with clock := { time := 9 } }) =
        .ok () (m', { restless with clock := { time := 9 } }) := by
  obtain ⟨m', hwritten, hdirect, hlater, heach⟩ := putAll_folds_puts (m := datedAhead) rfl
    [(1, some 7), (2, none), (1, some 8)] restless
  refine ⟨m', hdirect, hwritten.last_wins [(1, some 7), (2, none)] 1 (some 8) [] rfl (by simp),
    hwritten.last_wins [(1, some 7)] 2 none [(1, some 8)] rfl (by simp),
    hwritten.others_stay 4 (by simp), ?_, (hlater datedAhead).2 _, ?_⟩
  · rw [hwritten.counters_eq]
    rfl
  · exact (heach _ (World.standsStillAt (w := { restless with clock := { time := 9 } }) rfl)).1

end LazyExpiry
