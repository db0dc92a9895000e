import LazyExpiry.Proofs.Schedule.History

/-!
# The journal of a store

Whatever is done to one store is made of deeds : the moves of a schedule, what a paged pass asks
for, the opening of paged views, and looks at the size and the statistics (`Deed`). A system is
kept with a journal of what is completed in it (`Journaled`), which is written and never
read. `Reaches` says what can become of it by deeds and whole paged passes whose callbacks
do deeds in their turn ; what every deed keeps then holds of all of that (`Reaches.held`).

`System.Sound.change` says once what a deed can do to a sound system : the policy stays, and
the store in memory is the one before with the new lines of the journal carried out on it
(`carryOut`). So what holds of lines holds of all that is reached (`Reaches.recorded`).
-/

namespace LazyExpiry

variable {κ α β π ρ υ : Type}

/-! ## Lines -/

/-- Something that was completed on a store. -/
inductive Line (κ α : Type) where
  /-- A call that was made at that time. -/
  | completed (calledAt : Timestamp) (c : PointCall κ (Option α))
  /-- The removal of an entry through a pass. -/
  | removed (key : κ)
  /-- A page with so many entries was served. -/
  | served (entries : Nat)

section Lines

variable [Ord κ] [Std.TransOrd κ]

/-- What a completed call that was made at that time does to a store. -/
def PointCall.carry (calledAt : Timestamp) :
    PointCall κ (Option α) → Memory κ (Stamped α) → Memory κ (Stamped α)
  | get _, m => m.count fun c => { c with gets := c.gets + 1 }
  | put key value, m =>
    { m.count fun c => { c with puts := c.puts + 1 } with
      table := m.table.insert key ⟨value, calledAt⟩ }
  | putAll batch, m =>
    { m.count fun c => { c with puts := c.puts + UInt64.ofNat batch.length } with
      table := m.table.insertAll (stampAll calledAt batch) }
  | remove key, m =>
    { m.count fun c => { c with removes := c.removes + 1 } with table := m.table.erase key }
  | contains _, m => m.count fun c => { c with gets := c.gets + 1 }
  | isEmpty, m => m
  | clear, m => { m with table := .empty }

/-- What a line does to a store. -/
def Line.carry : Line κ α → Memory κ (Stamped α) → Memory κ (Stamped α)
  | completed calledAt c, m => c.carry calledAt m
  | removed key, m =>
    { m.count fun c => { c with removes := c.removes + 1 } with table := m.table.erase key }
  | served 0, m => m
  | served (_ + 1), m => m.count fun c => { c with pages := c.pages + 1 }

/-- The store after these lines. -/
def carryOut (lines : List (Line κ α)) (m : Memory κ (Stamped α)) : Memory κ (Stamped α) :=
  lines.foldl (fun m line => line.carry m) m

@[simp] theorem carryOut_nil (m : Memory κ (Stamped α)) : carryOut [] m = m := rfl

@[simp] theorem carryOut_singleton (line : Line κ α) (m : Memory κ (Stamped α)) :
    carryOut [line] m = line.carry m := rfl

theorem carryOut_append (earlier later : List (Line κ α)) (m : Memory κ (Stamped α)) :
    carryOut (earlier ++ later) m = carryOut later (carryOut earlier m) :=
  List.foldl_append

theorem Line.poisoned_carry (line : Line κ α) (m : Memory κ (Stamped α)) :
    (line.carry m).poisoned = m.poisoned := by
  match line with
  | completed _ c => cases c <;> rfl
  | removed _ | served 0 | served (_ + 1) => rfl

/-- What every line keeps, all of them keep. -/
theorem carryOut_induction {P : Memory κ (Stamped α) → Prop} {lines : List (Line κ α)}
    {m : Memory κ (Stamped α)} (hline : ∀ line ∈ lines, ∀ m, P m → P (line.carry m)) (hm : P m) :
    P (carryOut lines m) := by
  induction lines generalizing m with
  | nil => exact hm
  | cons line lines ih =>
    exact ih (fun l hl => hline l (List.mem_cons_of_mem _ hl)) (hline line List.mem_cons_self m hm)

theorem poisoned_carryOut (lines : List (Line κ α)) {m : Memory κ (Stamped α)}
    (h : m.poisoned = false) : (carryOut lines m).poisoned = false :=
  carryOut_induction (P := (·.poisoned = false))
    (fun line _ m hm => (line.poisoned_carry m).trans hm) h

end Lines

/-! ## Deeds -/

/-- A step of whatever is done to one store. -/
inductive Deed (κ α ρ : Type) [Ord κ] where
  | move (m : Move κ α ρ)
  /-- A paged pass asks for a page, from wherever its source stands. -/
  | requestPage (source : Memory.Pages κ)
  | readClock
  | judge (writtenAt now : Timestamp)
  | note (event : Event)
  /-- Calls for a paged view. -/
  | callPaged (project : κ → Option α → ρ)
  /-- Opens a paged view that was called for in some world. -/
  | openPaged (called : World κ α) (project : κ → Option α → ρ)
  | size
  | stats

/-- A system with a journal of what was completed in it, oldest first. -/
structure Journaled (κ α ρ : Type) [Ord κ] where
  system : System κ α ρ
  journal : List (Line κ α) := []

/-- What a call on a pass completes, after those calls on it : a removal that is answered
removes the key that was handed out last. -/
def PassEvent.lines (past : List (PassEvent (κ × ρ))) : PassEvent (κ × ρ) → List (Line κ α)
  | ⟨.removeCurrent, .ok _⟩ => (lastHanded past).toList.map fun item => .removed item.1
  | _ => []

variable [Ord κ]

/-- The store in memory with its clock and its policy. -/
abbrev Journaled.world (a : Journaled κ α ρ) : World κ α := a.system.scene.world

/-- What a request for a page completes. -/
def pageLines (answer : Except StoreError (Option (List (κ × Stamped α)))) : List (Line κ α) :=
  match answer with
  | .ok (some page) => [.served page.length]
  | _ => []

variable [Std.TransOrd κ]

/-- What an act completes. -/
def Act.lines (a : Act κ α ρ) (s : Scene κ α ρ) : List (Line κ α) :=
  match a with
  | direct c => [.completed s.world.clock.time c]
  | onPass handle c =>
    match s.passes handle with
    | some p =>
      PassEvent.lines p.past ⟨c, (LiveEntries.call c (p.pass, p.position, s.world)).outcome⟩
    | none => []
  | _ => []

/-- What a deed completes. -/
def Deed.lines (d : Deed κ α ρ) (st : System κ α ρ) : List (Line κ α) :=
  match d with
  | move (.act a) => a.lines st.scene
  | move (.complete ticket) =>
    match st.pending ticket with
    | some p => [.completed p.calledAt p.call]
    | none => []
  | requestPage source => pageLines (PageSource.nextPage (source, st)).outcome
  | _ => []

/-- A deed of a paged pass itself. -/
def Deed.ofPass : Deed κ α ρ → Bool
  | requestPage _ | readClock | judge _ _ | note _ => true
  | _ => false

/-- What a deed does to a system. -/
def Deed.change (d : Deed κ α ρ) (st : System κ α ρ) : System κ α ρ :=
  match d with
  | move m => (m.make st).2
  | requestPage source => (PageSource.nextPage (source, st)).world.2
  | readClock => (Context.now st).2
  | judge writtenAt now => (Context.isLive writtenAt now st).2
  | note event => Context.note event st
  | callPaged project => st.withWorld (Async.pass project st.scene.world).2
  | openPaged called project =>
    st.withWorld ((Async.pass project called).1.await st.scene.world).world
  | size => st.withWorld (World.onMemory Memory.size st.scene.world).world
  | stats => st.withWorld (World.onMemory Memory.stats st.scene.world).world

/-- Does a deed, and writes down what it completes. -/
def Deed.perform (d : Deed κ α ρ) (a : Journaled κ α ρ) : Journaled κ α ρ :=
  { system := d.change a.system, journal := a.journal ++ d.lines a.system }

/-! ## What can be reached -/

namespace Journaled

instance : Context (Journaled κ α ρ) where
  now a := ((Context.now a.system).1, Deed.readClock.perform a)
  isLive writtenAt now a :=
    ((Context.isLive writtenAt now a.system).1, (Deed.judge writtenAt now).perform a)
  note event a := (Deed.note event).perform a

instance : PageSource (Memory.Pages κ × Journaled κ α ρ) κ (Stamped α) where
  nextPage s := (PageSource.nextPage (s.1, s.2.system)).mapWorld fun p =>
    (p.1, (Deed.requestPage s.1).perform s.2)

theorem nextPage_eq (source : Memory.Pages κ) (a : Journaled κ α ρ) :
    PageSource.nextPage (source, a) = (PageSource.nextPage (source, a.system)).mapWorld
      fun p => (p.1, (Deed.requestPage source).perform a) := rfl

/-- The second system is reached from the first by such deeds, in any number and order, and by
paged passes whose callbacks, and the works that these leave, reach no further. -/
inductive Reaches (ok : Deed κ α ρ → System κ α ρ → Prop) :
    Journaled κ α ρ → Journaled κ α ρ → Prop where
  | here (a : Journaled κ α ρ) : Reaches ok a a
  | deed {a b : Journaled κ α ρ} (d : Deed κ α ρ) :
    Reaches ok a b → ok d b.system → Reaches ok a (d.perform b)
  | collectEach {a b : Journaled κ α ρ} {τ υ : Type} (rule : Nat → JoinRule)
    (it : PagedEntries (Memory.Pages κ) κ α τ) (limit : Nat)
    {callback : Nat → τ → Journaled κ α ρ → Deferred (Journaled κ α ρ) υ × Journaled κ α ρ} :
    Reaches ok a b →
    (∀ index item c, Reaches ok c (callback index item c).2) →
    (∀ index item c c', Reaches ok c' ((callback index item c).1.finish c').world) →
    Reaches ok a (it.collectEachBy rule limit callback b).world
  | deliverEach {a b : Journaled κ α ρ} {τ : Type}
    (it : PagedEntries (Memory.Pages κ) κ α τ) (limit : Nat)
    {callback : Nat → τ → Action (Journaled κ α ρ) Unit} :
    Reaches ok a b →
    (∀ index item c, Reaches ok c (callback index item c).world) →
    Reaches ok a (it.deliverEach limit callback b).world

/-- Does deeds in order. -/
def run (deeds : List (Deed κ α ρ)) (a : Journaled κ α ρ) : Journaled κ α ρ :=
  deeds.foldl (fun b d => d.perform b) a

variable {P : Journaled κ α ρ → Prop} {ok : Deed κ α ρ → System κ α ρ → Prop}

theorem Reaches.run {a b : Journaled κ α ρ} {deeds : List (Deed κ α ρ)} (h : Reaches ok a b)
    (hok : ∀ d ∈ deeds, ∀ st, ok d st) : Reaches ok a (run deeds b) := by
  induction deeds generalizing b with
  | nil => exact h
  | cons d deeds ih =>
    exact ih (h.deed d (hok d List.mem_cons_self _))
      fun d' hd' => hok d' (List.mem_cons_of_mem _ hd')

theorem heldByPaging_of_ofPass
    (h : ∀ d : Deed κ α ρ, d.ofPass = true → ∀ b, P b → P (d.perform b)) :
    HeldByPaging (π := Memory.Pages κ) P where
  nextPage {b} source hb := by
    rw [nextPage_eq, Result.world_mapWorld]
    exact h _ rfl b hb
  now hb := h .readClock rfl _ hb
  isLive writtenAt now hb := h (.judge writtenAt now) rfl _ hb
  note event hb := h (.note event) rfl _ hb

/-- What such deeds keep, and with them those of paged passes, all that is reached by them
keeps. -/
theorem Reaches.held (hpass : ∀ d st, d.ofPass = true → ok d st)
    (hdeed : ∀ d b, ok d b.system → P b → P (d.perform b)) {a b : Journaled κ α ρ}
    (h : Reaches ok a b) : P a → P b := by
  have hpaging := heldByPaging_of_ofPass fun d hd b => hdeed d b (hpass d b.system hd)
  induction h with
  | here => exact id
  | deed d _ hok ih => exact fun ha => hdeed d _ hok (ih ha)
  | collectEach rule it limit _ _ _ ih ihcall ihfinish =>
    exact fun ha => PagedEntries.held_collectFrom hpaging ihcall ihfinish limit 0 [] it.source
      (ih ha)
  | deliverEach it limit _ _ ih ihcall =>
    exact fun ha => PagedEntries.held_deliverFrom hpaging ihcall limit 0 0 it.source (ih ha)

end Journaled

/-! ## What is completed in a world -/

/-- Those lines were carried out on the store of a world, and its policy was left alone. -/
structure Carried (lines : List (Line κ α)) (w w' : World κ α) : Prop where
  memory_eq : w'.memory = carryOut lines w.memory
  policy_eq : w'.policy = w.policy

namespace Carried

variable {lines : List (Line κ α)} {w w' : World κ α}

theorem refl (w : World κ α) : Carried [] w w := ⟨rfl, rfl⟩

theorem trans {more : List (Line κ α)} {w'' : World κ α} (h : Carried lines w w')
    (h' : Carried more w' w'') : Carried (lines ++ more) w w'' where
  memory_eq := by rw [h'.memory_eq, h.memory_eq, carryOut_append]
  policy_eq := h'.policy_eq.trans h.policy_eq

theorem not_poisoned (h : Carried lines w w') (hlock : w.memory.poisoned = false) :
    w'.memory.poisoned = false := by
  rw [h.memory_eq]
  exact poisoned_carryOut lines hlock

/-- A reading of the clock comes before nothing that matters here. -/
theorem of_now (h : Carried lines (Context.now w).2 w') : Carried lines w w' :=
  ⟨h.memory_eq, h.policy_eq⟩

theorem onMemory {x : Action (Memory κ (Stamped α)) β}
    (hx : (x w.memory).world = carryOut lines w.memory) :
    Carried lines w (World.onMemory x w).world := by
  rw [World.onMemory, Action.focus, Result.world_mapWorld]
  exact ⟨hx, rfl⟩

theorem of_look {x : Action (Memory κ (Stamped α)) β} {b : β}
    (hx : x w.memory = .ok b w.memory) : Carried [] w (World.onMemory x w).world :=
  .onMemory (congrArg Result.world hx)

end Carried

/-- Looking ahead leaves the store and the policy of a world alone. -/
theorem heldByLooking_carried (w : World κ α) :
    LiveEntries.HeldByLooking fun s : Memory.Position κ × World κ α => Carried [] w s.2 where
  advance {s} hs := by
    simp only [Cursor.advance, World.atPosition, Action.focus, Result.world_mapWorld,
      Memory.world_advance]
    exact hs
  now hs := ⟨hs.memory_eq, hs.policy_eq⟩
  isLive _ _ hs := ⟨hs.memory_eq, hs.policy_eq⟩
  note _ hs := ⟨hs.memory_eq, hs.policy_eq⟩

section Completed

variable {w : World κ α} (h : w.memory.poisoned = false)

include h

theorem carried_get (key : κ) (calledAt : Timestamp) :
    Carried [.completed calledAt (.get key)] w (Direct.get key w).world := by
  have hget : Store.get key w = .ok (w.memory.table.get? key)
      { w with memory := w.memory.count fun c => { c with gets := c.gets + 1 } } := by
    simp only [Store.get, World.onMemory, Action.focus, Memory.lookup_of_not_poisoned h,
      Result.mapWorld_ok]
  rw [Direct.get, hget, Result.bind_ok, Result.world_ok]
  obtain ⟨asked, hjudge⟩ := judge_eq_check (w.memory.table.get? key) w.clock.time
    (Context.now ({ w with memory := w.memory.count fun c => { c with gets := c.gets + 1 } } :
      World κ α)).2
  exact ⟨congrArg (·.2.memory) hjudge, congrArg (·.2.policy) hjudge⟩

theorem carried_put (key : κ) (stored : Stamped α) :
    Carried [.completed stored.writtenAt (.put key stored.value)] w
      (Store.put key stored w).world :=
  .onMemory (congrArg Result.world (Memory.insert_of_not_poisoned h key stored))

theorem carried_putAll (batch : List (κ × Option α)) (calledAt : Timestamp) :
    Carried [.completed calledAt (.putAll batch)] w
      (Store.putAll (stampAll calledAt batch) w).world := by
  refine .onMemory ?_
  rw [Memory.insertAll_of_not_poisoned h, stampAll, List.length_map]
  rfl

theorem carried_delete (key : κ) (calledAt : Timestamp) :
    Carried [.completed calledAt (.remove key)] w
      (World.onMemory (Memory.delete key) w).world :=
  .onMemory (congrArg Result.world (Memory.delete_of_not_poisoned h key))

theorem carried_clear (calledAt : Timestamp) :
    Carried [.completed calledAt .clear] w (Store.clear w).world :=
  .onMemory (congrArg Result.world (Memory.clearAll_of_not_poisoned h))

/-- A direct call completes itself. -/
theorem carried_direct (c : PointCall κ (Option α)) :
    Carried [.completed w.clock.time c] w (c.direct w).world := by
  match c with
  | .get key =>
    rw [PointCall.direct, Result.world_map]
    exact carried_get h key _
  | .put key value =>
    rw [PointCall.direct, Result.world_map]
    exact .of_now (carried_put (w := (Context.now w).2) h key ⟨value, w.clock.time⟩)
  | .putAll batch =>
    rw [PointCall.direct, Result.world_map]
    exact .of_now (carried_putAll (w := (Context.now w).2) h batch w.clock.time)
  | .remove key =>
    have hdelete := Result.world_map (World.onMemory (Memory.delete key) w) fun _ => ()
    rw [PointCall.direct, Result.world_map]
    exact hdelete ▸ carried_delete h key _
  | .contains key =>
    have hget := carried_get h key w.clock.time
    rw [PointCall.direct, Result.world_map, Direct.contains, Result.world_map]
    exact ⟨hget.memory_eq, hget.policy_eq⟩
  | .isEmpty =>
    have hlook := Direct.held_isEmpty (P := Carried [] w) (heldByLooking_carried w) (.refl w)
    rw [PointCall.direct, Result.world_map]
    exact ⟨hlook.memory_eq, hlook.policy_eq⟩
  | .clear =>
    rw [PointCall.direct, Result.world_map]
    exact carried_clear h _

/-- The work that a call left completes that call, whenever it is awaited. -/
theorem carried_await (c : PointCall κ (Option α)) (called : World κ α) :
    Carried [.completed called.clock.time c] w ((c.async called).1.await w).world := by
  match c with
  | .get key =>
    have hawait := Async.await_get h key called
    change Carried _ w (((Async.get key called).1.await w).map Reply.found).world
    rw [Result.world_map, hawait]
    exact carried_get h key _
  | .put key value =>
    change Carried _ w ((Store.put key ⟨value, called.clock.time⟩ w).map fun _ => Reply.done).world
    rw [Result.world_map]
    exact carried_put h key ⟨value, called.clock.time⟩
  | .putAll batch =>
    change Carried _ w
      ((Store.putAll (stampAll called.clock.time batch) w).map fun _ => Reply.done).world
    rw [Result.world_map]
    exact carried_putAll h batch called.clock.time
  | .remove key =>
    have hremove := World.onMemory_map (Memory.delete key) (fun _ => ()) w
    change Carried _ w ((World.onMemory (fun m => (Memory.delete key m).map fun _ => ()) w).map
      fun _ => Reply.done).world
    rw [Result.world_map, hremove, Result.world_map]
    exact carried_delete h key _
  | .contains key =>
    have hawait := Async.await_contains h key called
    have hget := carried_get h key called.clock.time
    change Carried _ w (((Async.contains key called).1.await w).map Reply.flag).world
    rw [Result.world_map, hawait, Direct.contains, Result.world_map]
    exact ⟨hget.memory_eq, hget.policy_eq⟩
  | .isEmpty =>
    change Carried _ w ((World.onMemory Memory.isEmpty w).map Reply.flag).world
    rw [Result.world_map]
    exact .onMemory (congrArg Result.world (Memory.observe_of_not_poisoned h))
  | .clear =>
    change Carried _ w ((Store.clear w).map fun _ => Reply.done).world
    rw [Result.world_map]
    exact carried_clear h _

/-- A page is served if it has entries. -/
theorem carried_nextPage (source : Memory.Pages κ) :
    Carried (pageLines (World.nextPage (source, w)).outcome) w
      (World.nextPage (source, w)).world.2 := by
  have hmemory : (Memory.nextPage (source, w.memory)).world.2 =
      carryOut (pageLines (Memory.nextPage (source, w.memory)).outcome) w.memory := by
    unfold Memory.nextPage
    rw [Memory.observe_of_not_poisoned h]
    dsimp only
    split
    · rfl
    · generalize (w.memory.table.after source.last).take source.pageSize.count = page
      rcases page with - | ⟨e, rest⟩
      · rfl
      · rw [List.getLast?_cons]
        rfl
  unfold World.nextPage World.atPosition Action.focus
  rcases hn : Memory.nextPage (source, w.memory) with ⟨- | page, s⟩ | ⟨e, s⟩ <;>
    rw [hn] at hmemory <;> exact ⟨hmemory, rfl⟩

end Completed

/-- Making a call completes nothing. -/
theorem carried_async (c : PointCall κ (Option α)) (w : World κ α) :
    Carried [] w (c.async w).2 := by
  match c with
  | .get _ | .remove _ | .contains _ | .isEmpty | .clear => exact .refl w
  | .put _ _ | .putAll _ => exact ⟨rfl, rfl⟩

omit [Ord κ] [Std.TransOrd κ] in
theorem PassEvent.lines_of_ne_removeCurrent {past : List (PassEvent (κ × ρ))} {c : PassCall}
    {outcome : Except StoreError (PassAnswer (κ × ρ))} (h : c ≠ .removeCurrent) :
    (PassEvent.lines past ⟨c, outcome⟩ : List (Line κ α)) = [] := by
  match c with
  | .hasNext | .nextItem | .next | .skipped => rfl
  | .removeCurrent => exact absurd rfl h

/-- A call on a pass completes what the calls on it tell. -/
theorem carried_onPass {p : OpenPass κ α ρ} (htells : p.Tells) {w : World κ α}
    (h : w.memory.poisoned = false) (c : PassCall) {r : Result _ (PassAnswer (κ × ρ))}
    (hr : LiveEntries.call c (p.pass, p.position, w) = r) :
    Carried (PassEvent.lines p.past ⟨c, r.outcome⟩) w r.world.2.2 := by
  by_cases hc : c = .removeCurrent
  · subst hc
    by_cases hremovable : p.pass.removable = true
    · obtain ⟨item, hhanded, hposition⟩ := htells.handed hremovable
      rw [LiveEntries.call, LiveEntries.removeCurrent_of_removable hremovable, hposition,
        LiveEntries.forwardRemoval_position h, Result.map_ok] at hr
      subst hr
      simp only [PassEvent.lines, Result.outcome_ok, hhanded]
      refine ⟨?_, rfl⟩
      rw [Memory.delete_of_not_poisoned h]
      rfl
    · rw [LiveEntries.call, LiveEntries.removeCurrent_of_not_removable
        (Bool.not_eq_true _ ▸ hremovable), Result.map_error] at hr
      subst hr
      exact .refl w
  · rw [PassEvent.lines_of_ne_removeCurrent hc, ← hr]
    exact LiveEntries.held_call (heldByLooking_carried w) (s := (p.pass, p.position, w))
      (.refl w) hc

/-! ## Sound systems -/

namespace System

/-- The lock is sound, every open pass tells its key, and every work that is left is that of
its call. -/
structure Sound (st : System κ α ρ) : Prop where
  not_poisoned : st.scene.world.memory.poisoned = false
  tells : ∀ handle p, st.scene.passes handle = some p → p.Tells
  pending : ∀ ticket p, st.pending ticket = some p → ∃ called : World κ α,
    p.work = (p.call.async called).1 ∧ p.calledAt = called.clock.time

namespace Sound

variable {st : System κ α ρ}

theorem start {w : World κ α} (h : w.memory.poisoned = false) :
    Sound ({ scene := { world := w } } : System κ α ρ) :=
  ⟨h, fun _ _ h => (nomatch h), fun _ _ h => (nomatch h)⟩

/-- Another world, after lines that were carried out on its store. -/
theorem withWorld (h : Sound st) {lines : List (Line κ α)} {w : World κ α}
    (hw : Carried lines st.scene.world w) : Sound (st.withWorld w) :=
  ⟨hw.not_poisoned h.not_poisoned, h.tells, h.pending⟩

theorem update (h : Sound st) {scene : Scene κ α ρ} {ticket : Nat} {new : Option (OpenCall κ α)}
    (hlock : scene.world.memory.poisoned = false) (hpasses : scene.passes = st.scene.passes)
    (hnew : ∀ p, new = some p → ∃ called : World κ α,
      p.work = (p.call.async called).1 ∧ p.calledAt = called.clock.time) :
    Sound ({ scene, pending := Function.update st.pending ticket new } : System κ α ρ) where
  not_poisoned := hlock
  tells := hpasses ▸ h.tells
  pending other p hp := by
    rcases eq_some_of_update hp with hp | hold
    · exact hnew p hp
    · exact h.pending other p hold

theorem act (h : Sound st) (a : Act κ α ρ) :
    Carried (a.lines st.scene) st.scene.world (a.perform st.scene).2.world ∧
      Sound { st with scene := (a.perform st.scene).2 } := by
  have of_passes : ∀ {scene : Scene κ α ρ} {lines : List (Line κ α)},
      Carried lines st.scene.world scene.world →
      (∀ handle p, scene.passes handle = some p → p.Tells) →
        Carried lines st.scene.world scene.world ∧ Sound { st with scene } :=
    fun hw htells => ⟨hw, hw.not_poisoned h.not_poisoned, htells, h.pending⟩
  match a with
  | .direct c =>
    have hdirect := carried_direct h.not_poisoned c
    have hfollow := Scene.world_follow st.scene (c.effects st.scene.world.clock.time)
      (c.direct st.scene.world)
    rw [← hfollow] at hdirect
    exact of_passes hdirect (Scene.passes_follow st.scene _ _ ▸ h.tells)
  | .setClock _ | .advanceClock _ => exact of_passes ⟨rfl, rfl⟩ h.tells
  | .openPass handle project =>
    exact of_passes ⟨rfl, rfl⟩ (OpenPass.tells_update h.tells handle (OpenPass.tells_fresh project))
  | .onPass handle c =>
    rcases hp : st.scene.passes handle with - | p
    · simp only [Act.perform, Act.lines, hp]
      exact of_passes (.refl _) h.tells
    · have htells := h.tells handle p hp
      have hcall := carried_onPass htells (w := st.scene.world) h.not_poisoned c rfl
      have hafter := OpenPass.tells_update h.tells handle
        (htells.call (w := st.scene.world) c rfl)
      simp only [Act.perform, Act.lines, hp, Scene.onPass]
      exact ⟨hcall, hcall.not_poisoned h.not_poisoned, hafter, h.pending⟩

/-- A deed does to the store and the policy what its lines say, and nothing else. -/
theorem change (h : Sound st) (d : Deed κ α ρ) :
    Carried (d.lines st) st.scene.world (d.change st).scene.world ∧ Sound (d.change st) := by
  have of_world : ∀ {lines : List (Line κ α)} {w : World κ α},
      Carried lines st.scene.world w →
        Carried lines st.scene.world (st.withWorld w).scene.world ∧ Sound (st.withWorld w) :=
    fun hw => ⟨hw, h.withWorld hw⟩
  match d with
  | .move (.act a) => exact h.act a
  | .move (.call ticket c) =>
    have hasync := carried_async c st.scene.world
    refine ⟨hasync, h.update (hasync.not_poisoned h.not_poisoned) rfl ?_⟩
    rintro p ⟨⟩
    exact ⟨st.scene.world, rfl, rfl⟩
  | .move (.complete ticket) =>
    rcases hp : st.pending ticket with - | p
    · simp only [Deed.change, Deed.lines, Move.make, hp]
      exact ⟨.refl _, h⟩
    · obtain ⟨called, hwork, hcalledAt⟩ := h.pending ticket p hp
      have hawait := carried_await h.not_poisoned p.call called
      rw [← hwork, ← hcalledAt] at hawait
      simp only [Deed.change, Deed.lines, Move.make, hp]
      have hfollow := Scene.world_follow st.scene (p.call.effects p.calledAt)
        (p.work.await st.scene.world)
      rw [← hfollow] at hawait
      refine ⟨hawait, h.update (hawait.not_poisoned h.not_poisoned) (Scene.passes_follow ..) ?_⟩
      rintro p ⟨⟩
  | .move (.drop ticket) =>
    refine ⟨.refl _, h.update h.not_poisoned rfl ?_⟩
    rintro p ⟨⟩
  | .requestPage source =>
    have hpage := carried_nextPage h.not_poisoned source
    simp only [Deed.change, Deed.lines, PageSource.nextPage, Result.world_mapWorld,
      Result.outcome_mapWorld]
    exact of_world hpage
  | .readClock | .judge _ _ | .note _ | .callPaged _ => exact of_world ⟨rfl, rfl⟩
  | .openPaged called project => exact of_world ⟨rfl, rfl⟩
  | .size | .stats => exact of_world (.of_look (Memory.observe_of_not_poisoned h.not_poisoned))

end Sound

end System

namespace Journaled

/-- Whatever is reached from a sound system is sound, and its store is the one before with the
lines that were added to the journal carried out on it. -/
theorem Reaches.recorded {ok : Deed κ α ρ → System κ α ρ → Prop}
    (hpass : ∀ d st, d.ofPass = true → ok d st) {Q : Line κ α → Prop}
    (hlines : ∀ d st, ok d st → ∀ line ∈ d.lines st, Q line) {a b : Journaled κ α ρ}
    (h : Reaches ok a b) (hsound : a.system.Sound) :
    b.system.Sound ∧ ∃ lines, (∀ line ∈ lines, Q line) ∧ b.journal = a.journal ++ lines ∧
      Carried lines a.world b.world := by
  refine h.held (P := fun b => b.system.Sound ∧ ∃ lines, (∀ line ∈ lines, Q line) ∧
    b.journal = a.journal ++ lines ∧ Carried lines a.world b.world)
    hpass ?_ ⟨hsound, [], by simp, by simp, .refl _⟩
  rintro d b hok ⟨hsound, lines, hlines', hjournal, hcarried⟩
  obtain ⟨hmore, hafter⟩ := hsound.change d
  refine ⟨hafter, lines ++ d.lines b.system, ?_, ?_, hcarried.trans hmore⟩
  · exact List.forall_mem_append.mpr ⟨hlines', hlines d b.system hok⟩
  · rw [Deed.perform, hjournal, List.append_assoc]

end Journaled

end LazyExpiry
