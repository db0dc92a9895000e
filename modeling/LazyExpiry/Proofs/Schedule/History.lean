import LazyExpiry.Proofs.Pass.Window
import LazyExpiry.Proofs.Point.Reads
import LazyExpiry.Proofs.Schedule.Activity

/-!
# Reads tell the history of writes

What a read of a key shows is told by the history of a scene, the policy and the time
alone (`shown`) : it goes by the last effect on that key, however long ago that was and
whatever was read, scanned or found expired since.

The invariant is `Recorded` : what the table holds under a key is what the last effect on
the key left there. For a call it is a fact about the call alone (`Did`), and so it is for
the work that a call left. For a removal through a pass it needs that the cursor has not
moved off the entry behind the last item, which is the invariant of the removal window.
-/

namespace LazyExpiry

variable {κ α β ρ υ : Type}

/-! ## The last effect on a key -/

section Spec

variable [DecidableEq κ]

/-- Whether an effect is one on a key. -/
def Effect.touches (key : κ) : Effect κ α → Bool
  | wrote k _ => k = key
  | removed k => k = key
  | cleared => true

/-- The last effect on a key. -/
def lastEffect? (history : List (Effect κ α)) (key : κ) : Option (Effect κ α) :=
  history.reverse.find? (Effect.touches key)

/-- What a read of a key shows after that history. -/
def shown (policy : Policy) (history : List (Effect κ α)) (now : Timestamp) (key : κ) :
    Option (Option α) :=
  match lastEffect? history key with
  | none => none
  | some (.removed _) => none
  | some .cleared => none
  | some (.wrote _ ⟨none, _⟩) => some none
  | some (.wrote _ ⟨some v, writtenAt⟩) => if policy writtenAt now then some (some v) else none

/-- What an effect leaves under the keys that it touches. -/
def Effect.left : Effect κ α → Option (Stamped α)
  | wrote _ stored => some stored
  | removed _ => none
  | cleared => none

/-- What is stored under a key after those effects, if that was stored before. -/
def storedAfter (effects : List (Effect κ α)) (before : Option (Stamped α)) (key : κ) :
    Option (Stamped α) :=
  match lastEffect? effects key with
  | some e => e.left
  | none => before

theorem shown_eq_check (policy : Policy) (history : List (Effect κ α)) (now : Timestamp) (key : κ) :
    shown policy history now key = check policy (storedAfter history none key) now := by
  unfold shown storedAfter
  rcases lastEffect? history key with - | ⟨_, ⟨- | v, writtenAt⟩⟩ | _ | _ <;> rfl

theorem lastEffect?_append (earlier later : List (Effect κ α)) (key : κ) :
    lastEffect? (earlier ++ later) key = (lastEffect? later key).or (lastEffect? earlier key) := by
  rw [lastEffect?, List.reverse_append, List.find?_append, lastEffect?, lastEffect?]

theorem storedAfter_append (earlier later : List (Effect κ α)) (before : Option (Stamped α))
    (key : κ) : storedAfter (earlier ++ later) before key =
      storedAfter later (storedAfter earlier before key) key := by
  simp only [storedAfter, lastEffect?_append]
  rcases lastEffect? later key with - | e <;> rfl

@[simp] theorem storedAfter_nil (before : Option (Stamped α)) (key : κ) :
    storedAfter [] before key = before := rfl

theorem storedAfter_wrote (k : κ) (stored : Stamped α) (before : Option (Stamped α)) (key : κ) :
    storedAfter [.wrote k stored] before key = if key = k then some stored else before := by
  by_cases h : key = k
  · subst h
    simp [storedAfter, lastEffect?, Effect.touches, Effect.left]
  · simp [storedAfter, lastEffect?, Effect.touches, h, Ne.symm h]

theorem storedAfter_removed (k : κ) (before : Option (Stamped α)) (key : κ) :
    storedAfter [.removed k] before key = if key = k then none else before := by
  by_cases h : key = k
  · subst h
    simp [storedAfter, lastEffect?, Effect.touches, Effect.left]
  · simp [storedAfter, lastEffect?, Effect.touches, h, Ne.symm h]

/-- A batch leaves the last of its entries for a key. -/
theorem storedAfter_batch (batch : List (κ × Stamped α)) (before : Option (Stamped α)) (key : κ) :
    storedAfter (batch.map fun e => .wrote e.1 e.2) before key =
      ((batch.reverse.find? fun e => e.1 = key).map Prod.snd).or before := by
  have hlast : lastEffect? (batch.map fun e => .wrote e.1 e.2) key =
      (batch.reverse.find? fun e => e.1 = key).map fun e => Effect.wrote e.1 e.2 := by
    rw [lastEffect?, ← List.map_reverse, List.find?_map]
    rfl
  rw [storedAfter, hlast]
  generalize batch.reverse.find? (fun e => e.1 = key) = found
  rcases found with - | e <;> rfl

end Spec

theorem effects_putAll (calledAt : Timestamp) (batch : List (κ × Option α)) :
    (PointCall.putAll batch).effects calledAt =
      (stampAll calledAt batch).map fun e => Effect.wrote e.1 e.2 := by
  rw [PointCall.effects, stampAll, List.map_map]
  rfl

/-! ## What a call does to the table -/

section Calls

variable [Ord κ] [DecidableEq κ]

/-- An operation had those effects on what the store holds, and left the policy and the
lock alone. -/
structure Did (effects : List (Effect κ α)) (w : World κ α) (r : Result (World κ α) β) : Prop where
  succeeds : effects ≠ [] → ∃ b w', r = .ok b w'
  policy_eq : r.world.policy = w.policy
  not_poisoned : r.world.memory.poisoned = false
  get?_eq : ∀ key, r.world.memory.table.get? key =
    storedAfter effects (w.memory.table.get? key) key

namespace Did

variable {effects : List (Effect κ α)} {w : World κ α} {r : Result (World κ α) β}

theorem map {γ : Type} (h : Did effects w r) (f : β → γ) : Did effects w (r.map f) := by
  refine ⟨fun he => ?_, ?_, ?_, ?_⟩
  · obtain ⟨b, w', rfl⟩ := h.succeeds he
    exact ⟨f b, w', rfl⟩
  · rw [Result.world_map]
    exact h.policy_eq
  · rw [Result.world_map]
    exact h.not_poisoned
  · rw [Result.world_map]
    exact h.get?_eq

theorem of_sameStore (h : SameStore w r.world) : Did [] w r where
  succeeds he := absurd rfl he
  policy_eq := h.policy_eq
  not_poisoned := h.not_poisoned
  get?_eq key := by rw [h.table_eq, storedAfter_nil]

/-- A reading of the clock comes before nothing that matters here. -/
theorem of_now (h : Did effects (Context.now w).2 r) : Did effects w r :=
  ⟨h.succeeds, h.policy_eq, h.not_poisoned, h.get?_eq⟩

theorem onMemory {x : Action (Memory κ (Stamped α)) β} {b : β} {m : Memory κ (Stamped α)}
    (hx : x w.memory = .ok b m) (hp : m.poisoned = false)
    (ht : ∀ key, m.table.get? key = storedAfter effects (w.memory.table.get? key) key) :
    Did effects w (World.onMemory x w) := by
  have heq : World.onMemory x w = .ok b { w with memory := m } := by
    rw [World.onMemory, Action.focus, hx, Result.mapWorld_ok]
  rw [heq]
  exact ⟨fun _ => ⟨b, _, rfl⟩, rfl, hp, ht⟩

end Did

variable [Std.TransOrd κ] {w : World κ α}

theorem did_clear (h : w.memory.poisoned = false) : Did [.cleared] w (Store.clear w) :=
  Did.onMemory (Memory.clearAll_of_not_poisoned h) h fun _ => rfl

variable [Std.LawfulEqOrd κ]

theorem did_put (h : w.memory.poisoned = false) (key : κ) (stored : Stamped α) :
    Did [.wrote key stored] w (Store.put key stored w) := by
  refine Did.onMemory (Memory.insert_of_not_poisoned h key stored) h ?_
  intro j
  rw [storedAfter_wrote, Table.get?_insert]

theorem did_putAll (h : w.memory.poisoned = false) (batch : List (κ × Stamped α)) :
    Did (batch.map fun e => .wrote e.1 e.2) w (Store.putAll batch w) := by
  refine Did.onMemory (Memory.insertAll_of_not_poisoned h batch) h ?_
  intro j
  rw [storedAfter_batch, Table.get?_insertAll]

omit [Std.TransOrd κ] in
theorem did_delete (h : w.memory.poisoned = false) (key : κ) :
    Did [.removed key] w (World.onMemory (Memory.delete key) w) := by
  refine Did.onMemory (Memory.delete_of_not_poisoned h key) h ?_
  intro j
  rw [storedAfter_removed, Table.get?_erase]

/-- A direct call has the effects of a call at its time. -/
theorem did_direct (c : PointCall κ (Option α)) (h : w.memory.poisoned = false) :
    Did (c.effects w.clock.time) w (c.direct w) := by
  match c with
  | .get key =>
    obtain ⟨w', hget, hsame⟩ := Direct.get_eq_check h key
    refine Did.map (Did.of_sameStore ?_) _
    rw [hget]
    exact hsame
  | .put key value =>
    have hput := did_put (w := (Context.now w).2) h key ⟨value, w.clock.time⟩
    exact (Did.of_now hput).map _
  | .putAll batch =>
    have hputAll := did_putAll (w := (Context.now w).2) h (stampAll w.clock.time batch)
    rw [effects_putAll]
    exact (Did.of_now hputAll).map _
  | .remove key => exact ((did_delete h key).map _).map _
  | .contains key =>
    obtain ⟨w', hcontains, hsame⟩ := Direct.contains_eq_check h key
    refine Did.map (Did.of_sameStore ?_) _
    rw [hcontains]
    exact hsame
  | .isEmpty =>
    refine Did.map (Did.of_sameStore ?_) _
    exact Direct.held_isEmpty (P := SameStore w) (heldByLooking_sameStore w) (.refl h)
  | .clear => exact (did_clear h).map _

/-- A call that is completed has the effects of a call at the time when it was made. -/
theorem did_async (c : PointCall κ (Option α)) (called : World κ α)
    (h : w.memory.poisoned = false) :
    Did (c.effects called.clock.time) w ((c.async called).1.await w) := by
  match c with
  | .get key =>
    obtain ⟨w', hget, hsame⟩ := Direct.get_eq_check h key
    refine Did.map (Did.of_sameStore ?_) _
    change SameStore w ((Async.get key called).1.await w).world
    rw [Async.await_get h, hget]
    exact hsame
  | .put key value => exact (did_put h key ⟨value, called.clock.time⟩).map _
  | .putAll batch =>
    rw [effects_putAll]
    exact (did_putAll h (stampAll called.clock.time batch)).map _
  | .remove key =>
    have hremove := (did_delete h key).map fun _ => ()
    rw [← World.onMemory_map] at hremove
    exact hremove.map _
  | .contains key =>
    obtain ⟨w', hcontains, hsame⟩ := Direct.contains_eq_check h key
    refine Did.map (Did.of_sameStore ?_) _
    change SameStore w ((Async.contains key called).1.await w).world
    rw [Async.await_contains h, hcontains]
    exact hsame
  | .isEmpty =>
    have hempty : Memory.isEmpty w.memory = .ok w.memory.table.isEmpty w.memory :=
      Memory.observe_of_not_poisoned h
    exact (Did.onMemory hempty h fun _ => rfl).map _
  | .clear => exact (did_clear h).map _

end Calls

/-! ## What a call on a pass does to the table -/

theorem PassEvent.Hands.item?_eq {e : PassEvent ρ} {item : ρ} (h : e.Hands item) :
    e.item? = some item := by
  obtain ⟨call, outcome⟩ := e
  obtain ⟨rfl | rfl, rfl⟩ := h <;> rfl

theorem PassEvent.Idle.item?_eq {e : PassEvent ρ} (h : e.Idle) : e.item? = none := by
  obtain ⟨call, outcome⟩ := e
  obtain rfl | ⟨rfl, -⟩ := h <;> rfl

/-- In an open window its item was handed out last. -/
theorem lastHanded_of_windowOpen {past : List (PassEvent ρ)} {item : ρ} (h : WindowOpen past item) :
    lastHanded past = some item := by
  obtain ⟨before, handing, after, rfl, hands, hidle⟩ := h
  have hafter : after.reverse.findSome? PassEvent.item? = none :=
    List.findSome?_eq_none_iff.mpr fun e he => (hidle e (List.mem_reverse.mp he)).item?_eq
  rw [lastHanded, List.reverse_append, List.reverse_cons, List.append_assoc,
    List.findSome?_append, hafter, Option.none_or, List.singleton_append, List.findSome?_cons,
    hands.item?_eq]

theorem effects_of_ne_removeCurrent {past : List (PassEvent (κ × ρ))} {c : PassCall}
    {outcome : Except StoreError (PassAnswer (κ × ρ))} (h : c ≠ .removeCurrent) :
    (PassEvent.effects past ⟨c, outcome⟩ : List (Effect κ α)) = [] := by
  match c with
  | .hasNext | .nextItem | .next | .skipped => rfl
  | .removeCurrent => exact absurd rfl h

section Passes

variable [Ord κ]

/-- In an open window the cursor of a pass stands at the key of the item handed out last,
whatever becomes of the world. -/
def OpenPass.Tells (p : OpenPass κ α ρ) : Prop :=
  ∃ project : κ → Option α → κ × ρ, (∀ key value, (project key value).1 = key) ∧
    ∀ w : World κ α, LiveEntries.Windowed (fun s : Memory.Position κ × World κ α => s.1.last)
      (fun e => some e.1) project p.past (p.pass, p.position, w)

variable {p : OpenPass κ α ρ} {w : World κ α}

/-- A pass that has just been opened tells its key, as there is none. -/
theorem OpenPass.tells_fresh (project : κ → Option α → ρ) :
    OpenPass.Tells ({ pass := { project := fun key value => (key, project key value) } } :
      OpenPass κ α ρ) :=
  ⟨_, fun _ _ => rfl, fun _ => LiveEntries.windowed_fresh _⟩

theorem OpenPass.tells_update {passes : Nat → Option (OpenPass κ α ρ)}
    (h : ∀ handle p, passes handle = some p → p.Tells) (handle : Nat) (hp : p.Tells) :
    ∀ other q, Function.update passes handle (some p) other = some q → q.Tells := by
  intro other q hq
  rcases eq_some_of_update hq with hnew | hold
  · exact Option.some.inj hnew ▸ hp
  · exact h other q hold

/-- While the flag is up, the cursor stands at the key that was handed out last. -/
theorem OpenPass.Tells.handed (h : p.Tells) (hremovable : p.pass.removable = true) :
    ∃ item, lastHanded p.past = some item ∧ p.position = { last := some item.1 } := by
  obtain ⟨project, hkey, hw⟩ := h
  have hwindow := hw { policy := .always }
  obtain ⟨item, hopen⟩ := hwindow.removable_iff.mp hremovable
  obtain ⟨key, value, ⟨stored, hlast, -⟩, hitem⟩ := hwindow.item_eq hopen
  refine ⟨item, lastHanded_of_windowOpen hopen, ?_⟩
  rw [hitem, hkey]
  exact congrArg Memory.Position.mk hlast

variable [Std.TransOrd κ]

theorem OpenPass.Tells.call (h : p.Tells) (c : PassCall) {r : Result _ (PassAnswer (κ × ρ))}
    (hr : LiveEntries.call c (p.pass, p.position, w) = r) :
    OpenPass.Tells { pass := r.world.1, position := r.world.2.1,
                     past := p.past ++ [⟨c, r.outcome⟩] } := by
  obtain ⟨project, hkey, hw⟩ := h
  have hcall := (hw w).call? tracks_position (LiveEntries.call?_eq_some c _)
  rw [hr] at hcall
  exact ⟨project, hkey, fun w' => hcall.elsewhere (fun s => (s.1, w')) fun _ => rfl⟩

variable [Std.LawfulEqOrd κ] [DecidableEq κ]

/-- A call on a pass has the effects that the calls on it tell. -/
theorem did_onPass (h : p.Tells) (hlock : w.memory.poisoned = false) (c : PassCall)
    {r : Result _ (PassAnswer (κ × ρ))} (hr : LiveEntries.call c (p.pass, p.position, w) = r) :
    Did (PassEvent.effects p.past ⟨c, r.outcome⟩) w (r.mapWorld fun s => s.2.2) := by
  by_cases hc : c = .removeCurrent
  · subst hc
    by_cases hremovable : p.pass.removable = true
    · obtain ⟨item, hhanded, hposition⟩ := h.handed hremovable
      have heffects : (lastHanded p.past).toList.map (fun item => Effect.removed item.1) =
          [(Effect.removed item.1 : Effect κ α)] := by
        rw [hhanded, Option.toList_some, List.map_singleton]
      rw [LiveEntries.call, LiveEntries.removeCurrent_of_removable hremovable, hposition,
        LiveEntries.forwardRemoval_position hlock, Result.map_ok] at hr
      subst hr
      simp only [PassEvent.effects, Result.outcome_ok, heffects]
      refine ⟨fun _ => ⟨_, _, rfl⟩, rfl, ?_, fun j => ?_⟩
      · rw [Memory.delete_of_not_poisoned hlock]
        exact hlock
      · rw [Memory.delete_of_not_poisoned hlock, storedAfter_removed]
        exact Table.get?_erase _ _ _
    · rw [LiveEntries.call, LiveEntries.removeCurrent_of_not_removable
        (Bool.not_eq_true _ ▸ hremovable), Result.map_error] at hr
      subst hr
      exact Did.of_sameStore (.refl hlock)
  · rw [effects_of_ne_removeCurrent hc]
    refine Did.of_sameStore ?_
    rw [Result.world_mapWorld, ← hr]
    exact LiveEntries.held_call (heldByLooking_sameStore w) (s := (p.pass, p.position, w))
      (.refl hlock) hc

end Passes

/-! ## What leaves the entries alone -/

section Same

variable [Ord κ] {w : World κ α}

/-- Making a call leaves the entries and the policy alone. -/
theorem PointCall.sameStore_async [Std.TransOrd κ] (c : PointCall κ (Option α))
    (h : w.memory.poisoned = false) : SameStore w (c.async w).2 := by
  match c with
  | .get _ | .remove _ | .contains _ | .isEmpty | .clear => exact .refl h
  | .put _ _ | .putAll _ => exact ⟨rfl, rfl, h⟩

/-- Serving a page leaves the entries and the policy alone. -/
theorem World.sameStore_nextPage (source : Memory.Pages κ)
    (h : w.memory.poisoned = false) : SameStore w (World.nextPage (source, w)).world.2 := by
  have hmemory : (Memory.nextPage (source, w.memory)).world.2.table = w.memory.table ∧
      (Memory.nextPage (source, w.memory)).world.2.poisoned = false := by
    unfold Memory.nextPage
    rw [Memory.observe_of_not_poisoned h]
    dsimp only
    split
    · exact ⟨rfl, h⟩
    · split
      · exact ⟨rfl, h⟩
      · exact ⟨rfl, h⟩
  unfold World.nextPage World.atPosition Action.focus
  rcases hn : Memory.nextPage (source, w.memory) with ⟨- | page, s⟩ | ⟨e, s⟩ <;>
    rw [hn] at hmemory <;> exact ⟨hmemory.1, rfl, hmemory.2⟩

end Same

/-! ## The invariant -/

section Invariant

variable [Ord κ] [DecidableEq κ] {policy : Policy}

/-- The table of a scene holds what its history left there. -/
structure Recorded (policy : Policy) (s : Scene κ α ρ) : Prop where
  policy_eq : s.world.policy = policy
  not_poisoned : s.world.memory.poisoned = false
  get?_eq : ∀ key, s.world.memory.table.get? key = storedAfter s.history none key
  tells : ∀ handle p, s.passes handle = some p → p.Tells

namespace Recorded

variable {s : Scene κ α ρ}

theorem of_did (h : Recorded policy s) {effects : List (Effect κ α)} {r : Result (World κ α) β}
    (hd : Did effects s.world r) {passes : Nat → Option (OpenPass κ α ρ)}
    (tells : ∀ handle p, passes handle = some p → p.Tells) :
    Recorded policy { world := r.world, passes, history := s.history ++ effects } where
  policy_eq := hd.policy_eq.trans h.policy_eq
  not_poisoned := hd.not_poisoned
  get?_eq key := by rw [hd.get?_eq, h.get?_eq, storedAfter_append]
  tells := tells

theorem of_sameStore (h : Recorded policy s) {w : World κ α} (hsame : SameStore s.world w) :
    Recorded policy { s with world := w } where
  policy_eq := hsame.policy_eq.trans h.policy_eq
  not_poisoned := hsame.not_poisoned
  get?_eq key := by rw [hsame.table_eq, h.get?_eq]
  tells := h.tells

theorem follow (h : Recorded policy s) {effects : List (Effect κ α)} {r : Result (World κ α) β}
    (hd : Did effects s.world r) : Recorded policy (s.follow effects r) := by
  rcases r with ⟨b, w⟩ | ⟨e, w⟩
  · exact h.of_did hd h.tells
  · -- a failure had no effects to record
    have hnothing : effects = [] := by
      by_contra he
      obtain ⟨b, w', hok⟩ := hd.succeeds he
      cases hok
    subst hnothing
    have hsame := h.of_did hd h.tells
    rwa [List.append_nil] at hsame

variable [Std.TransOrd κ] [Std.LawfulEqOrd κ]

/-- Every act keeps the invariant. -/
theorem perform (h : Recorded policy s) (a : Act κ α ρ) : Recorded policy (a.perform s).2 := by
  match a with
  | .direct c => exact h.follow (did_direct c h.not_poisoned)
  | .setClock _ | .advanceClock _ => exact h.of_sameStore ⟨rfl, rfl, h.not_poisoned⟩
  | .openPass handle project =>
    exact ⟨h.policy_eq, h.not_poisoned, h.get?_eq,
      OpenPass.tells_update h.tells handle (OpenPass.tells_fresh project)⟩
  | .onPass handle c =>
    rcases hp : s.passes handle with - | p
    · simp only [Act.perform, hp]
      exact h
    · simp only [Act.perform, hp, Scene.onPass]
      have htells := h.tells handle p hp
      have hd := did_onPass htells h.not_poisoned c rfl
      have hrecorded := h.of_did hd
        (OpenPass.tells_update h.tells handle (htells.call (w := s.world) c rfl))
      rwa [Result.world_mapWorld] at hrecorded

end Recorded

/-- The scene of a system is recorded, and every call that is not completed will do what it
is recorded for. -/
structure System.Recorded (policy : Policy) (st : System κ α ρ) : Prop where
  scene : LazyExpiry.Recorded policy st.scene
  pending : ∀ {ticket p}, st.pending ticket = some p → ∀ {w : World κ α},
    w.memory.poisoned = false → Did (p.call.effects p.calledAt) w (p.work.await w)

namespace System.Recorded

variable {st : System κ α ρ}

theorem free (h : Recorded policy st) (ticket : Nat) {scene : Scene κ α ρ}
    (hscene : LazyExpiry.Recorded policy scene) :
    Recorded policy { scene, pending := Function.update st.pending ticket none } where
  scene := hscene
  pending {other p} hp := by
    rcases eq_some_of_update hp with hnew | hold
    · cases hnew
    · exact h.pending hold

theorem withWorld (h : Recorded policy st) {w : World κ α} (hsame : SameStore st.scene.world w) :
    Recorded policy (st.withWorld w) :=
  ⟨h.scene.of_sameStore hsame, h.pending⟩

theorem heldByPaging :
    HeldByPaging (π := Memory.Pages κ) (Recorded (ρ := ρ) policy : System κ α ρ → Prop) where
  nextPage {st} source h := by
    have hsame := World.sameStore_nextPage source h.scene.not_poisoned
    simp only [PageSource.nextPage, Result.world_mapWorld]
    exact h.withWorld hsame
  now {st} h := h.withWorld ⟨rfl, rfl, h.scene.not_poisoned⟩
  isLive {st} _ _ h := h.withWorld ⟨rfl, rfl, h.scene.not_poisoned⟩
  note {st} _ h := h.withWorld ⟨rfl, rfl, h.scene.not_poisoned⟩

variable [Std.TransOrd κ] [Std.LawfulEqOrd κ]

/-- Every move keeps the invariant. -/
theorem make (h : Recorded policy st) (m : Move κ α ρ) : Recorded policy (m.make st).2 := by
  match m with
  | .act a => exact ⟨h.scene.perform a, h.pending⟩
  | .call ticket c =>
    refine ⟨h.scene.of_sameStore (c.sameStore_async h.scene.not_poisoned), ?_⟩
    intro other p hp w hw
    rcases eq_some_of_update hp with hnew | hold
    · rw [← Option.some.inj hnew]
      exact did_async c _ hw
    · exact h.pending hold hw
  | .complete ticket =>
    rcases hp : st.pending ticket with - | p
    · simp only [Move.make, hp]
      exact h
    · simp only [Move.make, hp]
      exact h.free ticket (h.scene.follow (h.pending hp h.scene.not_poisoned))
  | .drop ticket => exact h.free ticket h.scene

end System.Recorded

end Invariant

/-! ## Looking -/

section Looking

/-- A call that asks and changes nothing that is stored. -/
def PointCall.reads : PointCall κ (Option α) → Bool
  | get _ | contains _ | isEmpty => true
  | put _ _ | putAll _ | remove _ | clear => false

/-- An act that asks, moves the clock or walks on. -/
def Act.looks : Act κ α ρ → Bool
  | direct c => c.reads
  | setClock _ | advanceClock _ | openPass _ _ => true
  | onPass _ c => c ≠ .removeCurrent

theorem effects_of_reads {c : PointCall κ (Option α)} (h : c.reads = true) (calledAt : Timestamp) :
    c.effects calledAt = [] := by
  match c with
  | .get _ | .contains _ | .isEmpty => rfl
  | .put _ _ | .putAll _ | .remove _ | .clear => cases h

variable [Ord κ]

theorem Scene.history_follow (s : Scene κ α ρ) (r : Result (World κ α) β) :
    (s.follow [] r).history = s.history := by
  rcases r with _ | _
  · exact List.append_nil _
  · rfl

theorem heldByPaging_history (history : List (Effect κ α)) :
    HeldByPaging (π := Memory.Pages κ) fun st : System κ α ρ => st.scene.history = history where
  nextPage source h := by
    simp only [PageSource.nextPage, Result.world_mapWorld]
    exact h
  now h := h
  isLive _ _ h := h
  note _ h := h

variable [Std.TransOrd κ]

/-- An activity that is no write and no removal, and in which no callback is one. -/
def Activity.Looks (st : System κ α ρ) : Activity κ α ρ υ → Prop
  | move (.act a) => a.looks = true
  | move (.call _ _) => True
  | move (.complete ticket) => ∀ p, st.pending ticket = some p → p.call.reads = true
  | move (.drop _) => True
  | collectEach _ _ callback =>
    ∀ index item st, (callback.call index item st).2 = st ∧
      ∀ st', ((callback.call index item st).1.finish st').world = st'
  | deliverEach _ _ receiver => ∀ index item st, (receiver.take index item st).world = st

theorem Act.history_of_looks {a : Act κ α ρ} (h : a.looks = true) (s : Scene κ α ρ) :
    (a.perform s).2.history = s.history := by
  match a with
  | direct c =>
    rw [perform, effects_of_reads h]
    exact s.history_follow _
  | setClock _ | advanceClock _ | openPass _ _ => rfl
  | onPass handle c =>
    have hc : c ≠ .removeCurrent := of_decide_eq_true h
    rcases hp : s.passes handle with - | p
    · simp only [perform, hp]
    · simp only [perform, hp, Scene.onPass, effects_of_ne_removeCurrent hc, List.append_nil]

/-- Looking leaves no trace in the history. -/
theorem Activity.history_of_looks {a : Activity κ α ρ υ} {st : System κ α ρ} (h : a.Looks st) :
    (a.perform st).scene.history = st.scene.history := by
  match a with
  | move (.act a) => exact Act.history_of_looks h st.scene
  | move (.call _ _) => rfl
  | move (.complete ticket) =>
    rcases hp : st.pending ticket with - | p
    · simp only [perform, Move.make, hp]
    · simp only [perform, Move.make, hp, effects_of_reads (h p hp)]
      exact st.scene.history_follow _
  | move (.drop _) => rfl
  | collectEach it limit callback =>
    refine PagedEntries.held_collectFrom (heldByPaging_history st.scene.history) ?_ ?_ limit 0 []
      it.source rfl
    · intro index item st hst
      rw [(h index item st).1]
      exact hst
    · intro index item st st' hst'
      rw [(h index item st).2]
      exact hst'
  | deliverEach it limit receiver =>
    refine PagedEntries.held_deliverFrom (heldByPaging_history st.scene.history) ?_ limit 0 0
      it.source rfl
    intro index item st hst
    rw [h index item st]
    exact hst

end Looking

/-! ## Reads -/

section Reads

variable [Ord κ] [Std.TransOrd κ] [Std.LawfulEqOrd κ] [DecidableEq κ]

/-- From an empty store on, whatever was done before, a read of a key at any time shows
what the last effect on that key left, if the policy says so at that time ; and looking
leaves no effects. -/
theorem reads_tell_history {w : World κ α} (hempty : w.memory.table = .empty)
    (hlock : w.memory.poisoned = false) {activities : List (Activity κ α ρ υ)} {st : System κ α ρ}
    (hrun : Activity.carryOut activities { scene := { world := w } } = st) :
    (∀ (key : κ) (time : Timestamp) (now : World κ α),
      now = (st.scene.changeClock fun c => c.set time).world →
        (Direct.get key now).outcome = .ok (shown w.policy st.scene.history time key) ∧
        (Direct.contains key now).outcome =
          .ok (shown w.policy st.scene.history time key).isSome ∧
        ∀ called : World κ α,
          ((Async.get key called).1.await now).outcome =
            .ok (shown w.policy st.scene.history time key) ∧
          ((Async.contains key called).1.await now).outcome =
            .ok (shown w.policy st.scene.history time key).isSome) ∧
      ∀ a : Activity κ α ρ υ, a.Looks st → (a.perform st).scene.history = st.scene.history := by
  refine ⟨?_, fun a ha => Activity.history_of_looks ha⟩
  have start : System.Recorded w.policy ({ scene := { world := w } } : System κ α ρ) := by
    refine ⟨⟨rfl, hlock, fun key => ?_, ?_⟩, ?_⟩
    · rw [hempty]
      rfl
    · rintro _ _ ⟨⟩
    · rintro _ _ ⟨⟩
  have hst := Activity.held_carryOut System.Recorded.heldByPaging
    (fun m _ h => h.make m) activities start
  rw [hrun] at hst
  rintro key time now rfl
  have hnow : ((st.scene.changeClock fun c => c.set time).world).memory.poisoned = false :=
    hst.scene.not_poisoned
  have hcheck : check (st.scene.changeClock fun c => c.set time).world.policy
      ((st.scene.changeClock fun c => c.set time).world.memory.table.get? key) time =
        shown w.policy st.scene.history time key := by
    rw [shown_eq_check, ← hst.scene.get?_eq, ← hst.scene.policy_eq]
    rfl
  obtain ⟨w₁, hget, -⟩ := Direct.get_eq_check hnow key
  obtain ⟨w₂, hcontains, -⟩ := Direct.contains_eq_check hnow key
  refine ⟨?_, ?_, fun called => ⟨?_, ?_⟩⟩
  · rw [hget, ← hcheck]
    rfl
  · rw [hcontains, ← hcheck]
    rfl
  · rw [Async.await_get hnow, hget, ← hcheck]
    rfl
  · rw [Async.await_contains hnow, hcontains, ← hcheck]
    rfl

end Reads

/-- A value is written over another, found expired and scanned for. -/
def lapse : List (Activity Nat Nat Unit Unit) :=
  [.move (.act (.direct (.putAll [(1, some 6), (1, some 7)]))), .move (.act (.setClock 9)),
    .move (.act (.direct (.get 1))),
    .deliverEach { source := { pageSize := .standard }, project := fun _ _ => () } 2
      ⟨fun _ _ st => .ok () st, fun _ _ _ => ⟨[], rfl⟩⟩]

/-- It is live again when the clock has gone back. -/
theorem reads_tell_history_lapse :
    let st := Activity.carryOut lapse { scene := { world := { policy := .nowBelow 5 } } }
    (Direct.get 1 st.scene.world).outcome = .ok none ∧
      (Direct.get 1 (st.scene.changeClock fun c => c.set 3).world).outcome =
        .ok (some (some 7)) := by
  intro st
  have hreads := (reads_tell_history (w := { policy := .nowBelow 5 }) rfl rfl (rfl : _ = st)).1
  exact ⟨(hreads 1 9 _ rfl).1, (hreads 1 3 _ rfl).1⟩

end LazyExpiry
