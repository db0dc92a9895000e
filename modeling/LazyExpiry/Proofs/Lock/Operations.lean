import LazyExpiry.Proofs.Lock.Passes

/-!
# Operations behind a broken lock

An operation needs the table or it does not (`Operation.needs?`). The first kind fails behind a
broken lock, by whichever store and whichever contract it gets there, and whenever its work
is completed (`Operation.refuses_perform`). The second kind is answered as ever
(`Operation.perform_of_needs?_eq_none`).

Through expiry a call tries what the store is asked for, and that is what the store itself is
asked for, with one exception : whether a key is there is a read of it, since it has to be live.
-/

namespace LazyExpiry

variable {κ ν α ρ β : Type}

/-! ## What is tried -/

namespace PointCall

/-- What a call tries at the store. -/
def attempts : PointCall κ ν → Attempts
  | get _ => { gets := 1 }
  | put _ _ => { puts := 1 }
  | putAll batch => { puts := batch.length }
  | remove _ => { removes := 1 }
  | contains _ | isEmpty | clear => {}

/-- What a call tries through expiry. -/
def expiringAttempts : PointCall κ ν → Attempts
  | contains _ => { gets := 1 }
  | c => c.attempts

end PointCall

/-- What an asynchronous call tries. -/
def AsyncCall.attempts : AsyncCall κ α → Attempts
  | expiring c => c.expiringAttempts
  | stored c => c.attempts

namespace Operation

/-- What an operation tries, if it needs the table. -/
def needs? : Operation κ α → Option Attempts
  | direct c => some c.expiringAttempts
  | list _ => some {}
  | async c => some c.attempts
  | store c => some c.attempts
  | lookup _ => some { gets := 1 }
  | insert _ _ => some { puts := 1 }
  | insertAll batch => some { puts := batch.length }
  | delete _ => some { removes := 1 }
  | containsKey _ | size | isEmpty | clearAll | stats => some {}
  | poison => some { puts := 2 }
  | setClock _ | advanceClock _ | readClock | stamp _ | check _ _ | describeContext
  | describeMemory | plan _ | heal | pageSize | withPageSize _ => none

/-- The operation plans a fault of the watch. -/
def plans : Operation κ α → Bool
  | plan _ => true
  | _ => false

end Operation

variable [Ord κ] [Std.TransOrd κ]

/-! ## The store itself -/

theorem World.refuses_stored : ∀ c : PointCall κ (Stamped α),
    World.Refuses c.attempts (c.stored : Action (World κ α) (Reply (Stamped α)))
  | .get key => refuses_map (refuses_onMemory (Memory.refuses_lookup key)) _
  | .put key value => refuses_map (refuses_onMemory (Memory.refuses_insert key value)) _
  | .putAll batch => refuses_map (refuses_onMemory (Memory.refuses_insertAll batch)) _
  | .remove key =>
    refuses_map (refuses_map (refuses_onMemory (Memory.refuses_delete key)) fun _ => ()) _
  | .contains _ => refuses_map (refuses_onMemory (Memory.refuses_observe _)) _
  | .isEmpty => refuses_map (refuses_onMemory (Memory.refuses_observe _)) _
  | .clear => refuses_map (refuses_onMemory (Memory.refuses_locked _)) _

theorem World.leavesRefused_storedLater : ∀ c : PointCall κ (Stamped α),
    World.LeavesRefused c.attempts
      (c.storedLater : World κ α → Deferred (World κ α) (Reply (Stamped α)) × World κ α)
  | .get key => (leavesRefused_later (Memory.refuses_lookup key)).replying _
  | .put key value => (leavesRefused_later (Memory.refuses_insert key value)).replying _
  | .putAll batch => (leavesRefused_later (Memory.refuses_insertAll batch)).replying _
  | .remove key => (leavesRefused_later
      (Memory.refuses_map (Memory.refuses_delete key) fun _ => ())).replying _
  | .contains _ => (leavesRefused_later (Memory.refuses_observe _)).replying _
  | .isEmpty => (leavesRefused_later (Memory.refuses_observe _)).replying _
  | .clear => (leavesRefused_later (Memory.refuses_locked _)).replying _

/-! ## Through expiry -/

namespace Desk

variable {d : Desk κ α}

/-- A cursor is opened without the table. -/
theorem entries_of_idle (hd : d.Idle) : (Store.entries d : Result (Desk κ α) (DeskCursor κ α)) =
    .ok (.stored {}) (d.write (.call { kind := .entries })) := by
  change Watched.entries d = _
  rw [Watched.entries, hd.cursorScript]
  simp only [Watched.forward, hd.call_eq]
  rfl

/-- So is a page source, with the page size at the call. -/
theorem asyncEntries_of_idle (hd : d.Idle) :
    let called : Deferred (Desk κ α) (DeskPages κ α) × Desk κ α := AsyncStore.entries d
    called.2 = d.write (.call { kind := .asyncEntries }) ∧ ∀ d', called.1.finish d' =
      .ok (.stored { pageSize := d.world.memory.pageSize }) d' := by
  have hcalled : (AsyncStore.entries d : Deferred (Desk κ α) (DeskPages κ α) × Desk κ α) =
      Watched.asyncEntries d := rfl
  rw [hcalled, Watched.asyncEntries, hd.pageScript]
  simp only [Watched.forwardLater, hd.call_eq]
  exact ⟨rfl, fun _ => rfl⟩

/-- A fresh pass has to search. -/
theorem hasNext_fresh_of_broken (hd : d.Broken) (project : κ → Option α → ρ) :
    LiveEntries.hasNext (({ project } : LiveEntries κ α ρ), (.stored {} : DeskCursor κ α), d) =
      .error Memory.lockPoisoned
        ({ project }, .stored {}, d.write (.call { kind := .advance })) := by
  have hnext : LiveEntries.hasNext?
      (({ project } : LiveEntries κ α ρ), (.stored {} : DeskCursor κ α), d) = _ :=
    LiveEntries.hasNext?_of_broken hd rfl {}
  rwa [LiveEntries.hasNext?_eq_some, Option.some.injEq] at hnext

theorem refuses_isEmpty : Refuses {} (Direct.isEmpty : Action (Desk κ α) Bool) := fun d hd => by
  have hwrite := tried_write d (.call { kind := .entries })
  have hlook := hasNext_fresh_of_broken (hwrite.broken hd) fun (key : κ) (_ : Option α) => key
  rw [Direct.isEmpty, Direct.keys, Direct.pass, entries_of_idle hd.toIdle, Result.map_ok,
    Result.bind_ok, hlook]
  exact ⟨rfl, hwrite.before (tried_write _ _)⟩

theorem refuses_list (project : κ → Option α → ρ) :
    Refuses {} (Direct.list project : Action (Desk κ α) (List ρ)) := fun d hd => by
  have hwrite := tried_write d (.call { kind := .entries })
  obtain ⟨d', htried, houtcome, hworld⟩ := LiveEntries.collect_of_broken (hwrite.broken hd)
    ({ project } : LiveEntries κ α ρ) {}
  rw [Direct.list, Direct.pass, entries_of_idle hd.toIdle, Result.map_ok, Result.bind_ok]
  refine ⟨?_, ?_⟩
  · rw [Result.outcome_mapWorld, houtcome]
    rfl
  · rw [Result.world_mapWorld, hworld]
    exact hwrite.before htried

theorem refuses_direct (c : PointCall κ (Option α)) :
    Refuses c.expiringAttempts (c.direct : Action (Desk κ α) (Reply (Option α))) := fun d hd => by
  have hnow := tried_now d
  match c with
  | .get key =>
    have hlookup := World.refuses_onMemory (α := α) (Memory.refuses_lookup key)
    exact ((refuses_forward _ hlookup d hd).bind _).map _
  | .put key value =>
    exact .map (.before hnow (refuses_forward _
      (World.refuses_onMemory (Memory.refuses_insert key _)) _ (hnow.broken hd))) _
  | .putAll batch =>
    have hputs : (stampAll (Context.now d).1 batch).length = batch.length := List.length_map _
    have hbatch := Memory.refuses_insertAll (stampAll (Context.now d).1 batch)
    rw [hputs] at hbatch
    exact .map (.before hnow (refuses_forward _ (World.refuses_onMemory hbatch) _
      (hnow.broken hd))) _
  | .remove key =>
    exact (refuses_forward _ (World.refuses_map (World.refuses_onMemory (Memory.refuses_delete key))
      fun _ => ()) d hd).map _
  | .contains key =>
    exact (((refuses_forward _ (World.refuses_onMemory (Memory.refuses_lookup key)) d hd).bind
      _).map _).map _
  | .isEmpty => exact (refuses_isEmpty d hd).map _
  | .clear =>
    exact (refuses_forward _ (World.refuses_onMemory (Memory.refuses_locked _)) d hd).map _

/-! ## Later -/

omit [Std.TransOrd κ] in
theorem Refused.judgeAnswer {a : Attempts} {r : Result (Desk κ α) (Option (Stamped α))}
    (hr : Refused a d r) : Refused a d (Async.judgeAnswer r) := by
  obtain ⟨houtcome, htried⟩ := hr
  rcases r with ⟨answer, d'⟩ | ⟨e, d'⟩
  · cases houtcome
  · exact ⟨congrArg Except.error (Except.error.inj houtcome), htried.after (tried_now d')⟩

theorem leavesRefused_get (hd : d.Idle) (key : κ) :
    LeavesRefused { gets := 1 } d (Async.get key d) := by
  have hcalled := leavesRefused_forwardLater { kind := .asyncGet }
    (World.leavesRefused_later (Memory.refuses_lookup key)) hd
  exact ⟨fun d' hd' => (hcalled.finish d' hd').judgeAnswer, hcalled.tried⟩

theorem leavesRefused_async (hd : d.Idle) (c : PointCall κ (Option α)) :
    LeavesRefused c.expiringAttempts d (c.async d) := by
  have hnow := tried_now d
  match c with
  | .get key => exact (leavesRefused_get hd key).map _
  | .put key value =>
    exact .map (.before hnow (leavesRefused_forwardLater _
      (World.leavesRefused_later (Memory.refuses_insert key _)) (hnow.idle hd))) _
  | .putAll batch =>
    have hputs : (stampAll (Context.now d).1 batch).length = batch.length := List.length_map _
    have hbatch := Memory.refuses_insertAll (stampAll (Context.now d).1 batch)
    rw [hputs] at hbatch
    exact .map (.before hnow (leavesRefused_forwardLater _ (World.leavesRefused_later hbatch)
      (hnow.idle hd))) _
  | .remove key =>
    exact (leavesRefused_forwardLater _ (World.leavesRefused_later
      (Memory.refuses_map (Memory.refuses_delete key) fun _ => ())) hd).map _
  | .contains key => exact ((leavesRefused_get hd key).map _).map _
  | .isEmpty =>
    exact (leavesRefused_forwardLater _
      (World.leavesRefused_later (Memory.refuses_observe _)) hd).map _
  | .clear =>
    exact (leavesRefused_forwardLater _
      (World.leavesRefused_later (Memory.refuses_locked _)) hd).map _

theorem leavesRefused_start (hd : d.Idle) :
    ∀ c : AsyncCall κ α, LeavesRefused c.attempts d (c.start d)
  | .expiring c => (leavesRefused_async hd c).map _
  | .stored c => (leavesRefused_unwatchedLater (World.leavesRefused_storedLater c) d).map _

end Desk

/-! ## All operations -/

namespace Operation

/-- What needs the table is refused. -/
theorem refuses_perform {operation : Operation κ α} {a : Attempts}
    (h : operation.needs? = some a) : Desk.Refuses a operation.perform := by
  intro d hd
  have hmemory : ∀ {β : Type} {b : Attempts} {x : Action (Memory κ (Stamped α)) β},
      Memory.Refuses b x → Desk.Refused b d (Desk.onMemory x d) := fun hx =>
    Desk.refuses_unwatched (World.refuses_onMemory hx) d hd
  match operation with
  | direct c => exact Option.some.inj h ▸ (Desk.refuses_direct c d hd).map _
  | list view => exact Option.some.inj h ▸ (Desk.refuses_list view.project d hd).map _
  | async c => exact Option.some.inj h ▸ (Desk.leavesRefused_start hd.toIdle c).await hd
  | store c =>
    exact Option.some.inj h ▸ (Desk.refuses_unwatched (World.refuses_stored c) d hd).map _
  | lookup key => exact Option.some.inj h ▸ (hmemory (Memory.refuses_lookup key)).map _
  | insert key stored =>
    exact Option.some.inj h ▸ (hmemory (Memory.refuses_insert key stored)).map _
  | insertAll batch => exact Option.some.inj h ▸ (hmemory (Memory.refuses_insertAll batch)).map _
  | delete key => exact Option.some.inj h ▸ (hmemory (Memory.refuses_delete key)).map _
  | containsKey _ => exact Option.some.inj h ▸ (hmemory (Memory.refuses_observe _)).map _
  | size => exact Option.some.inj h ▸ (hmemory (Memory.refuses_observe _)).map _
  | isEmpty => exact Option.some.inj h ▸ (hmemory (Memory.refuses_observe _)).map _
  | clearAll => exact Option.some.inj h ▸ (hmemory (Memory.refuses_locked _)).map _
  | stats => exact Option.some.inj h ▸ (hmemory Memory.refuses_stats).map _
  | poison => exact Option.some.inj h ▸ (hmemory Memory.refuses_poison).map _

/-- What does not need the table is answered, and tries nothing. -/
theorem perform_of_needs?_eq_none {operation : Operation κ α} (h : operation.needs? = none)
    (hplans : operation.plans = false) (d : Desk κ α) :
    ∃ answer d', operation.perform d = .ok answer d' ∧ d.Tried {} d' := by
  match operation with
  | setClock t => exact ⟨_, _, rfl, Desk.tried_of_memory_eq rfl⟩
  | advanceClock s => exact ⟨_, _, rfl, Desk.tried_of_memory_eq rfl⟩
  | readClock => exact ⟨_, _, rfl, Desk.tried_now d⟩
  | stamp value => exact ⟨_, _, rfl, Desk.tried_now d⟩
  | check stored now => exact ⟨_, _, rfl, Desk.tried_judge stored now d⟩
  | describeContext => exact ⟨_, _, rfl, Desk.tried_now d⟩
  | describeMemory => exact ⟨_, _, rfl, .refl d⟩
  | heal =>
    exact ⟨_, _, rfl, Desk.tried_none rfl rfl rfl fun h => ⟨rfl, h.cursorScript, h.pageScript⟩⟩
  | pageSize => exact ⟨_, _, rfl, .refl d⟩
  | withPageSize n =>
    exact ⟨_, _, rfl, Desk.tried_none rfl rfl rfl fun h => h.withWorld _⟩

end Operation

end LazyExpiry
