import LazyExpiry.Proofs.Pass.Run

/-!
# What a pass asks of its world

A pass learns of its world only by asking : it advances the cursor or removes through it,
reads the clock and has values judged. `Logged ω κ α` is the world `ω` with all that was
asked written down next to what was answered (`Asked`), so that a property of a pass can
speak of the entries that its cursor answered.

The log is written and never read. `Mirrors view` says of a map of worlds that both sides
answer alike, and then a pass runs alike on both sides (`run?_view`). Forgetting a log is
such a map, so every run has a logged one (`run?_logged`).
-/

namespace LazyExpiry

variable {ω σ κ ν α ρ : Type}

/-! ## Worlds that answer alike -/

/-- Under `view` the context of both worlds answers alike. -/
structure ContextMirrors [Context ω] [Context σ] (view : ω → σ) : Prop where
  now : ∀ w, Context.now (view w) = ((Context.now w).1, view (Context.now w).2)
  isLive : ∀ writtenAt now w, Context.isLive writtenAt now (view w) =
    ((Context.isLive writtenAt now w).1, view (Context.isLive writtenAt now w).2)
  note : ∀ event w, Context.note event (view w) = view (Context.note event w)

/-- Under `view` the cursor and the context of both worlds answer alike. -/
structure Mirrors [Context ω] [Cursor ω κ ν] [Context σ] [Cursor σ κ ν] (view : ω → σ) : Prop
    extends ContextMirrors view where
  advance : ∀ w, Cursor.advance (view w) = (Cursor.advance w).mapWorld view
  removeCurrent : ∀ w, Cursor.removeCurrent (view w) = (Cursor.removeCurrent w).mapWorld view

/-- The same end, seen through a map of worlds, of something that carries its own state. -/
def Result.view {δ β : Type} (view : ω → σ) (r : Result (δ × ω) β) : Result (δ × σ) β :=
  r.mapWorld (Prod.map id view)

@[simp] theorem Result.view_ok {δ β : Type} (view : ω → σ) (b : β) (s : δ × ω) :
    (Result.ok b s).view view = .ok b (s.1, view s.2) := rfl

@[simp] theorem Result.view_error {δ β : Type} (view : ω → σ) (e : StoreError) (s : δ × ω) :
    (Result.error e s : Result (δ × ω) β).view view = .error e (s.1, view s.2) := rfl

theorem Result.view_map {δ β γ : Type} (view : ω → σ) (f : β → γ) (r : Result (δ × ω) β) :
    (r.map f).view view = (r.view view).map f := by
  rcases r with _ | _ <;> rfl

theorem Result.view_outcome {δ β : Type} (view : ω → σ) (r : Result (δ × ω) β) :
    (r.view view).outcome = r.outcome :=
  Result.outcome_mapWorld r _

theorem Result.view_world {δ β : Type} (view : ω → σ) (r : Result (δ × ω) β) :
    (r.view view).world = (r.world.1, view r.world.2) :=
  Result.world_mapWorld r _

theorem ContextMirrors.judge [Context ω] [Context σ] {view : ω → σ} (hv : ContextMirrors view)
    (stored : Option (Stamped α)) (now : Timestamp) (w : ω) :
    LazyExpiry.judge stored now (view w) =
      ((LazyExpiry.judge stored now w).1, view (LazyExpiry.judge stored now w).2) := by
  rcases stored with - | ⟨_ | v, writtenAt⟩
  · rfl
  · rfl
  · simp only [LazyExpiry.judge, hv.isLive]

section Mirrors

variable [Context ω] [Cursor ω κ (Stamped α)] [Context σ] [Cursor σ κ (Stamped α)] {view : ω → σ}

theorem Mirrors.pull (hv : Mirrors view) (w : ω) :
    LazyExpiry.pull (view w) = (LazyExpiry.pull w).mapWorld view := by
  unfold LazyExpiry.pull
  rw [hv.advance]
  rcases Cursor.advance w with ⟨- | ⟨key, stored⟩, w₁⟩ | ⟨e, w₁⟩
  · rfl
  · simp only [Result.mapWorld_ok, hv.now, hv.judge]
    split
    · rfl
    · simp only [hv.note, Result.mapWorld_ok]
  · rfl

namespace LiveEntries

/-- A search that was made can be made on the other side. -/
theorem Sought.mirror (hv : Mirrors view) {skipped : UInt64} {w : ω}
    {r : Result (UInt64 × ω) (Option (κ × Option α))} (h : Sought skipped w r) :
    Sought skipped (view w) (r.view view) := by
  induction h with
  | failed hp => exact .failed (by rw [hv.pull, hp]; rfl)
  | found hp => exact .found (by rw [hv.pull, hp]; rfl)
  | passed hp _ ih => exact .passed (by rw [hv.pull, hp]; rfl) ih
  | ended hp => exact .ended (by rw [hv.pull, hp]; rfl)

/-- A search on the other side was made here. -/
theorem Sought.of_mirror (hv : Mirrors view) {skipped : UInt64} {w : ω}
    {r : Result (UInt64 × σ) (Option (κ × Option α))} (h : Sought skipped (view w) r) :
    ∃ r', Sought skipped w r' ∧ r'.view view = r := by
  generalize hvw : view w = v at h
  induction h generalizing w with
  | failed hp =>
    rw [← hvw, hv.pull] at hp
    obtain ⟨w', hw', rfl⟩ := Result.mapWorld_eq_error_iff.mp hp
    exact ⟨_, .failed hw', rfl⟩
  | found hp =>
    rw [← hvw, hv.pull] at hp
    obtain ⟨w', hw', rfl⟩ := Result.mapWorld_eq_ok_iff.mp hp
    exact ⟨_, .found hw', rfl⟩
  | passed hp _ ih =>
    rw [← hvw, hv.pull] at hp
    obtain ⟨w', hw', rfl⟩ := Result.mapWorld_eq_ok_iff.mp hp
    obtain ⟨r', hr', heq⟩ := ih rfl
    exact ⟨r', .passed hw' hr', heq⟩
  | ended hp =>
    rw [← hvw, hv.pull] at hp
    obtain ⟨w', hw', rfl⟩ := Result.mapWorld_eq_ok_iff.mp hp
    exact ⟨_, .ended hw', rfl⟩

theorem seek?_view (hv : Mirrors view) (skipped : UInt64) (w : ω) :
    seek? skipped (view w) = (seek? skipped w).map (Result.view view) := by
  refine Option.ext fun r => ?_
  rw [Option.map_eq_some_iff, seek?_eq_some_iff]
  constructor
  · intro h
    obtain ⟨r', hr', heq⟩ := h.of_mirror hv
    exact ⟨r', hr'.seek?_eq, heq⟩
  · rintro ⟨r', hr', rfl⟩
    exact (sought_of_seek? hr').mirror hv

theorem settle_view (hv : Mirrors view) (it : LiveEntries κ α ρ)
    (r : Result (UInt64 × ω) (Option (κ × Option α))) :
    it.settle (r.view view) = (it.settle r).view view := by
  rcases r with ⟨- | ⟨key, value⟩, skipped, w⟩ | ⟨e, s⟩
  · simp only [Result.view_ok, settle, hv.note]
  · rfl
  · rfl

theorem hasNext?_view (hv : Mirrors view) (s : LiveEntries κ α ρ × ω) :
    hasNext? (s.1, view s.2) = (hasNext? s).map (Result.view view) := by
  obtain ⟨it, w⟩ := s
  rcases hl : it.lookahead with - | ⟨key, value⟩ | -
  · rw [hasNext?_fresh hl, hasNext?_fresh hl, seek?_view hv, Option.map_map, Option.map_map]
    exact congrArg (Option.map · _) (funext fun r => settle_view hv _ r)
  · rw [hasNext?_buffered hl, hasNext?_buffered hl]
    rfl
  · rw [hasNext?_exhausted hl, hasNext?_exhausted hl]
    rfl

omit [Context ω] [Cursor ω κ (Stamped α)] [Context σ] [Cursor σ κ (Stamped α)] in
theorem handOut_view (s : LiveEntries κ α ρ × ω) :
    handOut (s.1, view s.2) = (handOut s).view view := by
  obtain ⟨it, w⟩ := s
  unfold handOut
  dsimp only
  split <;> rfl

theorem nextItem?_view (hv : Mirrors view) (s : LiveEntries κ α ρ × ω) :
    nextItem? (s.1, view s.2) = (nextItem? s).map (Result.view view) := by
  rw [nextItem?, nextItem?, hasNext?_view hv, Option.map_map, Option.map_map]
  refine congrArg (Option.map · _) (funext fun r => ?_)
  rcases r with ⟨_ | _, s'⟩ | ⟨e, s'⟩
  · rfl
  · exact handOut_view s'
  · rfl

theorem next?_view (hv : Mirrors view) (s : LiveEntries κ α ρ × ω) :
    next? (s.1, view s.2) = (next? s).map (Result.view view) := by
  rw [next?, next?, hasNext?_view hv, Option.bind_map, Option.map_bind]
  refine congrArg (Option.bind _) (funext fun r => ?_)
  rcases r with ⟨_ | _, s'⟩ | ⟨e, s'⟩
  · rfl
  · simp only [Function.comp_apply, Result.view_ok, nextItem?_view hv, Option.map_map]
    exact congrArg (Option.map · _) (funext fun r => (Result.view_map view some r).symm)
  · rfl

theorem removeCurrent_view (hv : Mirrors view) (s : LiveEntries κ α ρ × ω) :
    removeCurrent (s.1, view s.2) = (removeCurrent s).view view := by
  obtain ⟨it, w⟩ := s
  unfold removeCurrent
  dsimp only
  rw [hv.removeCurrent]
  split
  · rcases Cursor.removeCurrent w with ⟨_, w'⟩ | ⟨e, w'⟩ <;> rfl
  · rfl

/-- A call comes to the same on both sides. -/
theorem call?_view (hv : Mirrors view) (c : PassCall) (s : LiveEntries κ α ρ × ω) :
    call? c (s.1, view s.2) = (call? c s).map (Result.view view) := by
  have lifted : ∀ {β : Type} (f : β → PassAnswer ρ) (x : Option (Result (LiveEntries κ α ρ × ω) β)),
      (x.map (Result.view view)).map (·.map f) = (x.map (·.map f)).map (Result.view view) := by
    intro β f x
    rw [Option.map_map, Option.map_map]
    exact congrArg (Option.map · x) (funext fun r => (Result.view_map view f r).symm)
  match c with
  | .hasNext => rw [call?, call?, hasNext?_view hv, lifted]
  | .nextItem => rw [call?, call?, nextItem?_view hv, lifted]
  | .next => rw [call?, call?, next?_view hv, lifted]
  | .removeCurrent =>
    rw [call?, call?, removeCurrent_view hv, Option.map_some, Result.view_map]
  | .skipped => rfl

/-- A run comes to the same on both sides, if what others change does. -/
theorem run?_view (hv : Mirrors view) {f : (σ → σ) → ω → ω}
    (hf : ∀ change w, view (f change w) = change (view w)) (steps : List (PassStep σ))
    (s : LiveEntries κ α ρ × ω) :
    run? steps (s.1, view s.2) =
      (run? (steps.map (PassStep.lift f)) s).map fun done => (done.1, done.2.1, view done.2.2) := by
  induction steps generalizing s with
  | nil => rfl
  | cons step rest ih =>
    match step with
    | .call c =>
      simp only [List.map_cons, PassStep.lift, run?, call?_view hv, Option.bind_map,
        Option.map_bind]
      refine congrArg (Option.bind _) (funext fun r => ?_)
      simp only [Function.comp_apply, Result.view_outcome, Result.view_world, ih, Option.map_map]
      rfl
    | .elsewhere change =>
      simp only [List.map_cons, PassStep.lift, run?, ← hf]
      exact ih (s.1, f change s.2)

end LiveEntries

end Mirrors

/-! ## Worlds that write down what they are asked -/

/-- Something asked of a world, with what it answered. -/
inductive Asked (κ α : Type) where
  /-- The cursor was advanced. -/
  | advanced (answer : Except StoreError (Option (κ × Stamped α)))
  /-- The cursor was told to remove. -/
  | removed (answer : Except StoreError Unit)
  /-- The clock was read. -/
  | read (now : Timestamp)
  /-- A value was judged. -/
  | judged (writtenAt now : Timestamp) (live : Bool)

/-- A world with what it was asked, oldest first. -/
structure Logged (ω κ α : Type) where
  world : ω
  log : List (Asked κ α) := []

namespace Logged

/-- One more thing asked. -/
def ask (r : Logged ω κ α) (w : ω) (asked : Asked κ α) : Logged ω κ α := ⟨w, r.log ++ [asked]⟩

instance [Context ω] : Context (Logged ω κ α) where
  now r := ((Context.now r.world).1, r.ask (Context.now r.world).2 (.read (Context.now r.world).1))
  isLive writtenAt now r :=
    ((Context.isLive writtenAt now r.world).1, r.ask (Context.isLive writtenAt now r.world).2
      (.judged writtenAt now (Context.isLive writtenAt now r.world).1))
  note event r := ⟨Context.note event r.world, r.log⟩

instance [Cursor ω κ (Stamped α)] : Cursor (Logged ω κ α) κ (Stamped α) where
  advance r := (Cursor.advance r.world).mapWorld fun w =>
    r.ask w (.advanced (Cursor.advance r.world).outcome)
  removeCurrent r := (Cursor.removeCurrent r.world).mapWorld fun w =>
    r.ask w (.removed (Cursor.removeCurrent r.world).outcome)

theorem advance_eq [Cursor ω κ (Stamped α)] (r : Logged ω κ α) :
    Cursor.advance r = (Cursor.advance r.world).mapWorld fun w =>
      r.ask w (.advanced (Cursor.advance r.world).outcome) := rfl

theorem removeCurrent_eq [Cursor ω κ (Stamped α)] (r : Logged ω κ α) :
    Cursor.removeCurrent r = (Cursor.removeCurrent r.world).mapWorld fun w =>
      r.ask w (.removed (Cursor.removeCurrent r.world).outcome) := rfl

/-- What others change is not asked of the world. -/
def elsewhere (change : ω → ω) (r : Logged ω κ α) : Logged ω κ α := ⟨change r.world, r.log⟩

variable [Context ω] [Cursor ω κ (Stamped α)]

theorem mirrors_world : Mirrors (Logged.world : Logged ω κ α → ω) where
  advance r := by
    simp only [Cursor.advance]
    rcases Cursor.advance r.world with _ | _ <;> rfl
  removeCurrent r := by
    simp only [Cursor.removeCurrent]
    rcases Cursor.removeCurrent r.world with _ | _ <;> rfl
  now _ := rfl
  isLive _ _ _ := rfl
  note _ _ := rfl

end Logged

namespace LiveEntries

variable [Context ω] [Cursor ω κ (Stamped α)]

/-- Every run can be written down. -/
theorem run?_logged {steps : List (PassStep ω)} {it it' : LiveEntries κ α ρ} {w w' : ω}
    {events : List (PassEvent ρ)} (log : List (Asked κ α))
    (h : run? steps (it, w) = some (events, it', w')) :
    ∃ log', run? (steps.map (PassStep.lift Logged.elsewhere)) (it, ⟨w, log⟩) =
      some (events, it', ⟨w', log'⟩) := by
  have view := run?_view (Logged.mirrors_world (κ := κ) (α := α)) (f := Logged.elsewhere)
    (fun _ _ => rfl) steps (it, ⟨w, log⟩)
  dsimp only at view
  rw [h, eq_comm, Option.map_eq_some_iff] at view
  obtain ⟨⟨events', it'', ⟨w'', log'⟩⟩, hrun, heq⟩ := view
  cases heq
  exact ⟨log', hrun⟩

end LiveEntries

end LazyExpiry
