import LazyExpiry.Proofs.Lock.Steps

/-!
# Sessions behind a broken lock

Once the lock of its store is broken, a session goes on by the table of all steps
(`Session.Answered`), whatever is open in it and however many steps are taken : every step leaves
the lock broken, so a run is a chain of such steps (`LockedRun`). What each step keeps, the run
does : the entries of the store, and the place of every cursor and page source, for as long
as it stays open.

A pass over live entries changes by its own calls only, each of which does what the table of calls
says (`LockedRun.pass_eq`). So an entry that it has found is kept until it is taken, an open
removal window stays open over every removal that fails, and an end stays an end.

`locked_of_broken` says all this of every run from a broken session.
-/

namespace LazyExpiry

variable {κ α : Type}

/-! ## Calls on one pass -/

/-- The calls that steps make on the pass under a handle. -/
def Step.callsOn (handle : Handle) (steps : List (Step κ α)) : List PassCall :=
  steps.filterMap fun st => st.call?.bind fun c => if c.2 = handle then some c.1 else none

/-- The step opens, closes or collects the pass under a handle. -/
def Step.Replaces (handle : Handle) : Step κ α → Prop
  | openPass h _ | close h | collect h => h = handle
  | _ => False

section Calls

variable {st : Step κ α} {handle : Handle}

theorem Step.callsOn_of_call? {c : PassCall} (h : st.call? = some (c, handle)) :
    callsOn handle [st] = [c] := by
  simp [callsOn, h]

theorem Step.callsOn_of_ne (h : ∀ c, st.call? ≠ some (c, handle)) : callsOn handle [st] = [] := by
  rcases hcall : st.call? with - | ⟨c, k⟩
  · simp [callsOn, hcall]
  · have hk : k ≠ handle := fun heq => h c (heq ▸ hcall)
    simp [callsOn, hcall, hk]

/-- A step that neither replaces a pass nor makes a call on it leaves it alone. -/
theorem Step.not_touches (hst : ¬st.Replaces handle) (hcall : ∀ c, st.call? ≠ some (c, handle)) :
    (.pass, handle) ∉ st.touches := by
  cases st <;> simp_all [touches, Replaces, call?, eq_comm]

end Calls

/-- A pass after some calls behind a broken lock. -/
def LiveEntries.afterLocked {ρ : Type} (it : LiveEntries κ α ρ) (position : Memory.Position κ)
    (calls : List PassCall) : LiveEntries κ α ρ :=
  calls.foldl (fun it c => (it.whenLocked position c).2) it

namespace Session

variable [Ord κ] [Std.TransOrd κ]

/-! ## Reports -/

omit [Std.TransOrd κ] in
theorem tried_fresh (s : Session κ α) : s.desk.Tried {} s.fresh.desk :=
  Desk.tried_none rfl rfl rfl fun h => ⟨h.faults, h.cursorScript, h.pageScript⟩

variable {s s' : Session κ α} {st : Step κ α} {steps : List (Step κ α)}
  {reports : List (Report κ α)} {outcome : Except Refusal (Answer κ α)} {a : Attempts}
  {handle : Handle}

theorem Broken.fresh (hs : s.Broken) : s.fresh.Broken := hs.of_desk (tried_fresh s)

/-- The table does not look at what was written down before. -/
theorem Answered.of_fresh (h : s.fresh.Answered st outcome a s') : s.Answered st outcome a s' := by
  cases h with
  | awaitPages hd hpending hgone hsource hpaged =>
    exact .awaitPages hd hpending hgone hsource hpaged
  | _ => constructor <;> assumption

theorem LockedStep.of_fresh (h : s.fresh.LockedStep st outcome a s') :
    s.LockedStep st outcome a s' where
  answered := h.answered.of_fresh
  keeps := ⟨(tried_fresh s).before h.keeps.desk, h.keeps.under_eq⟩
  broken := h.broken

/-! ## Runs -/

/-- A chain of steps behind a broken lock, with all that they have tried. -/
inductive LockedRun :
    Session κ α → List (Step κ α) → List (Report κ α) → Attempts → Session κ α → Prop where
  | nil (s : Session κ α) : LockedRun s [] [] {} s
  | cons {s s' s'' : Session κ α} {st : Step κ α} {steps : List (Step κ α)} {r : Report κ α}
      {reports : List (Report κ α)} {a b : Attempts} : s.LockedStep st r.outcome a s' →
    LockedRun s' steps reports b s'' → LockedRun s (st :: steps) (r :: reports) (a + b) s''

theorem Broken.lockedRun (hs : s.Broken) (hplans : ∀ st ∈ steps, st.plans = false) :
    ∃ a, LockedRun s steps (s.run steps).1 a (s.run steps).2 := by
  induction steps generalizing s with
  | nil => exact ⟨{}, .nil s⟩
  | cons st steps ih =>
    obtain ⟨hst, hrest⟩ := List.forall_mem_cons.mp hplans
    -- a report is made of a step from the session with nothing written down
    obtain ⟨a, hfirst⟩ := hs.fresh.takes hst
    obtain ⟨b, hothers⟩ := ih hfirst.broken hrest
    exact ⟨a + b, .cons hfirst.of_fresh hothers⟩

theorem LockedRun.broken (h : LockedRun s steps reports a s') (hs : s.Broken) : s'.Broken := by
  induction h with
  | nil => exact hs
  | cons hfirst _ ih => exact ih hfirst.broken

theorem LockedRun.keeps (h : LockedRun s steps reports a s') :
    s.Keeps (steps.flatMap Step.touches) a s' := by
  induction h with
  | nil => exact .refl _
  | cons hfirst _ ih =>
    rw [List.flatMap_cons]
    exact hfirst.keeps.trans ih

/-! ## One pass along a run -/

omit [Std.TransOrd κ] in
theorem Keeps.passes_get? {touched : List (Slot × Handle)} (h : s.Keeps touched a s')
    (hnot : (.pass, handle) ∉ touched) : s'.passes.get? handle = s.passes.get? handle := by
  have hunder := h.under_eq .pass handle hnot
  exact Option.map_injective (fun p q heq => Prod.ext (Opened.pass.inj heq).1
    (Opened.pass.inj heq).2) hunder

/-- Between its openings a pass changes by its calls only. -/
theorem LockedStep.pass_eq (h : s.LockedStep st outcome a s') {it : LiveEntries κ α (Item κ α)}
    {position : Memory.Position κ} (hpass : s.passes.get? handle = some (it, .stored position))
    (hst : ¬st.Replaces handle) : s'.passes.get? handle =
      some (it.afterLocked position (Step.callsOn handle [st]), .stored position) := by
  -- a call on the pass is told by the table, and no other step touches it
  by_cases hcall : ∃ c, st.call? = some (c, handle)
  · obtain ⟨c, hcall⟩ := hcall
    rw [Step.callsOn_of_call? hcall]
    cases h.answered with
    | call hcall' hpass' hafter =>
      cases hcall.symm.trans hcall'
      cases hpass.symm.trans hpass'
      exact hafter
    | misses hmiss _ => cases hpass.symm.trans ((misses_of_call? hcall).mp hmiss)
    | _ => cases hcall
  · rw [not_exists] at hcall
    rw [Step.callsOn_of_ne hcall, h.keeps.passes_get? (Step.not_touches hst hcall), hpass]
    rfl

theorem LockedRun.pass_eq (h : LockedRun s steps reports a s')
    {it : LiveEntries κ α (Item κ α)} {position : Memory.Position κ}
    (hpass : s.passes.get? handle = some (it, .stored position))
    (hsteps : ∀ st ∈ steps, ¬st.Replaces handle) : s'.passes.get? handle =
      some (it.afterLocked position (Step.callsOn handle steps), .stored position) := by
  induction h generalizing it with
  | nil => exact hpass
  | @cons _ _ _ st steps _ _ _ _ hfirst _ ih =>
    obtain ⟨hst, hrest⟩ := List.forall_mem_cons.mp hsteps
    have hcalls : Step.callsOn handle (st :: steps) =
        Step.callsOn handle [st] ++ Step.callsOn handle steps :=
      List.filterMap_append (l := [st])
    rw [hcalls, LiveEntries.afterLocked, List.foldl_append]
    exact ih (hfirst.pass_eq hpass hst) hrest

/-! ## Every run -/

/-- A batch whose keys cannot be compared breaks the lock, whatever is open. -/
theorem Plain.broken_of_poison (hs : s.Plain) : (s.step (.perform .poison)).2.Broken := by
  have hworld : (World.onMemory Memory.poison s.desk.world).world.memory.poisoned = true := by
    rw [World.onMemory, Action.focus, Result.world_mapWorld, Memory.poison]
    cases hlock : s.desk.world.memory.poisoned with
    | true => exact hlock
    | false => rfl
  have hdesk : (s.step (.perform .poison)).2.desk =
      s.desk.withWorld (World.onMemory Memory.poison s.desk.world).world := by
    simp only [step, Operation.perform, Desk.onMemory, Watched.unwatched, Action.focus,
      Result.world_map, Result.world_mapWorld]
  exact { hs with idle := hdesk ▸ hs.idle.withWorld _, poisoned := hdesk ▸ hworld }

/-- What a run behind a broken lock comes to. -/
structure Locked (s : Session κ α) (steps : List (Step κ α)) : Prop where
  /-- Every step is one of the table, and what they have tried together is all that the store
  keeps of them. -/
  run : ∃ a, LockedRun s steps (s.run steps).1 a (s.run steps).2 ∧
    s.Keeps (steps.flatMap Step.touches) a (s.run steps).2
  /-- A pass that stays open has come to what the calls on it make of it. -/
  pass_eq : ∀ {handle it position}, s.passes.get? handle = some (it, .stored position) →
    (∀ st ∈ steps, ¬st.Replaces handle) → (s.run steps).2.passes.get? handle =
      some (it.afterLocked position (Step.callsOn handle steps), .stored position)
  /-- Paged passes that were under way when the lock broke go on from wherever they stood. -/
  underWay : ∀ source, PagedEntries.UnderWay (s.run steps).2.desk source
  broken : (s.run steps).2.Broken

/-- A session with a broken lock goes on by the table of all steps, and loses nothing. -/
theorem locked_of_broken (hs : s.Broken) (hplans : ∀ st ∈ steps, st.plans = false) :
    s.Locked steps := by
  obtain ⟨a, hrun⟩ := hs.lockedRun hplans
  have hbroken := hrun.broken hs
  exact ⟨⟨a, hrun, hrun.keeps⟩, hrun.pass_eq, PagedEntries.underWay_of_broken hbroken.desk, hbroken⟩

/-- A store of one entry behind a broken lock, with passes, a cursor and page sources in several
places. -/
def stalled : Session Nat Nat where
  desk := { world := { policy := .always, memory := {
    table := Table.empty.insert 1 ⟨some 10, 0⟩, pageSize := .ofNat 2, poisoned := true } } }
  passes := ((Table.empty.insert "kept"
      ({ project := View.entries.project, lookahead := .buffered 1 (some 10) }, .stored {})).insert
    "open" ({ project := View.keys.project, removable := true }, .stored ⟨some 1⟩)).insert
    "over" ({ project := View.keys.project, lookahead := .exhausted }, .stored ⟨some 1⟩)
  cursors := Table.empty.insert "started" ⟨some 1⟩
  sources := (Table.empty.insert
    "drained" { pageSize := .ofNat 2, last := some 1, drained := true }).insert
    "partway" { pageSize := .ofNat 1, last := some 1 }

theorem broken_stalled : stalled.Broken where
  idle := ⟨rfl, rfl, rfl⟩
  passes := (((Table.all_empty _).insert _ ⟨_, rfl⟩).insert _ ⟨_, rfl⟩).insert _ ⟨_, rfl⟩
  paged := Table.all_empty _
  pending := Table.all_empty _
  poisoned := rfl

/-- Steps on all that is open there, and on what they open. -/
def furtherSteps : List (Step Nat Nat) :=
  [.nextItem "kept", .removeCurrent "open", .next "over", .removeAtCursor "started",
    .nextPage "drained", .nextPage "partway", .openPaged "new" .keys, .collectEach "new" [],
    .perform (.insertAll [(2, ⟨none, 3⟩), (3, ⟨none, 3⟩)])]

theorem locked_of_broken_stalled : stalled.Locked furtherSteps ∧
    (stalled.run furtherSteps).1.map Report.outcome =
      [.ok (.item (.entry 1 (some 10))), refused, .ok .ended, refused, .ok .ended, refused,
        .ok .done, refused, refused] ∧
    (stalled.run furtherSteps).2.desk.world.memory.counters = { puts := 2, removes := 2 } :=
  ⟨locked_of_broken broken_stalled (by decide), rfl, rfl⟩

end Session

end LazyExpiry
