import LazyExpiry.Proofs.Lock.Kept

/-!
# Steps behind a broken lock

Once the lock of its store is broken, every step of a session is told by what is open at that
moment (`Session.Answered`, the table of all steps) : whatever needs the table fails by one and the
same failure, what does not is answered, openings succeed, and what is at its end stays there. No
step changes the store, but for counting what was tried, none moves a cursor or a page source, and
the lock stays broken (`LockedStep`).

The cases are taken kind by kind of what is open, each by what the calls on it come to at the desk,
and put together in `Broken.takes`.
-/

namespace LazyExpiry

variable {κ α : Type}

/-! ## Answers -/

theorem Result.map_map {ω β γ δ : Type} (r : Result ω β) (f : β → γ) (g : γ → δ) :
    (r.map f).map g = r.map (g ∘ f) := by
  cases r <;> rfl

theorem Refusal.outcome_eq {ω β : Type} (r : Result ω β) :
    Refusal.outcome r = r.outcome.mapError .failed := by
  cases r <;> rfl

/-- The call that a step makes on a pass, and on which. -/
def Step.call? : Step κ α → Option (PassCall × Handle)
  | hasNext handle => some (.hasNext, handle)
  | nextItem handle => some (.nextItem, handle)
  | next handle => some (.next, handle)
  | removeCurrent handle => some (.removeCurrent, handle)
  | skipped handle => some (.skipped, handle)
  | _ => none

/-- The answer of a call on a pass. -/
def Answer.ofPass : PassAnswer (Item κ α) → Answer κ α
  | .flag b => flag b
  | .item i => item i
  | .ended => ended
  | .removed => done
  | .count n => number n.toNat

/-- The step plans a fault of the watch. -/
def Step.plans : Step κ α → Bool
  | perform operation => operation.plans
  | _ => false

namespace Session

variable [Ord κ] [Std.TransOrd κ]

/-- A paged pass before its first page, with the page size at a desk. -/
def freshPaged (d : Desk κ α) (view : View) : PagedEntries (DeskPages κ α) κ α (Item κ α) :=
  { source := .stored { pageSize := d.world.memory.pageSize }, project := view.project }

/-- What everything that needs the table comes to. -/
def refused : Except Refusal (Answer κ α) := .error (.failed Memory.lockPoisoned)

/-- The step uses what is not there. -/
def Misses (s : Session κ α) : Step κ α → Prop
  | .hasNext handle | .nextItem handle | .removeCurrent handle | .skipped handle | .next handle
  | .collect handle => s.passes.get? handle = none
  | .pagedIsEmpty handle | .collectEach handle _ | .deliverEach handle _ =>
    s.paged.get? handle = none
  | .await handle => s.pending.get? handle = none
  | .advanceCursor handle | .removeAtCursor handle => s.cursors.get? handle = none
  | .nextPage handle => s.sources.get? handle = none
  | _ => False

/-- What a step comes to behind a broken lock, by what is open : its answer, what it has tried, and
what it leaves of the thing that it was taken on. -/
inductive Answered (s : Session κ α) :
    Step κ α → Except Refusal (Answer κ α) → Attempts → Session κ α → Prop where
  /-- What needs the table fails. -/
  | needs {operation : Operation κ α} {a : Attempts} {s' : Session κ α} :
    operation.needs? = some a → Answered s (.perform operation) refused a s'
  /-- What does not need it is answered. -/
  | needsNot {operation : Operation κ α} {answer : Answer κ α} {s' : Session κ α} :
    operation.needs? = none → Answered s (.perform operation) (.ok answer) {} s'
  /-- Nothing is open under the handle, and nothing is done. -/
  | misses {st : Step κ α} {s' : Session κ α} : s.Misses st → s'.under = s.under →
    Answered s st (.error .noSuchHandle) {} s'
  /-- A pass is opened before its first entry. -/
  | openPass {handle : Handle} {view : View} {s' : Session κ α} :
    s'.passes.get? handle = some ({ project := view.project }, .stored {}) →
    Answered s (.openPass handle view) (.ok .done) {} s'
  /-- A call on a pass comes to what the table of calls says. -/
  | call {st : Step κ α} {c : PassCall} {handle : Handle} {it : LiveEntries κ α (Item κ α)}
      {position : Memory.Position κ} {s' : Session κ α} : st.call? = some (c, handle) →
    s.passes.get? handle = some (it, .stored position) →
    s'.passes.get? handle = some ((it.whenLocked position c).2, .stored position) →
    Answered s st (((it.whenLocked position c).1.map Answer.ofPass).mapError .failed)
      (it.attempts position c) s'
  /-- A pass that is collected is at its end afterwards. -/
  | collect {handle : Handle} {it : LiveEntries κ α (Item κ α)} {position : Memory.Position κ}
      {s' : Session κ α} :
    s.passes.get? handle = some (it, .stored position) →
    s'.passes.get? handle =
      some ({ it with lookahead := .exhausted, removable := false }, .stored position) →
    Answered s (.collect handle)
      ((it.collectedWhenLocked.map Answer.items).mapError .failed) {} s'
  | close {handle : Handle} {s' : Session κ α} : s'.passes.get? handle = none →
    Answered s (.close handle) (.ok (.flag (s.passes.contains handle))) {} s'
  /-- A paged pass is opened before its first page. -/
  | openPaged {handle : Handle} {view : View} {s' : Session κ α} :
    s'.paged.get? handle = some (freshPaged s.desk view) →
    Answered s (.openPaged handle view) (.ok .done) {} s'
  | pagedIsEmpty {handle : Handle} {it : PagedEntries (DeskPages κ α) κ α (Item κ α)}
      {s' : Session κ α} : s.paged.get? handle = some it →
    Answered s (.pagedIsEmpty handle) (.ok (.flag false)) {} s'
  /-- A paged pass is at its end, without results, if its source takes itself for drained. -/
  | collectEach {handle : Handle} {script : List (Cue κ α)}
      {it : PagedEntries (DeskPages κ α) κ α (Item κ α)} {source : Memory.Pages κ}
      {s' : Session κ α} : s.paged.get? handle = some it → it.source = .stored source →
    s'.paged.get? handle = none →
    Answered s (.collectEach handle script)
      (if source.drained then .ok (.items []) else refused) {} s'
  | deliverEach {handle : Handle} {script : List (Cue κ α)}
      {it : PagedEntries (DeskPages κ α) κ α (Item κ α)} {source : Memory.Pages κ}
      {s' : Session κ α} : s.paged.get? handle = some it → it.source = .stored source →
    s'.paged.get? handle = none →
    Answered s (.deliverEach handle script)
      (if source.drained then .ok .done else refused) {} s'
  /-- A call is made without the table, and leaves its work. -/
  | start {handle : Handle} {r : Request κ α} {d : Desk κ α} {s' : Session κ α} : d.Idle →
    d.world.memory.pageSize = s.desk.world.memory.pageSize →
    s'.pending.get? handle = some (request r d).1 →
    Answered s (.start handle r) (.ok .done) {} s'
  /-- The work of a call fails, also if it was left before the lock broke. -/
  | awaitCall {handle : Handle} {c : AsyncCall κ α} {d : Desk κ α} {s' : Session κ α} : d.Idle →
    s.pending.get? handle = some (request (.call c) d).1 → s'.pending.get? handle = none →
    s'.paged = s.paged → s'.sources = s.sources →
    Answered s (.await handle) refused c.attempts s'
  /-- The work of an opening does not. -/
  | awaitPass {handle : Handle} {view : View} {d : Desk κ α} {s' : Session κ α} : d.Idle →
    s.pending.get? handle = some (request (.pass view) d).1 → s'.pending.get? handle = none →
    s'.paged.get? handle = some (freshPaged d view) → s'.sources = s.sources →
    Answered s (.await handle) (.ok .done) {} s'
  | awaitPages {handle : Handle} {d : Desk κ α} {s' : Session κ α} : d.Idle →
    s.pending.get? handle = some (request .pages d).1 → s'.pending.get? handle = none →
    s'.sources.get? handle = some { pageSize := d.world.memory.pageSize } →
    s'.paged = s.paged → Answered s (.await handle) (.ok .done) {} s'
  | drop {handle : Handle} {s' : Session κ α} : s'.pending.get? handle = none →
    Answered s (.drop handle) (.ok (.flag (s.pending.contains handle))) {} s'
  /-- A cursor is opened before the first entry. -/
  | openCursor {handle : Handle} {s' : Session κ α} : s'.cursors.get? handle = some {} →
    Answered s (.openCursor handle) (.ok .done) {} s'
  | advanceCursor {handle : Handle} {position : Memory.Position κ} {s' : Session κ α} :
    s.cursors.get? handle = some position → Answered s (.advanceCursor handle) refused {} s'
  | removeAtCursor {handle : Handle} {position : Memory.Position κ} {s' : Session κ α} :
    s.cursors.get? handle = some position →
    Answered s (.removeAtCursor handle) (.error (.failed position.failure)) position.attempts s'
  /-- A page source is opened before the first page. -/
  | openPages {handle : Handle} {s' : Session κ α} :
    s'.sources.get? handle = some { pageSize := s.desk.world.memory.pageSize } →
    Answered s (.openPages handle) (.ok .done) {} s'
  /-- A source that takes itself for drained tells its end. -/
  | nextPage {handle : Handle} {source : Memory.Pages κ} {s' : Session κ α} :
    s.sources.get? handle = some source →
    Answered s (.nextPage handle) (if source.drained then .ok .ended else refused) {} s'

/-- A step behind a broken lock : it comes to what the table says, keeps all that it does not touch,
and leaves the lock broken. -/
structure LockedStep (s : Session κ α) (st : Step κ α) (outcome : Except Refusal (Answer κ α))
    (a : Attempts) (s' : Session κ α) : Prop where
  answered : s.Answered st outcome a s'
  keeps : s.Keeps st.touches a s'
  broken : s'.Broken

/-- The step is one behind a broken lock. -/
def Takes (s : Session κ α) (st : Step κ α) : Prop :=
  ∃ a, s.LockedStep st (s.step st).1 a (s.step st).2

variable {s : Session κ α} {st : Step κ α}

theorem takes_of_eq {outcome : Except Refusal (Answer κ α)} {a : Attempts} {s' : Session κ α}
    (hstep : s.step st = (outcome, s')) (h : s.LockedStep st outcome a s') : s.Takes st :=
  ⟨a, by rw [hstep]; exact h⟩

theorem takes_of_misses (hs : s.Broken) (hmiss : s.Misses st)
    (hstep : s.step st = (.error .noSuchHandle, s)) : s.Takes st :=
  takes_of_eq hstep ⟨.misses hmiss rfl, keeps_desk (.refl _), hs⟩

/-! ## Operations -/

theorem takes_perform (hs : s.Broken) {operation : Operation κ α}
    (hplans : operation.plans = false) : s.Takes (.perform operation) := by
  rcases hneeds : operation.needs? with - | a
  · obtain ⟨answer, d', hperform, htried⟩ :=
      Operation.perform_of_needs?_eq_none hneeds hplans s.desk
    have hstep : s.step (.perform operation) = (.ok answer, { s with desk := d' }) := by
      rw [step, hperform]
      rfl
    exact takes_of_eq hstep ⟨.needsNot hneeds, keeps_desk htried, hs.of_desk htried⟩
  · obtain ⟨houtcome, htried⟩ := Operation.refuses_perform hneeds s.desk hs.desk
    have hstep : s.step (.perform operation) =
        (refused, { s with desk := (operation.perform s.desk).world }) := by
      rw [step, Refusal.outcome_eq, houtcome]
      rfl
    exact takes_of_eq hstep ⟨.needs hneeds, keeps_desk htried, hs.of_desk htried⟩

/-! ## Passes -/

omit [Std.TransOrd κ] in
theorem onPass_eq {handle : Handle} {it : LiveEntries κ α (Item κ α)} {cursor : DeskCursor κ α}
    (hpass : s.passes.get? handle = some (it, cursor))
    (x : Action (LiveEntries κ α (Item κ α) × DeskCursor κ α × Desk κ α) (Answer κ α))
    {it' : LiveEntries κ α (Item κ α)} {cursor' : DeskCursor κ α} {d' : Desk κ α}
    (hworld : (x (it, cursor, s.desk)).world = (it', cursor', d')) :
    s.onPass handle x = ((x (it, cursor, s.desk)).outcome.mapError .failed,
      { s with desk := d', passes := s.passes.insert handle (it', cursor') }) := by
  rw [onPass, hpass]
  simp only [Refusal.outcome_eq, hworld]

theorem step_of_call? {c : PassCall} {handle : Handle} (hcall : st.call? = some (c, handle))
    (s : Session κ α) :
    s.step st = s.onPass handle fun p => (LiveEntries.call c p).map Answer.ofPass := by
  cases st with
  | next =>
    cases hcall
    rw [step]
    refine congrArg (fun x => s.onPass handle x) (funext fun p => ?_)
    rw [LiveEntries.call, Result.map_map]
    refine congrArg (fun f => Result.map f (LiveEntries.next p)) (funext fun item => ?_)
    cases item <;> rfl
  | hasNext | nextItem | removeCurrent | skipped =>
    cases hcall
    simp only [step, LiveEntries.call, Result.map_map]
    rfl
  | _ => cases hcall

omit [Std.TransOrd κ] in
theorem misses_of_call? {c : PassCall} {handle : Handle} (hcall : st.call? = some (c, handle)) :
    s.Misses st ↔ s.passes.get? handle = none := by
  cases st <;> cases hcall <;> rfl

theorem takes_call (hs : s.Broken) {c : PassCall} {handle : Handle}
    (hcall : st.call? = some (c, handle)) : s.Takes st := by
  rcases hpass : s.passes.get? handle with - | ⟨it, cursor⟩
  · refine takes_of_misses hs ((misses_of_call? hcall).mpr hpass) ?_
    rw [step_of_call? hcall, onPass, hpass]
  obtain ⟨position, hcursor⟩ := hs.passes handle _ hpass
  obtain rfl : cursor = .stored position := hcursor
  obtain ⟨d', htried, houtcome, hworld⟩ := LiveEntries.call_of_broken hs.desk it position c
  have hstep := onPass_eq hpass (fun p => (LiveEntries.call c p).map Answer.ofPass)
    ((Result.world_map _ _).trans hworld)
  rw [← step_of_call? hcall, Result.outcome_map, houtcome] at hstep
  refine takes_of_eq hstep ⟨.call hcall hpass (Table.get?_insert_self _ _ _),
    keeps_passes htried ?_ fun k _ => Table.map_snd_insert hpass _ k,
    { hs.of_desk htried with passes := hs.passes.insert handle ⟨position, rfl⟩ }⟩
  -- a removal that fails and a look at the count leave the pass as it is
  cases st with
  | hasNext | nextItem | next =>
    cases hcall
    exact Table.sameOff_insert (by simp [Step.touches]) _ _
  | removeCurrent | skipped =>
    cases hcall
    exact Table.sameOff_insert_same hpass
  | _ => cases hcall

theorem takes_collect (hs : s.Broken) (handle : Handle) : s.Takes (.collect handle) := by
  rcases hpass : s.passes.get? handle with - | ⟨it, cursor⟩
  · refine takes_of_misses hs hpass ?_
    rw [step, onPass, hpass]
  obtain ⟨position, hcursor⟩ := hs.passes handle _ hpass
  obtain rfl : cursor = .stored position := hcursor
  obtain ⟨d', htried, houtcome, hworld⟩ := LiveEntries.collect_of_broken hs.desk it position
  have hstep : s.step (.collect handle) = _ :=
    onPass_eq hpass (fun p => (LiveEntries.collect p).map Answer.items)
      ((Result.world_map _ _).trans hworld)
  rw [Result.outcome_map, houtcome] at hstep
  exact takes_of_eq hstep ⟨.collect hpass (Table.get?_insert_self _ _ _),
    keeps_passes htried (Table.sameOff_insert (by simp [Step.touches]) _ _)
      fun k _ => Table.map_snd_insert hpass _ k,
    { hs.of_desk htried with passes := hs.passes.insert handle ⟨position, rfl⟩ }⟩

theorem takes_close (hs : s.Broken) (handle : Handle) : s.Takes (.close handle) := by
  have hstep : s.step (.close handle) = _ := rfl
  refine takes_of_eq hstep ⟨.close (Table.get?_erase_self _ _),
    keeps_passes (.refl _) ?_ fun k hk => ?_, { hs with passes := hs.passes.erase handle }⟩
  · exact Table.sameOff_erase (by simp [Step.touches]) _
  · rw [Table.get?_erase, if_neg fun heq => hk (by simp [Step.touches, heq])]

/-! ## Openings -/

omit [Std.TransOrd κ] in
theorem keep_eq {β : Type} {x : Action (Desk κ α) β} {b : β} {d' : Desk κ α}
    (h : x s.desk = .ok b d') (put : β → Session κ α → Session κ α) :
    s.keep x put = (.ok .done, put b { s with desk := d' }) := by
  rw [keep, h]

theorem takes_openPass (hs : s.Broken) (handle : Handle) (view : View) :
    s.Takes (.openPass handle view) := by
  have hopen : Direct.pass view.project s.desk =
      .ok (({ project := view.project } : LiveEntries κ α (Item κ α)),
        (.stored {} : DeskCursor κ α)) (s.desk.write (.call { kind := .entries })) := by
    rw [Direct.pass, Desk.entries_of_idle hs.idle, Result.map_ok]
  have htried := Desk.tried_write s.desk (.call { kind := .entries })
  have hstep : s.step (.openPass handle view) = (.ok .done, { s with
      desk := s.desk.write (.call { kind := .entries })
      passes := s.passes.insert handle ({ project := view.project }, .stored {}) }) := by
    rw [step, keep_eq hopen]
  refine takes_of_eq hstep ⟨.openPass (Table.get?_insert_self _ _ _),
    keeps_passes htried ?_ fun k hk => ?_,
    { hs.of_desk htried with passes := hs.passes.insert handle ⟨{}, rfl⟩ }⟩
  · exact Table.sameOff_insert (by simp [Step.touches]) _ _
  · rw [Table.get?_insert, if_neg fun heq => hk (by simp [Step.touches, heq])]

/-! ## Work that was left -/

theorem tried_request {d : Desk κ α} (hd : d.Idle) :
    ∀ r : Request κ α, d.Tried {} (request r d).2
  | .call c => (Desk.leavesRefused_start hd c).tried
  | .pass _ => (Desk.asyncEntries_of_idle hd).1 ▸ Desk.tried_write d _
  | .pages => Desk.tried_of_memory_eq rfl

/-- The work of an opening needs no table. -/
theorem request_pass {d : Desk κ α} (hd : d.Idle) (view : View) : ∃ work,
    (request (.pass view) d).1 = .pass work ∧ ∀ d', work.await d' = .ok (freshPaged d view) d' := by
  refine ⟨_, rfl, fun d' => ?_⟩
  exact congrArg (Result.map _) ((Desk.asyncEntries_of_idle hd).2 d')

theorem request_pages (d : Desk κ α) : ∃ work, (request .pages d).1 = .pages work ∧
    ∀ d', work.await d' = .ok { pageSize := d.world.memory.pageSize } d' :=
  ⟨_, rfl, fun _ => rfl⟩

theorem takes_start (hs : s.Broken) (handle : Handle) (r : Request κ α) :
    s.Takes (.start handle r) := by
  have hstep : s.step (.start handle r) = (.ok .done, { s with
      desk := (request r s.desk).2
      pending := s.pending.insert handle (request r s.desk).1 }) := rfl
  have htried := tried_request hs.idle r
  exact takes_of_eq hstep ⟨.start hs.idle rfl (Table.get?_insert_self _ _ _),
    keeps_pending htried (Table.sameOff_insert (by simp [Step.touches]) _ _),
    { hs.of_desk htried with pending := hs.pending.insert handle ⟨r, s.desk, hs.idle, rfl⟩ }⟩

theorem takes_drop (hs : s.Broken) (handle : Handle) : s.Takes (.drop handle) := by
  have hstep : s.step (.drop handle) = _ := rfl
  exact takes_of_eq hstep ⟨.drop (Table.get?_erase_self _ _),
    keeps_pending (.refl _) (Table.sameOff_erase (by simp [Step.touches]) _),
    { hs with pending := hs.pending.erase handle }⟩

theorem takes_openPaged (hs : s.Broken) (handle : Handle) (view : View) :
    s.Takes (.openPaged handle view) := by
  obtain ⟨work, hwork, hawait⟩ := request_pass hs.idle view
  have htried := tried_request hs.idle (.pass view)
  have hstep : s.step (.openPaged handle view) = (.ok .done, { s with
      desk := (request (.pass view) s.desk).2
      paged := s.paged.insert handle (freshPaged s.desk view) }) := by
    rw [step, hwork, complete, keep_eq (hawait _)]
  exact takes_of_eq hstep ⟨.openPaged (Table.get?_insert_self _ _ _),
    keeps_paged htried (Table.sameOff_insert (by simp [Step.touches]) _ _),
    { hs.of_desk htried with paged := hs.paged.insert handle ⟨_, rfl⟩ }⟩

theorem takes_openPages (hs : s.Broken) (handle : Handle) : s.Takes (.openPages handle) := by
  obtain ⟨work, hwork, hawait⟩ := request_pages s.desk
  have htried := tried_request hs.idle .pages
  have hstep : s.step (.openPages handle) = (.ok .done, { s with
      desk := (request .pages s.desk).2
      sources := s.sources.insert handle { pageSize := s.desk.world.memory.pageSize } }) := by
    rw [step, hwork, complete, keep_eq (hawait _)]
  exact takes_of_eq hstep ⟨.openPages (Table.get?_insert_self _ _ _),
    keeps_sources htried (Table.sameOff_insert (by simp [Step.touches]) _ _),
    { hs.of_desk htried with }⟩

theorem takes_await (hs : s.Broken) (handle : Handle) : s.Takes (.await handle) := by
  rcases hpending : s.pending.get? handle with - | p
  · refine takes_of_misses hs hpending ?_
    rw [step, hpending]
  -- the work was left at some desk `d`, it may be before the lock broke
  obtain ⟨r, d, hd, rfl⟩ := hs.pending handle p hpending
  have hgone : (s.pending.erase handle).get? handle = none := Table.get?_erase_self _ _
  have herase : s.pending.SameOff
      (fun k => (.pending, k) ∈ (Step.await handle : Step κ α).touches)
      (s.pending.erase handle) := Table.sameOff_erase (by simp [Step.touches]) _
  match r with
  | .call c =>
    obtain ⟨houtcome, htried⟩ : Desk.Refused c.attempts s.desk ((c.start d).1.await s.desk) :=
      (Desk.leavesRefused_start hd c).finish s.desk hs.desk
    have hstep : s.step (.await handle) = (refused, { s with
        desk := ((c.start d).1.await s.desk).world, pending := s.pending.erase handle }) := by
      rw [step, hpending]
      simp only [request, complete, Refusal.outcome_eq, houtcome]
      rfl
    exact takes_of_eq hstep ⟨.awaitCall hd hpending hgone rfl rfl, keeps_pending htried herase,
      { hs.of_desk htried with pending := hs.pending.erase handle }⟩
  | .pass view =>
    obtain ⟨work, hwork, hawait⟩ := request_pass hd view
    have hstep : s.step (.await handle) = (.ok .done, { s with
        pending := s.pending.erase handle
        paged := s.paged.insert handle (freshPaged d view) }) := by
      rw [step, hpending]
      simp only [hwork]
      rw [complete, keep_eq (hawait _)]
    exact takes_of_eq hstep ⟨.awaitPass hd hpending hgone (Table.get?_insert_self _ _ _) rfl,
      (keeps_pending (.refl _) herase).after (keeps_paged (.refl _)
        (Table.sameOff_insert (by simp [Step.touches]) _ _)),
      { hs with pending := hs.pending.erase handle, paged := hs.paged.insert handle ⟨_, rfl⟩ }⟩
  | .pages =>
    obtain ⟨work, hwork, hawait⟩ := request_pages d
    have hstep : s.step (.await handle) = (.ok .done, { s with
        pending := s.pending.erase handle
        sources := s.sources.insert handle { pageSize := d.world.memory.pageSize } }) := by
      rw [step, hpending]
      simp only [hwork]
      rw [complete, keep_eq (hawait _)]
    exact takes_of_eq hstep ⟨.awaitPages hd hpending hgone (Table.get?_insert_self _ _ _) rfl,
      (keeps_pending (.refl _) herase).after (keeps_sources (.refl _)
        (Table.sameOff_insert (by simp [Step.touches]) _ _)),
      { hs with pending := hs.pending.erase handle }⟩

/-! ## Paged passes -/

omit [Std.TransOrd κ] in
/-- A paged pass that is drained comes to its end or fails, and is closed. -/
theorem drain_eq {handle : Handle} {it : PagedEntries (DeskPages κ α) κ α (Item κ α)}
    (hit : s.paged.get? handle = some it)
    (x : PagedEntries (DeskPages κ α) κ α (Item κ α) → Action (Desk κ α) (Option (Answer κ α)))
    {source : Memory.Pages κ} {answer : Answer κ α}
    (houtcome : (x it s.desk).outcome = PagedEntries.whenLocked source answer) :
    s.drain handle x = (if source.drained then .ok answer else refused,
      { s with desk := (x it s.desk).world, paged := s.paged.erase handle }) := by
  simp only [drain, hit]
  generalize x it s.desk = r at houtcome ⊢
  rw [PagedEntries.whenLocked] at houtcome
  rcases r with ⟨b, d'⟩ | ⟨e, d'⟩
  · split at houtcome
    · rename_i hdrained
      cases houtcome
      rw [if_pos hdrained]
      rfl
    · cases houtcome
  · split at houtcome
    · cases houtcome
    · rename_i hdrained
      cases houtcome
      rw [if_neg hdrained]
      rfl

theorem takes_pagedIsEmpty (hs : s.Broken) (handle : Handle) : s.Takes (.pagedIsEmpty handle) := by
  rcases hpaged : s.paged.get? handle with - | it
  · refine takes_of_misses hs hpaged ?_
    rw [step, hpaged]
  · have hstep : s.step (.pagedIsEmpty handle) = (.ok (.flag false), s) := by
      rw [step, hpaged]
      rfl
    exact takes_of_eq hstep ⟨.pagedIsEmpty hpaged, keeps_desk (.refl _), hs⟩

theorem takes_drain (hs : s.Broken) {handle : Handle}
    {it : PagedEntries (DeskPages κ α) κ α (Item κ α)} (hpaged : s.paged.get? handle = some it)
    {x : PagedEntries (DeskPages κ α) κ α (Item κ α) → Action (Desk κ α) (Option (Answer κ α))}
    (hdrain : s.step st = s.drain handle x) (htouches : st.touches = [(.paged, handle)])
    (htried : s.desk.Tried {} (x it s.desk).world) {source : Memory.Pages κ} {answer : Answer κ α}
    (houtcome : (x it s.desk).outcome = PagedEntries.whenLocked source answer)
    (hanswered : ∀ {s'}, s'.paged.get? handle = none →
      s.Answered st (if source.drained then .ok answer else refused) {} s') : s.Takes st :=
  takes_of_eq (hdrain.trans (drain_eq hpaged x houtcome))
    ⟨hanswered (Table.get?_erase_self _ _),
      keeps_paged htried (Table.sameOff_erase (by simp [htouches]) _),
      { hs.of_desk htried with paged := hs.paged.erase handle }⟩

theorem takes_collectEach (hs : s.Broken) (handle : Handle) (script : List (Cue κ α)) :
    s.Takes (.collectEach handle script) := by
  rcases hpaged : s.paged.get? handle with - | ⟨pages, project⟩
  · refine takes_of_misses hs hpaged ?_
    rw [step, drain, hpaged]
  obtain ⟨source, hsource⟩ := hs.paged handle _ hpaged
  obtain rfl : pages = .stored source := hsource
  -- so many pages and one more are allowed, so one is asked for
  obtain ⟨houtcome, htried⟩ := PagedEntries.collectFrom_of_broken hs.desk source JoinRule.ofCount
    project (Desk.collectBy script) (s.desk.world.memory.table.size + Cue.writes script) 0 []
  have hdrain : s.step (.collectEach handle script) = s.drain handle fun it d =>
      (it.collectEach (d.pageLimit script it.source) (Desk.collectBy script) d).map
        (Option.map .items) := by rw [step]
  refine takes_drain hs hpaged hdrain rfl ?_ ?_ (.collectEach hpaged rfl)
  · rw [Result.world_map]
    exact htried
  · rw [Result.outcome_map]
    exact (congrArg (Except.map _) houtcome).trans (PagedEntries.map_whenLocked source _ [])

theorem takes_deliverEach (hs : s.Broken) (handle : Handle) (script : List (Cue κ α)) :
    s.Takes (.deliverEach handle script) := by
  rcases hpaged : s.paged.get? handle with - | ⟨pages, project⟩
  · refine takes_of_misses hs hpaged ?_
    rw [step, drain, hpaged]
  obtain ⟨source, hsource⟩ := hs.paged handle _ hpaged
  obtain rfl : pages = .stored source := hsource
  obtain ⟨houtcome, htried⟩ := PagedEntries.deliverFrom_of_broken hs.desk source project
    (Desk.deliverBy script) (s.desk.world.memory.table.size + Cue.writes script) 0 0
  have hdrain : s.step (.deliverEach handle script) = s.drain handle fun it d =>
      (it.deliverEach (d.pageLimit script it.source) (Desk.deliverBy script) d).map
        (Option.map fun _ => .done) := by rw [step]
  refine takes_drain hs hpaged hdrain rfl ?_ ?_ (.deliverEach hpaged rfl)
  · rw [Result.world_map]
    exact htried
  · rw [Result.outcome_map]
    exact (congrArg (Except.map _) houtcome).trans (PagedEntries.map_whenLocked source _ ())

/-! ## Cursors and page sources -/

theorem takes_openCursor (hs : s.Broken) (handle : Handle) : s.Takes (.openCursor handle) := by
  have hstep : s.step (.openCursor handle) = (.ok .done, { s with
      desk := s.desk.withWorld s.desk.world, cursors := s.cursors.insert handle {} }) := rfl
  have htried : s.desk.Tried {} (s.desk.withWorld s.desk.world) := Desk.tried_of_memory_eq rfl
  exact takes_of_eq hstep ⟨.openCursor (Table.get?_insert_self _ _ _),
    keeps_cursors htried (Table.sameOff_insert (by simp [Step.touches]) _ _),
    { hs.of_desk htried with }⟩

theorem takes_advanceCursor (hs : s.Broken) (handle : Handle) :
    s.Takes (.advanceCursor handle) := by
  rcases hcursor : s.cursors.get? handle with - | position
  · refine takes_of_misses hs hcursor ?_
    rw [step, onCursor, hcursor]
  have hadvance : Cursor.advance (position, s.desk.world) = _ :=
    World.advance_of_poisoned hs.poisoned position
  have hstep : s.step (.advanceCursor handle) = (refused, { s with
      desk := s.desk.withWorld s.desk.world, cursors := s.cursors.insert handle position }) := by
    rw [step, onCursor, hcursor]
    simp only [hadvance]
    rfl
  have htried : s.desk.Tried {} (s.desk.withWorld s.desk.world) := Desk.tried_of_memory_eq rfl
  exact takes_of_eq hstep ⟨.advanceCursor hcursor,
    keeps_cursors htried (Table.sameOff_insert_same hcursor), { hs.of_desk htried with }⟩

theorem takes_removeAtCursor (hs : s.Broken) (handle : Handle) :
    s.Takes (.removeAtCursor handle) := by
  rcases hcursor : s.cursors.get? handle with - | position
  · refine takes_of_misses hs hcursor ?_
    rw [step, onCursor, hcursor]
  have hremove : Cursor.removeCurrent (position, s.desk.world) = _ :=
    World.removeLast_of_poisoned hs.poisoned position
  have hstep : s.step (.removeAtCursor handle) = (.error (.failed position.failure), { s with
      desk := s.desk.withWorld (s.desk.world.tried position.attempts)
      cursors := s.cursors.insert handle position }) := by
    rw [step, onCursor, hcursor]
    simp only [hremove]
    rfl
  have htried := Desk.tried_withWorld position.attempts s.desk
  exact takes_of_eq hstep ⟨.removeAtCursor hcursor,
    keeps_cursors htried (Table.sameOff_insert_same hcursor), { hs.of_desk htried with }⟩

theorem takes_nextPage (hs : s.Broken) (handle : Handle) : s.Takes (.nextPage handle) := by
  rcases hsource : s.sources.get? handle with - | source
  · refine takes_of_misses hs hsource ?_
    rw [step, onPages, hsource]
  have hstep : s.step (.nextPage handle) = (if source.drained then .ok .ended else refused,
      { s with
        desk := s.desk.withWorld s.desk.world, sources := s.sources.insert handle source }) := by
    rw [step, onPages, hsource]
    cases hdrained : source.drained with
    | true =>
      have hnext : PageSource.nextPage (source, s.desk.world) = _ :=
        World.nextPage_of_drained s.desk.world hdrained
      simp only [hnext]
      rfl
    | false =>
      have hnext : PageSource.nextPage (source, s.desk.world) = _ :=
        World.nextPage_of_poisoned hs.poisoned hdrained
      simp only [hnext]
      rfl
  have htried : s.desk.Tried {} (s.desk.withWorld s.desk.world) := Desk.tried_of_memory_eq rfl
  exact takes_of_eq hstep ⟨.nextPage hsource,
    keeps_sources htried (Table.sameOff_insert_same hsource), { hs.of_desk htried with }⟩

/-! ## All steps -/

/-- Behind a broken lock every step that plans no fault is one of the table. -/
theorem Broken.takes (hs : s.Broken) (hplans : st.plans = false) : s.Takes st :=
  match st with
  | .perform _ => takes_perform hs hplans
  | .openPass handle view => takes_openPass hs handle view
  | .hasNext _ | .nextItem _ | .removeCurrent _ | .skipped _ | .next _ => takes_call hs rfl
  | .collect handle => takes_collect hs handle
  | .close handle => takes_close hs handle
  | .openPaged handle view => takes_openPaged hs handle view
  | .pagedIsEmpty handle => takes_pagedIsEmpty hs handle
  | .collectEach handle script => takes_collectEach hs handle script
  | .deliverEach handle script => takes_deliverEach hs handle script
  | .start handle r => takes_start hs handle r
  | .await handle => takes_await hs handle
  | .drop handle => takes_drop hs handle
  | .openCursor handle => takes_openCursor hs handle
  | .advanceCursor handle => takes_advanceCursor hs handle
  | .removeAtCursor handle => takes_removeAtCursor hs handle
  | .openPages handle => takes_openPages hs handle
  | .nextPage handle => takes_nextPage hs handle

end Session

end LazyExpiry
