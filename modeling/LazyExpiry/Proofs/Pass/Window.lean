import LazyExpiry.Proofs.Pass.Logged
import LazyExpiry.World

/-!
# The removal window

An entry may be removed through a pass right after its item was handed out. `WindowOpen`
says so of a history of calls alone : some call handed out an item, and every call since
then was idle, that is, it asked for the count of skipped entries or was a removal that
failed.

Inside a pass the same is told by a flag, while the cursor may already stand past the
entry that the caller saw. What links the two is an invariant of every call (`Windowed`) :
the flag is up exactly in an open window, and then the cursor still stands at the entry
behind the last item. `Tracks here mark` says where a cursor stands, for any account of it
that only an answer of the cursor changes. `removal_window` puts it together for every
cursor and for the store in memory.
-/

namespace LazyExpiry

variable {ω κ α β ρ : Type}

/-! ## The window in a history -/

namespace PassEvent

/-- A call that hands out an item. -/
def Hands (e : PassEvent ρ) (item : ρ) : Prop :=
  (e.call = .nextItem ∨ e.call = .next) ∧ e.outcome = .ok (.item item)

/-- A removal that succeeds. -/
def Removes (e : PassEvent ρ) : Prop := e.call = .removeCurrent ∧ e.outcome = .ok .removed

/-- A call after which an open window is still open. -/
def Idle (e : PassEvent ρ) : Prop :=
  e.call = .skipped ∨ e.call = .removeCurrent ∧ ∃ err, e.outcome = .error err

variable {e : PassEvent ρ} {item : ρ}

theorem Hands.not_idle (h : e.Hands item) : ¬e.Idle := by
  rintro (hc | ⟨hc, -⟩) <;> rcases h.1 with h | h <;> rw [hc] at h <;> cases h

theorem Hands.not_removes (h : e.Hands item) : ¬e.Removes := by
  rintro ⟨hc, -⟩
  rcases h.1 with h | h <;> rw [hc] at h <;> cases h

theorem Removes.not_idle (h : e.Removes) : ¬e.Idle := by
  rintro (hc | ⟨-, err, herr⟩)
  · rw [h.1] at hc
    cases hc
  · rw [h.2] at herr
    cases herr

end PassEvent

/-- The last item was `item`, and it may still be removed. -/
def WindowOpen (past : List (PassEvent ρ)) (item : ρ) : Prop :=
  ∃ before handing after, past = before ++ handing :: after ∧ handing.Hands item ∧
    ∀ e ∈ after, e.Idle

/-- Every removal that succeeded fell into an open window. -/
def RemovalsInWindow (past : List (PassEvent ρ)) : Prop :=
  ∀ ⦃before e after⦄, past = before ++ e :: after → e.Removes → ∃ item, WindowOpen before item

theorem not_windowOpen_nil (item : ρ) : ¬WindowOpen [] item := by
  rintro ⟨before, handing, after, h, -⟩
  simp at h

theorem windowOpen_snoc {past : List (PassEvent ρ)} {e : PassEvent ρ} {item : ρ} :
    WindowOpen (past ++ [e]) item ↔ e.Hands item ∨ e.Idle ∧ WindowOpen past item := by
  constructor
  · rintro ⟨before, handing, after, h, hands, hidle⟩
    rcases split_append_singleton h with ⟨-, rfl, -⟩ | ⟨after, rfl, hpast⟩
    · exact .inl hands
    · exact .inr ⟨hidle e (by simp), before, handing, after, hpast, hands, fun d hd =>
        hidle d (by simp [hd])⟩
  · rintro (hands | ⟨he, before, handing, after, rfl, hands, hidle⟩)
    · exact ⟨past, e, [], rfl, hands, by simp⟩
    · refine ⟨before, handing, after ++ [e], by simp, hands, fun d hd => ?_⟩
      rcases List.mem_append.mp hd with hd | hd
      · exact hidle d hd
      · rwa [List.mem_singleton.mp hd]

theorem removalsInWindow_nil : RemovalsInWindow ([] : List (PassEvent ρ)) := by
  intro before e after h
  simp at h

theorem RemovalsInWindow.snoc {past : List (PassEvent ρ)} {e : PassEvent ρ}
    (h : RemovalsInWindow past) (he : e.Removes → ∃ item, WindowOpen past item) :
    RemovalsInWindow (past ++ [e]) := by
  intro before d after hsplit hd
  rcases split_append_singleton hsplit with ⟨rfl, rfl, -⟩ | ⟨after, -, hpast⟩
  · exact he hd
  · exact h hpast hd

/-- Between two removals that succeed an item is handed out, so no item is removed twice. -/
theorem RemovalsInWindow.hands_between {before between after : List (PassEvent ρ)}
    {e e' : PassEvent ρ} (h : RemovalsInWindow (before ++ e :: between ++ e' :: after))
    (he : e.Removes) (he' : e'.Removes) : ∃ d ∈ between, ∃ item, d.Hands item := by
  obtain ⟨item, left, handing, right, hsplit, hands, hidle⟩ := h rfl he'
  -- the item handed out last lies behind `e`, which is neither that call nor idle
  rcases List.append_eq_append_iff.mp hsplit with
    ⟨_ | ⟨d, l⟩, rfl, hcons⟩ | ⟨_ | ⟨d, l⟩, rfl, hcons⟩
  · obtain ⟨rfl, -⟩ := List.cons.inj hcons
    exact absurd he hands.not_removes
  · obtain ⟨rfl, rfl⟩ := List.cons.inj hcons
    exact ⟨handing, by simp, item, hands⟩
  · obtain ⟨rfl, -⟩ := List.cons.inj hcons
    exact absurd he hands.not_removes
  · obtain ⟨rfl, rfl⟩ := List.cons.inj hcons
    exact absurd (hidle e (by simp)) he.not_idle

/-! ## Where the cursor stands -/

section Tracks

/-- `here` tells where a cursor stands : at what `mark` makes of the entry that it answered
last, which nothing but another answer changes. -/
structure Tracks [Context ω] [Cursor ω κ (Stamped α)] (here : ω → β) (mark : κ × Stamped α → β) :
    Prop where
  advance : ∀ {w w' e}, Cursor.advance w = .ok (some e) w' → here w' = mark e
  removeCurrent : ∀ w : ω, here (Cursor.removeCurrent w).world = here w
  now : ∀ w : ω, here (Context.now w).2 = here w
  isLive : ∀ writtenAt now (w : ω), here (Context.isLive writtenAt now w).2 = here w
  note : ∀ event (w : ω), here (Context.note event w) = here w

/-- The cursor stands at an entry with that key and that value. -/
def StandsAt (here : ω → β) (mark : κ × Stamped α → β) (w : ω) (key : κ) (value : Option α) :
    Prop :=
  ∃ stored, here w = mark (key, stored) ∧ stored.value = value

variable {here : ω → β} {mark : κ × Stamped α → β}

namespace LiveEntries

/-- The cursor stands at the entry that the pass keeps, if it keeps one. -/
def KeepsHere (here : ω → β) (mark : κ × Stamped α → β) (s : LiveEntries κ α ρ × ω) : Prop :=
  ∀ ⦃key value⦄, s.1.lookahead = .buffered key value → StandsAt here mark s.2 key value

/-- The window is shut, and a kept entry is the one that the cursor stands at. -/
structure Shut (here : ω → β) (mark : κ × Stamped α → β) (project : κ → Option α → ρ)
    (s : LiveEntries κ α ρ × ω) : Prop where
  project_eq : s.1.project = project
  removable_eq : s.1.removable = false
  keepsHere : KeepsHere here mark s

/-- The window is open for an item that is made of the entry the cursor stands at. -/
structure Open (here : ω → β) (mark : κ × Stamped α → β) (project : κ → Option α → ρ)
    (item : ρ) (s : LiveEntries κ α ρ × ω) : Prop where
  project_eq : s.1.project = project
  removable_eq : s.1.removable = true
  lookahead_eq : s.1.lookahead = .fresh
  item_eq : ∃ key value, StandsAt here mark s.2 key value ∧ item = project key value

variable {project : κ → Option α → ρ} {s : LiveEntries κ α ρ × ω}

theorem Open.keepsHere {item : ρ} (h : Open here mark project item s) : KeepsHere here mark s := by
  intro key value hl
  rw [h.lookahead_eq] at hl
  cases hl

/-- The flag of the pass tells what the history tells, and in an open window the cursor
stands at the entry behind the last item. -/
structure Windowed (here : ω → β) (mark : κ × Stamped α → β) (project : κ → Option α → ρ)
    (past : List (PassEvent ρ)) (s : LiveEntries κ α ρ × ω) : Prop where
  project_eq : s.1.project = project
  keepsHere : KeepsHere here mark s
  removable_iff : s.1.removable = true ↔ ∃ item, WindowOpen past item
  item_eq : ∀ {item}, WindowOpen past item →
    ∃ key value, StandsAt here mark s.2 key value ∧ item = project key value
  removals : RemovalsInWindow past

variable {past : List (PassEvent ρ)} {e : PassEvent ρ} {s' : LiveEntries κ α ρ × ω}

/-- A call that hands out an item opens the window for it. -/
theorem Windowed.of_open {item : ρ} (h : Open here mark project item s)
    (hpast : RemovalsInWindow past) (he : e.Hands item) :
    Windowed here mark project (past ++ [e]) s where
  project_eq := h.project_eq
  keepsHere := h.keepsHere
  removable_iff := ⟨fun _ => ⟨item, windowOpen_snoc.mpr (.inl he)⟩, fun _ => h.removable_eq⟩
  item_eq hopen := by
    rcases windowOpen_snoc.mp hopen with ⟨-, hout⟩ | ⟨hidle, -⟩
    · rw [he.2] at hout
      cases hout
      exact h.item_eq
    · exact absurd hidle he.not_idle
  removals := hpast.snoc fun hr => absurd hr he.not_removes

/-- Any other call that is not idle shuts it. -/
theorem Windowed.of_shut (h : Shut here mark project s) (hpast : RemovalsInWindow past)
    (hands : ∀ item, ¬e.Hands item) (hidle : ¬e.Idle)
    (hr : e.Removes → ∃ item, WindowOpen past item) :
    Windowed here mark project (past ++ [e]) s := by
  have shut : ∀ item, ¬WindowOpen (past ++ [e]) item := fun item hopen =>
    (windowOpen_snoc.mp hopen).elim (hands item) fun h => hidle h.1
  refine ⟨h.project_eq, h.keepsHere, ?_, fun hopen => absurd hopen (shut _), hpast.snoc hr⟩
  rw [h.removable_eq]
  exact ⟨fun hf => absurd hf Bool.false_ne_true, fun ⟨item, hopen⟩ => absurd hopen (shut item)⟩

/-- An idle call leaves the window as it is. -/
theorem Windowed.of_idle (h : Windowed here mark project past s) (hpass : s'.1 = s.1)
    (hhere : here s'.2 = here s.2) (hidle : e.Idle) :
    Windowed here mark project (past ++ [e]) s' := by
  have same : ∀ item, WindowOpen (past ++ [e]) item ↔ WindowOpen past item := fun item => by
    rw [windowOpen_snoc, and_iff_right hidle]
    exact or_iff_right fun hands => hands.not_idle hidle
  constructor
  · rw [hpass]
    exact h.project_eq
  · intro key value hl
    rw [hpass] at hl
    exact (h.keepsHere hl).imp fun stored hs => ⟨hhere.trans hs.1, hs.2⟩
  · rw [hpass, h.removable_iff]
    exact exists_congr fun item => (same item).symm
  · intro item hopen
    obtain ⟨key, value, ⟨stored, hs, hv⟩, hitem⟩ := h.item_eq ((same item).mp hopen)
    exact ⟨key, value, ⟨stored, hhere.trans hs, hv⟩, hitem⟩
  · exact h.removals.snoc fun hr => absurd hidle hr.not_idle

/-- Others who leave the cursor where it is leave the window as it is. -/
theorem Windowed.elsewhere (h : Windowed here mark project past s) (change : ω → ω)
    (hhere : ∀ w, here (change w) = here w) :
    Windowed here mark project past (s.1, change s.2) where
  project_eq := h.project_eq
  keepsHere _ _ hl := (h.keepsHere hl).imp fun _ hs => ⟨(hhere _).trans hs.1, hs.2⟩
  removable_iff := h.removable_iff
  item_eq hopen := by
    obtain ⟨key, value, ⟨stored, hs, hv⟩, hitem⟩ := h.item_eq hopen
    exact ⟨key, value, ⟨stored, (hhere _).trans hs, hv⟩, hitem⟩
  removals := h.removals

/-- A fresh pass has not handed out anything. -/
theorem windowed_fresh (w : ω) :
    Windowed here mark project [] (({ project } : LiveEntries κ α ρ), w) where
  project_eq := rfl
  keepsHere _ _ hl := by cases hl
  removable_iff :=
    ⟨fun hf => absurd hf Bool.false_ne_true, fun ⟨item, h⟩ => absurd h (not_windowOpen_nil item)⟩
  item_eq h := absurd h (not_windowOpen_nil _)
  removals := removalsInWindow_nil

end LiveEntries

end Tracks

/-! ## The invariant of a run -/

section Run

variable [Context ω] {here : ω → β} {mark : κ × Stamped α → β}

/-- What is shown of a stored value is that value. -/
theorem value_of_judge {stored : Stamped α} {now : Timestamp} {w : ω} {value : Option α}
    (h : (judge (some stored) now w).1 = some value) : stored.value = value := by
  obtain ⟨- | v, writtenAt⟩ := stored
  · exact Option.some.inj h
  · simp only [judge] at h
    split at h
    · exact Option.some.inj h
    · cases h

variable [Cursor ω κ (Stamped α)]

theorem Tracks.judge (ht : Tracks here mark) (stored : Option (Stamped α)) (now : Timestamp)
    (w : ω) : here (LazyExpiry.judge stored now w).2 = here w := by
  rcases stored with - | ⟨_ | v, writtenAt⟩
  · rfl
  · rfl
  · exact ht.isLive _ _ w

theorem Tracks.pull (ht : Tracks here mark) {w w' : ω} {key : κ} {value : Option α}
    (h : LazyExpiry.pull w = .ok (.live key value) w') : StandsAt here mark w' key value := by
  unfold LazyExpiry.pull at h
  split at h
  · cases h
  · cases h
  · rename_i stored w₁ hadv
    dsimp only at h
    split at h
    · rename_i hj
      cases h
      exact ⟨stored, by rw [ht.judge, ht.now, ht.advance hadv], value_of_judge hj⟩
    · cases h

namespace LiveEntries

variable {project : κ → Option α → ρ} {s : LiveEntries κ α ρ × ω}

theorem Sought.standsAt (ht : Tracks here mark) {skipped : UInt64} {w : ω} {key : κ}
    {value : Option α} {s : UInt64 × ω} (h : Sought skipped w (.ok (some (key, value)) s)) :
    StandsAt here mark s.2 key value := by
  generalize hr : Result.ok (some (key, value)) s = r at h
  induction h with
  | failed => cases hr
  | found hp =>
    cases hr
    exact ht.pull hp
  | passed _ _ ih => exact ih hr
  | ended => cases hr

/-- Looking ahead shuts the window. -/
theorem shut_of_hasNext? (ht : Tracks here mark) (hp : s.1.project = project)
    (hk : KeepsHere here mark s) {r : Result (LiveEntries κ α ρ × ω) Bool}
    (h : hasNext? s = some r) : Shut here mark project r.world := by
  rcases hasNext?_cases h with ⟨b, rfl⟩ | ⟨found, hf, hfresh, rfl⟩
  · exact ⟨hp, rfl, hk⟩
  · rcases found with ⟨- | ⟨key, value⟩, s'⟩ | ⟨e, s'⟩
    · exact ⟨hp, rfl, fun _ _ hb => by cases hb⟩
    · refine ⟨hp, rfl, fun _ _ hb => ?_⟩
      cases hb
      exact (sought_of_seek? hf).standsAt ht
    · refine ⟨hp, rfl, fun _ _ hb => ?_⟩
      simp only [settle, Result.world_error, hfresh, reduceCtorEq] at hb

/-- An item opens the window, and without one it is shut. -/
theorem open_or_shut_of_nextItem? (ht : Tracks here mark) (hp : s.1.project = project)
    (hk : KeepsHere here mark s) {r : Result (LiveEntries κ α ρ × ω) ρ}
    (h : nextItem? s = some r) :
    match r with
    | .ok item s' => Open here mark project item s'
    | .error _ s' => Shut here mark project s' := by
  rcases nextItem?_cases h with ⟨s', key, value, hl, hb, rfl⟩ | ⟨looked, e, hl, rfl⟩
  · have hshut := shut_of_hasNext? ht hp hk hl
    have hproject : s'.1.project = project := hshut.project_eq
    exact ⟨hproject, rfl, rfl, key, value, hshut.keepsHere hb, by rw [hproject]⟩
  · exact shut_of_hasNext? ht hp hk hl

/-- So it is with the pass as a sequence. -/
theorem open_or_shut_of_next? (ht : Tracks here mark) (hp : s.1.project = project)
    (hk : KeepsHere here mark s) {r : Result (LiveEntries κ α ρ × ω) (Option ρ)}
    (h : next? s = some r) :
    match r with
    | .ok (some item) s' => Open here mark project item s'
    | .ok none s' => Shut here mark project s'
    | .error _ s' => Shut here mark project s' := by
  rcases next?_cases h with ⟨handed, hi, rfl⟩ | ⟨s', hl, rfl⟩ | ⟨e, s', hl, rfl⟩
  · have := open_or_shut_of_nextItem? ht hp hk hi
    rcases handed with _ | _ <;> exact this
  · exact shut_of_hasNext? ht hp hk hl
  · have hshut := shut_of_hasNext? ht hp hk hl
    exact ⟨hshut.project_eq, hshut.removable_eq, fun _ _ hb => by cases hb⟩

variable {past : List (PassEvent ρ)} {s' : LiveEntries κ α ρ × ω}

theorem Windowed.removeCurrent (ht : Tracks here mark) (h : Windowed here mark project past s) :
    Windowed here mark project
      (past ++ [⟨.removeCurrent, ((removeCurrent s).map fun _ => PassAnswer.removed).outcome⟩])
      (removeCurrent s).world := by
  rw [removeCurrent_eq]
  split
  · rename_i hr
    have hhere := ht.removeCurrent s.2
    rcases hc : Cursor.removeCurrent s.2 with ⟨_, w⟩ | ⟨e, w⟩ <;> rw [hc] at hhere
    · refine of_shut ⟨h.project_eq, rfl, fun _ _ hl => ?_⟩ h.removals ?_ ?_ fun _ =>
        h.removable_iff.mp hr
      · exact (h.keepsHere hl).imp fun stored hs => ⟨hhere.trans hs.1, hs.2⟩
      · rintro item ⟨hcall | hcall, -⟩ <;> cases hcall
      · rintro (hcall | ⟨-, err, herr⟩)
        · cases hcall
        · cases herr
    · exact h.of_idle rfl hhere (.inr ⟨rfl, e, rfl⟩)
  · exact h.of_idle rfl rfl (.inr ⟨rfl, _, rfl⟩)

/-- Every call keeps the invariant. -/
theorem Windowed.call? (ht : Tracks here mark) (h : Windowed here mark project past s)
    {c : PassCall} {r : Result (LiveEntries κ α ρ × ω) (PassAnswer ρ)}
    (hr : LiveEntries.call? c s = some r) :
    Windowed here mark project (past ++ [⟨c, r.outcome⟩]) r.world := by
  match c with
  | .hasNext =>
    obtain ⟨looked, hl, rfl⟩ := Option.map_eq_some_iff.mp hr
    have hshut := shut_of_hasNext? ht h.project_eq h.keepsHere hl
    rcases looked with _ | _ <;>
      exact of_shut hshut h.removals (by simp [PassEvent.Hands]) (by simp [PassEvent.Idle])
        (by simp [PassEvent.Removes])
  | .nextItem =>
    obtain ⟨handed, hi, rfl⟩ := Option.map_eq_some_iff.mp hr
    have hstate := open_or_shut_of_nextItem? ht h.project_eq h.keepsHere hi
    rcases handed with ⟨item, s'⟩ | ⟨e, s'⟩
    · exact of_open hstate h.removals ⟨.inl rfl, rfl⟩
    · exact of_shut hstate h.removals (by simp [PassEvent.Hands]) (by simp [PassEvent.Idle])
        (by simp [PassEvent.Removes])
  | .next =>
    obtain ⟨handed, hi, rfl⟩ := Option.map_eq_some_iff.mp hr
    have hstate := open_or_shut_of_next? ht h.project_eq h.keepsHere hi
    rcases handed with ⟨- | item, s'⟩ | ⟨e, s'⟩
    · exact of_shut hstate h.removals (by simp [PassEvent.Hands, PassAnswer.ofNext])
        (by simp [PassEvent.Idle]) (by simp [PassEvent.Removes])
    · exact of_open hstate h.removals ⟨.inr rfl, rfl⟩
    · exact of_shut hstate h.removals (by simp [PassEvent.Hands]) (by simp [PassEvent.Idle])
        (by simp [PassEvent.Removes])
  | .removeCurrent =>
    cases hr
    have := h.removeCurrent ht
    rcases hc : LiveEntries.removeCurrent s with _ | _ <;> rw [hc] at this <;> exact this
  | .skipped =>
    cases hr
    exact h.of_idle rfl rfl (.inl rfl)

/-- The invariant holds after every run in which others leave the cursor where it is. -/
theorem Windowed.run? (ht : Tracks here mark) {steps : List (PassStep ω)}
    (helsewhere : ∀ {change}, .elsewhere change ∈ steps → ∀ w, here (change w) = here w)
    {history : List (PassEvent ρ)} {w : ω}
    (h : LiveEntries.run? steps ({ project }, w) = some (history, s')) :
    Windowed here mark project history s' :=
  run?_invariant (fun h hr => h.call? ht hr) (fun hmem h => h.elsewhere _ (helsewhere hmem))
    (windowed_fresh w) h

end LiveEntries

end Run

/-! ## Two accounts of where a cursor stands -/

/-- What the cursor answered when it was advanced last. -/
def lastAdvance (log : List (Asked κ α)) : Option (Except StoreError (Option (κ × Stamped α))) :=
  log.reverse.findSome? fun
    | .advanced answer => some answer
    | _ => none

/-- In a log the cursor stands at the entry that it answered last. -/
theorem tracks_lastAdvance [Context ω] [Cursor ω κ (Stamped α)] :
    Tracks (fun r : Logged ω κ α => lastAdvance r.log) fun e => some (.ok (some e)) where
  advance := by
    intro r r' e h
    obtain ⟨w', hw', rfl⟩ := Result.mapWorld_eq_ok_iff.mp h
    simp [lastAdvance, Logged.ask, hw']
  removeCurrent r := by
    simp only [Cursor.removeCurrent]
    rcases Cursor.removeCurrent r.world with _ | _ <;> simp [lastAdvance, Logged.ask]
  now _ := by simp [lastAdvance, Context.now, Logged.ask]
  isLive _ _ _ := by simp [lastAdvance, Context.isLive, Logged.ask]
  note _ _ := rfl

/-- In memory a cursor stands at the key that its position names. -/
theorem tracks_position [Ord κ] [Std.TransOrd κ] :
    Tracks (fun s : Memory.Position κ × World κ α => s.1.last) fun e => some e.1 where
  advance := by
    intro s s' e h
    obtain ⟨p, hp, rfl⟩ := Result.mapWorld_eq_ok_iff.mp h
    unfold Memory.advance at hp
    split at hp <;> cases hp
    rfl
  removeCurrent s := by
    obtain ⟨⟨_ | key⟩, w⟩ := s
    · rfl
    · simp only [Cursor.removeCurrent, World.atPosition, Action.focus, Memory.removeLast]
      rcases Memory.delete key w.memory with _ | _ <;> rfl
  now _ := rfl
  isLive _ _ _ := rfl
  note _ _ := rfl

/-- Two accounts are one account of both. -/
theorem Tracks.prod {γ : Type} [Context ω] [Cursor ω κ (Stamped α)] {here : ω → β}
    {mark : κ × Stamped α → β} {there : ω → γ} {sign : κ × Stamped α → γ} (h : Tracks here mark)
    (h' : Tracks there sign) : Tracks (fun w => (here w, there w)) fun e => (mark e, sign e) where
  advance hadv := by rw [h.advance hadv, h'.advance hadv]
  removeCurrent w := by rw [h.removeCurrent, h'.removeCurrent]
  now w := by rw [h.now, h'.now]
  isLive writtenAt now w := by rw [h.isLive, h'.isLive]
  note event w := by rw [h.note, h'.note]

/-- An account of a world is one of any world that mirrors it. -/
theorem Tracks.comap {σ : Type} [Context ω] [Cursor ω κ (Stamped α)] [Context σ]
    [Cursor σ κ (Stamped α)] {view : ω → σ} {here : σ → β} {mark : κ × Stamped α → β}
    (h : Tracks here mark) (hv : Mirrors view) : Tracks (fun w => here (view w)) mark where
  advance {w w' e} hadv := h.advance (by rw [hv.advance, hadv]; rfl)
  removeCurrent w := by
    have := h.removeCurrent (view w)
    rwa [hv.removeCurrent, Result.world_mapWorld] at this
  now w := by
    have := h.now (view w)
    rwa [hv.now] at this
  isLive writtenAt now w := by
    have := h.isLive writtenAt now (view w)
    rwa [hv.isLive] at this
  note event w := by
    have := h.note event (view w)
    rwa [hv.note] at this

/-! ## The rule -/

namespace LiveEntries

section Rule

variable [Cursor ω κ (Stamped α)]

/-- A removal forwarded to the cursor. -/
def forwardRemoval (it : LiveEntries κ α ρ) (w : ω) : Result (LiveEntries κ α ρ × ω) Unit :=
  match Cursor.removeCurrent w with
  | .ok () w' => .ok () ({ it with removable := false }, w')
  | .error e w' => .error e (it, w')

/-- What a removal does after a run with that history and that log. -/
structure RemovalRule (project : κ → Option α → ρ) (history : List (PassEvent ρ))
    (it : LiveEntries κ α ρ) (w : ω) (log : List (Asked κ α)) : Prop where
  /-- In an open window it is forwarded, and the cursor has not moved off the entry behind
  the last item. -/
  forwarded : ∀ {item}, WindowOpen history item →
    removeCurrent (it, w) = forwardRemoval it w ∧
      ∃ key stored, lastAdvance log = some (.ok (some (key, stored))) ∧
        item = project key stored.value
  /-- If the cursor fails, so does the removal, and the next one is forwarded again. -/
  retried : ∀ {item e w'}, WindowOpen history item → Cursor.removeCurrent w = .error e w' →
    removeCurrent (it, w) = .error e (it, w') ∧ removeCurrent (it, w') = forwardRemoval it w'
  /-- In a shut window nothing is asked of the cursor and nothing changes. -/
  refused : (∀ item, ¬WindowOpen history item) →
    ∀ v : Logged ω κ α, removeCurrent (it, v) = .error .invalidIteratorState (it, v)
  /-- Removals that succeeded fell into open windows, so an item was handed out between any
  two of them. -/
  removals : RemovalsInWindow history
  handed : ∀ {before between after e e'}, history = before ++ e :: between ++ e' :: after →
    e.Removes → e'.Removes → ∃ d ∈ between, ∃ item, d.Hands item

variable {here : ω → β} {mark : κ × Stamped α → β} {project : κ → Option α → ρ}
  {history : List (PassEvent ρ)} {it : LiveEntries κ α ρ} {w : ω}

theorem removeCurrent_of_removable (h : it.removable = true) :
    removeCurrent (it, w) = forwardRemoval it w := by
  rw [removeCurrent_eq, if_pos h]
  rfl

theorem removeCurrent_of_not_removable (h : it.removable = false) :
    removeCurrent (it, w) = .error .invalidIteratorState (it, w) := by
  rw [removeCurrent_eq, if_neg (by simp [h])]

theorem Windowed.removalRule {log : List (Asked κ α)}
    (h : Windowed (fun r : Logged ω κ α => lastAdvance r.log) (fun e => some (.ok (some e))) project
      history (it, ⟨w, log⟩)) : RemovalRule project history it w log where
  forwarded {item} hopen := by
    obtain ⟨key, value, ⟨stored, hlast, rfl⟩, hitem⟩ := h.item_eq hopen
    have hr := h.removable_iff.mpr ⟨item, hopen⟩
    exact ⟨removeCurrent_of_removable hr, key, stored, hlast, hitem⟩
  retried {item e w'} hopen hfail := by
    have hr := h.removable_iff.mpr ⟨item, hopen⟩
    refine ⟨?_, removeCurrent_of_removable hr⟩
    rw [removeCurrent_of_removable hr, forwardRemoval, hfail]
  refused hshut v := by
    refine removeCurrent_of_not_removable (Bool.eq_false_iff.mpr fun hr => ?_)
    obtain ⟨item, hopen⟩ := h.removable_iff.mp hr
    exact hshut item hopen
  removals := h.removals
  handed := by
    rintro before between after e e' rfl he he'
    exact h.removals.hands_between he he'

end Rule

/-- A change of the store by others, which leaves the positions in it alone. -/
def beside {γ : Type} (change : ω → ω) (s : γ × ω) : γ × ω := (s.1, change s.2)

section Memory

variable [Ord κ] [Std.TransOrd κ] {here : Logged (Memory.Position κ × World κ α) κ α → β}

/-- Forwarded to a store in memory that is not poisoned, a removal deletes the key at the
position. -/
theorem forwardRemoval_position {it : LiveEntries κ α ρ} {w : World κ α} {key : κ}
    (h : w.memory.poisoned = false) :
    forwardRemoval it (({ last := some key } : Memory.Position κ), w) =
      .ok () ({ it with removable := false }, { last := some key },
        { w with memory := (Memory.delete key w.memory).world }) := by
  simp [forwardRemoval, Cursor.removeCurrent, World.atPosition, Action.focus, Memory.removeLast,
    Memory.delete_of_not_poisoned h]

/-- After every run of a pass, whatever its cursor answers and whatever others do between
the calls, a removal follows the rule of the window. Over a store in memory it deletes the
key behind the last item, in every view, and nothing else. -/
theorem removal_window (project : κ → Option α → ρ) :
    (∀ {ω : Type} [Context ω] [Cursor ω κ (Stamped α)] {w w' : ω} {steps : List (PassStep ω)}
        {history : List (PassEvent ρ)} {it : LiveEntries κ α ρ},
      run? steps ({ project }, w) = some (history, it, w') →
        ∃ log, run? (steps.map (.lift Logged.elsewhere)) ({ project }, ⟨w, []⟩) =
            some (history, it, ⟨w', log⟩) ∧
          RemovalRule project history it w' log) ∧
    ∀ {w w' : World κ α} {position : Memory.Position κ} {steps : List (PassStep (World κ α))}
        {history : List (PassEvent ρ)} {it : LiveEntries κ α ρ} {item : ρ} [Std.LawfulEqOrd κ]
        [DecidableEq κ],
      run? (steps.map (.lift beside)) ({ project }, {}, w) = some (history, it, position, w') →
      WindowOpen history item → w'.memory.poisoned = false →
        ∃ log key stored memory,
          run? ((steps.map (.lift beside)).map (.lift Logged.elsewhere))
              ({ project }, ⟨({}, w), []⟩) = some (history, it, ⟨(position, w'), log⟩) ∧
          lastAdvance log = some (.ok (some (key, stored))) ∧ item = project key stored.value ∧
          removeCurrent (it, position, w') =
            .ok () ({ it with removable := false }, position, { w' with memory }) ∧
          ∀ j, memory.table.get? j = if j = key then none else w'.memory.table.get? j := by
  refine ⟨fun h => ?_, fun {w w' position steps history it item} _ _ h hopen hlock => ?_⟩
  · obtain ⟨log, hlog⟩ := run?_logged [] h
    refine ⟨log, hlog, (Windowed.run? tracks_lastAdvance (fun hmem r => ?_) hlog).removalRule⟩
    obtain ⟨_ | _, -, ⟨⟩⟩ := List.mem_map.mp hmem
    rfl
  · obtain ⟨log, hlog⟩ := run?_logged [] h
    have tracks := tracks_lastAdvance.prod
      (tracks_position.comap (Logged.mirrors_world (ω := Memory.Position κ × World κ α)))
    have hw := Windowed.run? tracks (fun hmem r => ?_) hlog
    · obtain ⟨key, value, ⟨stored, hhere, rfl⟩, hitem⟩ := hw.item_eq hopen
      obtain ⟨hlast, hkey⟩ := Prod.mk.inj hhere
      obtain ⟨last⟩ := position
      obtain rfl : last = some key := hkey
      refine ⟨log, key, stored, (Memory.delete key w'.memory).world, hlog, hlast, hitem, ?_,
        fun j => ?_⟩
      · rw [removeCurrent_of_removable (hw.removable_iff.mpr ⟨item, hopen⟩)]
        exact forwardRemoval_position hlock
      · rw [Memory.delete_of_not_poisoned hlock, Result.world_ok, Table.get?_erase]
    · obtain ⟨step, hstep, heq⟩ := List.mem_map.mp hmem
      obtain ⟨_ | _, -, rfl⟩ := List.mem_map.mp hstep <;> cases heq
      rfl

end Memory

/-- A store with an explicit null behind an expired value. -/
def nullBehindExpired : World Nat Nat where
  memory := { table := ⟨[(1, ⟨some 10, 0⟩), (2, ⟨none, 0⟩)], by decide⟩ }
  policy := .never

/-- What a search for a live entry leaves of it. -/
def nullFound : World Nat Nat := { nullBehindExpired with asked := 1, events := [.skipping 0] }

theorem seek?_nullBehindExpired : seek? 0 (({} : Memory.Position Nat), nullBehindExpired) =
    some (.ok (some (2, none)) (1, { last := some 2 }, nullFound)) :=
  Sought.seek?_eq (.passed rfl (.found rfl))

/-- The item and the count of skipped entries are asked for, and others do nothing. -/
def nullSteps : List (PassStep (World Nat Nat)) := [.call .nextItem, .elsewhere id, .call .skipped]

/-- The history that they leave. -/
def nullHistory : List (PassEvent (Option Nat)) :=
  [⟨.nextItem, .ok (.item none)⟩, ⟨.skipped, .ok (.count 1)⟩]

/-- The pass after them. -/
def nullHanded : LiveEntries Nat Nat (Option Nat) :=
  { project := fun _ value => value, removable := true, skipped := 1 }

theorem run?_nullSteps :
    run? (nullSteps.map (.lift beside))
        (({ project := fun _ value => value } : LiveEntries Nat Nat (Option Nat)),
          ({} : Memory.Position Nat), nullBehindExpired) =
      some (nullHistory, nullHanded, { last := some 2 }, nullFound) := by
  simp only [nullSteps, List.map, PassStep.lift, run?, call?, nextItem?, hasNext?,
    seek?_nullBehindExpired]
  rfl

theorem windowOpen_nullHistory : WindowOpen nullHistory none :=
  ⟨[], ⟨.nextItem, .ok (.item none)⟩, [⟨.skipped, .ok (.count 1)⟩], rfl, ⟨.inl rfl, rfl⟩,
    by simp [PassEvent.Idle]⟩

/-- A null is handed out as a value, and it is removed under its key. -/
theorem removal_window_null :
    (∃ log : List (Asked Nat Nat),
      RemovalRule (fun _ value => value) nullHistory nullHanded
        (({ last := some 2 } : Memory.Position Nat), nullFound) log) ∧
    ∃ (log : List (Asked Nat Nat)) (key : Nat) (stored : Stamped Nat)
        (memory : Memory Nat (Stamped Nat)),
      lastAdvance log = some (.ok (some (key, stored))) ∧ none = stored.value ∧
      removeCurrent (nullHanded, ({ last := some 2 } : Memory.Position Nat), nullFound) =
        .ok () ({ nullHanded with removable := false }, { last := some 2 },
          { nullFound with memory }) ∧
      ∀ j, memory.table.get? j = if j = key then none else nullFound.memory.table.get? j := by
  obtain ⟨log, -, hrule⟩ := (removal_window fun _ value => value).1 run?_nullSteps
  obtain ⟨log', key, stored, memory, -, hlast, hitem, hremove, hrest⟩ :=
    (removal_window fun _ value => value).2 run?_nullSteps windowOpen_nullHistory rfl
  exact ⟨⟨log, hrule⟩, log', key, stored, memory, hlast, hitem, hremove, hrest⟩

end LiveEntries

end LazyExpiry
