import Mathlib.Data.List.Basic
import LazyExpiry.Proofs.Pass.Again
import LazyExpiry.World
import LazyExpiry.Watched

/-!
# Looking ahead loses, repeats and reorders nothing

`Conserves` reads the law of a pass off a film, clause by clause : when the clock is read,
which items there are, how many entries were pulled, and where a failure goes.
`lookahead_conserves` says that it holds after every run of a pass, whatever its cursor
answers, and that calls for items are answered alike with and without other calls between
them.
-/

namespace LazyExpiry

variable {ω κ α ρ : Type}

/-! ## Judgements by a policy -/

/-- Every value was judged by `policy`. -/
def JudgesBy (policy : Policy) (log : List (Asked κ α)) : Prop :=
  ∀ ⦃writtenAt now live⦄, .judged writtenAt now live ∈ log → live = policy writtenAt now

theorem Turn.judgedBy_of_mem {policy : Policy} {turns : List (Turn κ α)} {t : Turn κ α}
    (h : JudgesBy policy (turns.flatMap Turn.asked)) (ht : t ∈ turns) : t.JudgedBy policy := by
  match t with
  | .value key v writtenAt now live =>
    exact h (List.mem_flatMap.mpr ⟨_, ht, by simp [Turn.asked]⟩)
  | .null _ _ _ => trivial
  | .ended => trivial
  | .failed _ => trivial

section Looked

variable {known : Lookahead κ α} {turns : List (Turn κ α)}
  {answer : Except StoreError (Option (κ × Option α))} {e : StoreError}

/-- A failure of the cursor ends the search, and is what it comes to. -/
theorem Looked.of_failed (h : Looked known turns answer) (he : .failed e ∈ turns) :
    known = .fresh ∧ answer = .error e ∧ ∃ passed, turns = passed ++ [.failed e] ∧
      ∀ u ∈ passed, u.expired = true := by
  cases h with
  | kept => simp at he
  | exhausted => simp at he
  | @sought passed last _ hpassed hlast =>
    rcases List.mem_append.mp he with he | he
    · cases hpassed _ he
    · obtain rfl : .failed e = last := List.mem_singleton.mp he
      rw [Turn.answer?_eq_error_iff.mpr rfl, Option.some.injEq] at hlast
      exact ⟨rfl, hlast.symm, passed, rfl, hpassed⟩

theorem Looked.failed_mem (h : Looked known turns (.error e)) : .failed e ∈ turns := by
  generalize hanswer : Except.error e = answer at h
  cases h with
  | kept => cases hanswer
  | exhausted => cases hanswer
  | sought _ hlast =>
    rw [← hanswer, Turn.answer?_eq_error_iff] at hlast
    simp [hlast]

/-- There is no entry because it is known, or because the cursor says so. -/
theorem Looked.ended (h : Looked known turns (.ok none)) :
    known = .exhausted ∨ .ended ∈ turns := by
  generalize hanswer : Except.ok none = answer at h
  cases h with
  | kept => cases hanswer
  | exhausted => exact .inl rfl
  | sought _ hlast =>
    rw [← hanswer, Turn.answer?_eq_ended_iff, Turn.isEnded_iff] at hlast
    exact .inr (by simp [hlast])

/-- A pass that knows nothing asks. -/
theorem Looked.turns_ne_nil (h : Looked .fresh turns answer) : turns ≠ [] := by
  cases h
  simp

end Looked

theorem PassEvent.item?_eq_none {event : PassEvent ρ} {e : StoreError}
    (h : event.outcome = .error e) : event.item? = none := by
  obtain ⟨call, outcome⟩ := event
  cases h
  cases call <;> rfl

/-- The call looks ahead. -/
def PassCall.looks : PassCall → Bool
  | .removeCurrent => false
  | .skipped => false
  | _ => true

namespace LiveEntries

section Judged

variable [Context ω] [Cursor ω κ (Stamped α)] {policy : Policy} {P : ω → Prop}

/-- While `P` holds values are judged by `policy`, and whatever a pass asks `P` goes on
holding. -/
structure UnderPolicy (policy : Policy) (P : ω → Prop) : Prop extends HeldByLooking P where
  removeCurrent : ∀ {w : ω}, P w → P (Cursor.removeCurrent w).world
  isLive_eq : ∀ {w : ω} (writtenAt now : Timestamp), P w →
    (Context.isLive writtenAt now w).1 = policy writtenAt now

theorem UnderPolicy.judgesBy (hP : UnderPolicy policy P) :
    HeldByLooking fun r : Logged ω κ α => P r.world ∧ JudgesBy policy r.log where
  advance {r} h := by
    simp only [Cursor.advance, Result.world_mapWorld]
    refine ⟨hP.advance h.1, fun writtenAt now live hmem => ?_⟩
    simp only [Logged.ask, List.mem_append, List.mem_singleton, reduceCtorEq, or_false] at hmem
    exact h.2 hmem
  now {r} h := by
    refine ⟨hP.now h.1, fun writtenAt now live hmem => ?_⟩
    simp only [Context.now, Logged.ask, List.mem_append, List.mem_singleton, reduceCtorEq,
      or_false] at hmem
    exact h.2 hmem
  isLive {r} writtenAt now h := by
    refine ⟨hP.isLive writtenAt now h.1, fun writtenAt' now' live hmem => ?_⟩
    simp only [Context.isLive, Logged.ask, List.mem_append, List.mem_singleton,
      Asked.judged.injEq] at hmem
    rcases hmem with hmem | ⟨rfl, rfl, rfl⟩
    · exact h.2 hmem
    · exact hP.isLive_eq _ _ h.1
  note event h := ⟨hP.note event h.1, h.2⟩

/-- A call judges by the policy and leaves it alone. -/
theorem UnderPolicy.call? (hP : UnderPolicy policy P) {c : PassCall} {s : LiveEntries κ α ρ × ω}
    {r : Result (LiveEntries κ α ρ × Logged ω κ α) (PassAnswer ρ)} (hs : P s.2)
    (hr : LiveEntries.call? c (s.1, ({ world := s.2 } : Logged ω κ α)) = some r) :
    P r.world.2.world ∧ JudgesBy policy r.world.2.log := by
  by_cases hc : c = .removeCurrent
  · subst hc
    rcases (comesTo_of_call? hr).1 with hworld | hworld
    · rw [hworld]
      exact ⟨hs, by simp [JudgesBy]⟩
    · rw [hworld]
      exact ⟨hP.removeCurrent hs, by simp [JudgesBy, Logged.ask]⟩
  · exact held_call? hP.judgesBy ⟨hs, by simp [JudgesBy]⟩ hc hr

/-- In a film under a policy every value is judged by it. -/
theorem UnderPolicy.film? (hP : UnderPolicy policy P) {steps : List (PassStep ω)}
    (helsewhere : ∀ {change}, .elsewhere change ∈ steps → ∀ {w}, P w → P (change w))
    {s s' : LiveEntries κ α ρ × ω} (hs : P s.2) {film : List (Take ω κ α ρ)}
    (h : LiveEntries.film? steps s = some (film, s')) : ∀ t ∈ film, JudgesBy policy t.asked := by
  refine (film?_invariant (I := fun film s => P s.2 ∧ ∀ t ∈ film, JudgesBy policy t.asked)
    (fun {past s c r} _ hinv hr => ?_) (fun hmem hinv => ⟨helsewhere hmem hinv.1, hinv.2⟩)
    ⟨hs, List.forall_mem_nil _⟩ h).2
  obtain ⟨hworld, hlog⟩ := hP.call? hinv.1 hr
  refine ⟨hworld, fun t ht => ?_⟩
  rcases List.mem_append.mp ht with ht | ht
  · exact hinv.2 t ht
  · rw [List.mem_singleton.mp ht]
    exact hlog

end Judged

/-! ## What is known -/

section Known

variable {film : List (Take ω κ α ρ)}

/-- Calls that find nothing, hand out no item and close nothing leave what is known. -/
theorem knows_append {quiet : List (Take ω κ α ρ)}
    (h : ∀ t ∈ quiet, t.turns.filterMap Turn.found? = [] ∧ t.event.item? = none ∧
      t.closes = false) : knows (film ++ quiet) = knows film := by
  have hclosed : quiet.any Take.closes = false := by
    rw [List.any_eq_false]
    exact fun t ht => by simp [(h t ht).2.2]
  have hfound : foundIn (film ++ quiet) = foundIn film := by
    rw [foundIn, foundIn, turnsIn, turnsIn, List.flatMap_append, List.filterMap_append,
      List.append_right_eq_self, List.filterMap_flatMap, List.flatMap_eq_nil_iff]
    exact fun t ht => (h t ht).1
  have hitems : itemsIn (eventsIn (film ++ quiet)) = itemsIn (eventsIn film) := by
    rw [eventsIn, List.map_append, itemsIn_append, ← eventsIn, ← eventsIn,
      List.append_right_eq_self, itemsIn, eventsIn, List.filterMap_map, List.filterMap_eq_nil_iff]
    exact fun t ht => (h t ht).2.1
  rw [knows, knows, List.any_append, hclosed, Bool.or_false, hfound, hitems]

/-- Nothing is known to come only if a call has closed the film. -/
theorem closes_of_knows (h : knows film = .exhausted) : ∃ t ∈ film, t.closes = true := by
  unfold knows at h
  split at h
  · rename_i hany
    exact List.any_eq_true.mp hany
  · split at h <;> cases h

end Known

/-! ## The law, clause by clause -/

/-- What a film of calls other than `next` shows, and the pass after it. -/
structure Conserves (project : κ → Option α → ρ) (film : List (Take ω κ α ρ))
    (it : LiveEntries κ α ρ) : Prop where
  /-- What every call asks and answers is told by the calls before it. -/
  lawful : Lawful project film
  /-- The clock is read once for each entry, right after it has been pulled, and at no other
  time. -/
  asked_eq : ∀ t ∈ film, t.asked = t.turns.flatMap Turn.asked ∨
    t.turns = [] ∧ ∃ answer, t.asked = [.removed answer]
  /-- The items are made of the live entries, in order and each once, and the last one may
  still be kept. -/
  items_eq : itemsIn (eventsIn film) ++ it.lookahead.kept.map (fun e => project e.1 e.2) =
    (foundIn film).map fun e => project e.1 e.2
  /-- Every entry that was pulled was handed out, passed over or kept. -/
  count_eq : (turnsIn film).countP Turn.pulled =
    (itemsIn (eventsIn film)).length + (turnsIn film).countP Turn.expired +
      it.lookahead.kept.length
  /-- The entries passed over are counted in 64 bits. -/
  skipped_eq : it.skipped = skippedIn film
  /-- A failure of the cursor is returned by the call that met it, as it is. -/
  failed : ∀ {past t later e}, film = past ++ t :: later → .failed e ∈ t.turns →
    t.event.outcome = .error e ∧ ∃ passed, t.turns = passed ++ [.failed e] ∧
      ∀ u ∈ passed, u.expired = true
  /-- The next call that looks ahead then goes on with the cursor. -/
  resumed : ∀ {past t between u later e}, film = past ++ t :: between ++ u :: later →
    .failed e ∈ t.turns → (∀ v ∈ between, ¬v.event.call.looks) → u.event.call.looks → u.turns ≠ []
  /-- A call that looks ahead fails only for a failure that it met itself, or because the
  cursor has answered that there is no entry. -/
  error_eq : ∀ {past t later e}, film = past ++ t :: later → t.event.call.looks →
    t.event.outcome = .error e → .failed e ∈ t.turns ∨
      t.event.call = .nextItem ∧ e = .endOfSequence ∧ .ended ∈ turnsIn (past ++ [t])

section Laws

variable {project : κ → Option α → ρ} {past film : List (Take ω κ α ρ)} {t : Take ω κ α ρ}

theorem Follows.of_looks (h : Follows project past t) (ht : t.event.call.looks = true) :
    t.asked = t.turns.flatMap Turn.asked ∧ ∃ answer, Looked (knows past) t.turns answer ∧
      t.event.outcome = t.event.call.reply project answer := by
  unfold Follows at h
  rcases hc : t.event.call <;> rw [hc] at h ht <;> first | exact h | cases ht

/-- A call that does not look ahead asks at most for a removal. -/
theorem Follows.of_not_looks (h : Follows project past t) (ht : t.event.call.looks = false) :
    t.turns = [] ∧ t.event.item? = none ∧
      (t.asked = [] ∨ ∃ answer, t.asked = [.removed answer]) := by
  obtain ⟨before, ⟨call, outcome⟩, asked⟩ := t
  match call with
  | .removeCurrent => exact ⟨h.1, rfl, h.2⟩
  | .skipped => exact ⟨by rw [Take.turns, h.1]; rfl, rfl, .inl h.1⟩

/-- A call that is no `next` and met no end leaves the film open. -/
theorem closes_eq_false (hnext : t.event.call ≠ .next) (hended : .ended ∉ t.turns) :
    t.closes = false := by
  rw [Bool.eq_false_iff, Ne, Take.closes_iff]
  exact fun h => h.elim hended fun h => hnext h.1

/-- A call that met a failure knew nothing before, and returned it. -/
theorem Lawful.of_failed (hlaw : Lawful project film) {later : List (Take ω κ α ρ)}
    {e : StoreError} (hfilm : film = past ++ t :: later) (he : .failed e ∈ t.turns) :
    knows past = .fresh ∧ t.event.outcome = .error e ∧ ∃ passed, t.turns = passed ++ [.failed e] ∧
      ∀ u ∈ passed, u.expired = true := by
  rcases hlooks : t.event.call.looks
  · have hturns := ((hlaw hfilm).of_not_looks hlooks).1
    rw [hturns] at he
    cases he
  · obtain ⟨-, answer, hlooked, hout⟩ := (hlaw hfilm).of_looks hlooks
    obtain ⟨hknown, rfl, hpassed⟩ := hlooked.of_failed he
    exact ⟨hknown, hout, hpassed⟩

/-- After a failure, and any calls that do not look ahead, nothing is known. -/
theorem Lawful.knows_of_failed (hlaw : Lawful project film) (hnext : t.event.call ≠ .next)
    {between later : List (Take ω κ α ρ)} {e : StoreError}
    (hfilm : film = past ++ t :: between ++ later) (he : .failed e ∈ t.turns)
    (hbetween : ∀ v ∈ between, v.event.call.looks = false) :
    knows (past ++ t :: between) = .fresh := by
  obtain ⟨hknown, hout, passed, hturns, hpassed⟩ :=
    hlaw.of_failed (hfilm.trans (List.append_assoc ..)) he
  rw [knows_append, hknown]
  intro v hv
  rcases List.mem_cons.mp hv with rfl | hv
  · refine ⟨?_, PassEvent.item?_eq_none hout, closes_eq_false hnext ?_⟩
    · rw [hturns, List.filterMap_append, filterMap_found?_eq_nil hpassed]
      rfl
    · rw [hturns]
      intro hmem
      rcases List.mem_append.mp hmem with hmem | hmem
      · cases hpassed _ hmem
      · simp at hmem
  · obtain ⟨before, after, rfl⟩ := List.append_of_mem hv
    have hsplit : film = (past ++ t :: before) ++ v :: (after ++ later) := by simp [hfilm]
    have hv' : v.event.call ≠ .next := fun hcall => by
      have := hbetween v hv
      rw [hcall] at this
      cases this
    obtain ⟨hnone, hitem, -⟩ := (hlaw hsplit).of_not_looks (hbetween v hv)
    exact ⟨by rw [hnone]; rfl, hitem, closes_eq_false hv' (by simp [hnone])⟩

theorem Balanced.conserves {it : LiveEntries κ α ρ} (h : Balanced project film it)
    (hlaw : Lawful project film) (hnext : ∀ t ∈ film, t.event.call ≠ .next) :
    Conserves project film it where
  lawful := hlaw
  asked_eq t ht := by
    obtain ⟨past, later, hfilm⟩ := List.append_of_mem ht
    rcases hlooks : t.event.call.looks
    · obtain ⟨hturns, -, hasked | hasked⟩ := (hlaw hfilm).of_not_looks hlooks
      · exact .inl (by rw [hasked, hturns]; rfl)
      · exact .inr ⟨hturns, hasked⟩
    · exact .inl ((hlaw hfilm).of_looks hlooks).1
  items_eq := by
    obtain ⟨handed, hfound, hitems⟩ := h.found_eq
    rw [hitems, hfound, List.map_append]
  count_eq := by
    obtain ⟨handed, hfound, hitems⟩ := h.found_eq
    have hlength := congrArg List.length hfound
    rw [Turn.countP_pulled, hitems, List.length_map, ← foundIn, hlength,
      List.length_append]
    omega
  skipped_eq := h.skipped_eq
  failed {past t later e} hfilm he := (hlaw.of_failed hfilm he).2
  resumed {past t between u later e} hfilm he hbetween hlooks := by
    obtain ⟨-, answer, hlooked, -⟩ := (hlaw hfilm).of_looks hlooks
    rw [hlaw.knows_of_failed (hnext t (by simp [hfilm])) hfilm he
      fun v hv => by simpa using hbetween v hv] at hlooked
    exact hlooked.turns_ne_nil
  error_eq {past t later e} hfilm hlooks hout := by
    obtain ⟨-, answer, hlooked, hreply⟩ := (hlaw hfilm).of_looks hlooks
    rw [hout] at hreply
    rcases answer with e' | - | entry
    · obtain rfl : e = e' := Except.error.inj hreply
      exact .inl hlooked.failed_mem
    · have hcall : t.event.call = .nextItem ∧ e = .endOfSequence := by
        rcases hc : t.event.call <;> rw [hc] at hreply hlooks <;>
          simp_all [PassCall.reply, PassCall.looks]
      refine .inr ⟨hcall.1, hcall.2, ?_⟩
      rw [turnsIn_snoc, List.mem_append]
      -- the end was met before, and then the pass is exhausted, or it is met now
      rcases hlooked.ended with hknown | hended
      · obtain ⟨u, hu, hcloses⟩ := closes_of_knows hknown
        refine .inl (List.mem_flatMap.mpr ⟨u, hu, ?_⟩)
        by_cases hended : .ended ∈ u.turns
        · exact hended
        · rw [closes_eq_false (hnext u (by simp [hfilm, hu])) hended] at hcloses
          cases hcloses
      · exact .inr hended
    · cases hreply

end Laws

/-! ## The rule -/

section Rule

/-- Without such a step there is no `next` in a film. -/
theorem not_next_of_film? [Context ω] [Cursor ω κ (Stamped α)] {steps : List (PassStep ω)}
    (hsteps : .call .next ∉ steps) {s s' : LiveEntries κ α ρ × ω} {film : List (Take ω κ α ρ)}
    (h : film? steps s = some (film, s')) : ∀ t ∈ film, t.event.call ≠ .next := by
  refine film?_invariant (I := fun film _ => ∀ t ∈ film, t.event.call ≠ .next)
    (fun {past s c r} hmem hpast _ t ht => ?_) (fun _ hpast => hpast) (List.forall_mem_nil _) h
  rcases List.mem_append.mp ht with ht | ht
  · exact hpast t ht
  · rw [List.mem_singleton.mp ht]
    rintro rfl
    exact hsteps hmem

/-- Under a policy that judges by the two times alone, the live entries are those that pass
the check at the time read in their turn. -/
theorem foundIn_eq_check {policy : Policy} {film : List (Take ω κ α ρ)}
    (hjudged : ∀ t ∈ film, JudgesBy policy t.asked)
    (hasked : ∀ t ∈ film, t.turns = [] ∨ t.asked = t.turns.flatMap Turn.asked) :
    foundIn film = (turnsIn film).filterMap fun t =>
      t.entry?.bind fun e => (check policy (some e.2.1) e.2.2).map (e.1, ·) := by
  refine List.filterMap_congr fun u hu => Turn.found?_eq_check ?_
  obtain ⟨t, ht, hmem⟩ := List.mem_flatMap.mp hu
  rcases hasked t ht with hnone | hasked
  · rw [hnone] at hmem
    cases hmem
  · exact Turn.judgedBy_of_mem (hasked ▸ hjudged t ht) hmem

/-- After every run of a pass, whatever its cursor answers and its clock reads, the pass has
lost, repeated and reordered nothing ; and among calls that remove nothing those for items
hand out the same items without the others, as far as they go, and are answered the same if
none of the others failed. -/
theorem lookahead_conserves (project : κ → Option α → ρ) :
    (∀ {ω : Type} [Context ω] [Cursor ω κ (Stamped α)] {w w' : ω} {steps : List (PassStep ω)}
        {history : List (PassEvent ρ)} {it : LiveEntries κ α ρ},
      .call .next ∉ steps → run? steps ({ project }, w) = some (history, it, w') →
        ∃ film, film? steps ({ project }, w) = some (film, it, w') ∧ history = eventsIn film ∧
          Conserves project film it ∧
          ∀ {policy : Policy} {P : ω → Prop}, UnderPolicy policy P → P w →
            (∀ {change}, .elsewhere change ∈ steps → ∀ {w}, P w → P (change w)) →
            foundIn film = (turnsIn film).filterMap fun t =>
              t.entry?.bind fun e => (check policy (some e.2.1) e.2.2).map (e.1, ·)) ∧
    ∀ {ω : Type} [Context ω] [Cursor ω κ (Stamped α)] {s s' : LiveEntries κ α ρ × ω}
        {calls : List PassCall} {history : List (PassEvent ρ)},
      Plain calls → calls? calls s = some (history, s') →
        ∃ bare s'', calls? (itemCalls calls) s = some (bare, s'') ∧
          itemsIn bare <+: itemsIn history ∧
          ((∀ e ∈ history, e.call = .hasNext → e.outcome.isOk) →
            bare = history.filter (·.call = .nextItem)) := by
  refine ⟨fun hsteps h => ?_, fun hplain h => ?_⟩
  · obtain ⟨film, hfilm, rfl⟩ := film?_of_run? h
    obtain ⟨hbalanced, hlaw⟩ := balanced_of_film? hfilm
    have hconserves := hbalanced.conserves hlaw (not_next_of_film? hsteps hfilm)
    refine ⟨film, hfilm, rfl, hconserves, fun hP hw helsewhere =>
      foundIn_eq_check (hP.film? helsewhere hw hfilm) fun t ht => ?_⟩
    rcases hconserves.asked_eq t ht with hasked | ⟨hnone, -⟩
    · exact .inr hasked
    · exact .inl hnone
  · have hnone : Plain [] := List.forall_mem_nil _
    obtain ⟨bare, s'', hbare, hprefix⟩ := itemCalls_prefix hnone hplain h
    refine ⟨bare, s'', hbare, hprefix, fun hok => ?_⟩
    obtain ⟨t, ht⟩ := itemCalls_answers hplain (.inl rfl) h hok
    rw [ht] at hbare
    cases hbare
    rfl

end Rule

/-! A failure between an expired value and an explicit null. -/

/-- A script that a pass replays, and the world beside it. -/
abbrev Replay :=
  WatchedCursor (Memory.Position Nat) Nat (Stamped Nat) ×
    Watched (World Nat Nat) Nat (Stamped Nat) Unit

/-- An expired value, a failure, an explicit null and the end. -/
def faulty : Replay :=
  (.scripted [.ok (1, ⟨some 10, 0⟩), .error (.backend "disk on fire"), .ok (2, ⟨none, 0⟩)] none,
    { world := { policy := .never } })

/-- What has been written down after so many answers of the script. -/
def advances (n : Nat) : List (Mark Nat Unit) := .replicate n (.call { kind := .advance })

/-- The failure has been met. -/
def faultMet : Replay :=
  (.scripted [.ok (2, ⟨none, 0⟩)] (some 1),
    { world := { policy := .never, asked := 1, events := [.skipping 0] }, trace := advances 2 })

/-- The null has been found. -/
def faultPassed : Replay :=
  (.scripted [] (some 2),
    { world := { policy := .never, asked := 1, events := [.skipping 0] }, trace := advances 3 })

/-- The end has been found. -/
def faultyEnd : Replay :=
  (.scripted [] (some 2),
    { world := { policy := .never, asked := 1, events := [.skipping 0] }, trace := advances 4 })

theorem seek?_faulty : seek? 0 faulty = some (.error (.backend "disk on fire") (1, faultMet)) :=
  Sought.seek?_eq (.passed rfl (.failed rfl))

theorem seek?_faultMet : seek? 1 faultMet = some (.ok (some (2, none)) (1, faultPassed)) :=
  Sought.seek?_eq (.found rfl)

theorem seek?_faultPassed : seek? 1 faultPassed = some (.ok none (1, faultyEnd)) :=
  Sought.seek?_eq (.ended rfl)

/-- A pass over values that knows nothing. -/
def valuesPass (skipped : UInt64) : LiveEntries Nat Nat (Option Nat) :=
  { project := fun _ value => value, skipped }

/-- The pass at its end. -/
def faultyPass : LiveEntries Nat Nat (Option Nat) := { valuesPass 1 with lookahead := .exhausted }

/-- The calls after the failure. -/
def laterCalls : List PassCall := [.hasNext, .nextItem, .skipped, .nextItem]

/-- What becomes of them. -/
def laterHistory : List (PassEvent (Option Nat)) :=
  [⟨.hasNext, .ok (.flag true)⟩, ⟨.nextItem, .ok (.item none)⟩, ⟨.skipped, .ok (.count 1)⟩,
    ⟨.nextItem, .error .endOfSequence⟩]

/-- The call that meets the failure, and what becomes of it. -/
def faultyHistory : List (PassEvent (Option Nat)) :=
  ⟨.hasNext, .error (.backend "disk on fire")⟩ :: laterHistory

theorem calls?_later : calls? laterCalls (valuesPass 1, faultMet) =
    some (laterHistory, faultyPass, Prod.map id (Context.note (.exhausted 1)) faultyEnd) := by
  simp only [laterCalls, calls?, List.map, run?, call?, nextItem?, hasNext?, valuesPass,
    seek?_faultMet, seek?_faultPassed, Option.map_some, Option.bind_some, settle, handOut,
    Result.map_ok, Result.world_ok]
  rfl

theorem calls?_faulty : calls? (.hasNext :: laterCalls) (valuesPass 0, faulty) =
    some (faultyHistory, faultyPass, Prod.map id (Context.note (.exhausted 1)) faultyEnd) := by
  have hfails : call? .hasNext (valuesPass 0, faulty) =
      some (.error (.backend "disk on fire") (valuesPass 1, faultMet)) := by
    simp only [call?, hasNext?, valuesPass, seek?_faulty]
    rfl
  rw [calls?_cons, hfails, Option.bind_some, Result.world_error, calls?_later]
  rfl

/-- A script is replayed without faults, under a policy that judges no value live. -/
def Replays (s : Replay) : Prop :=
  (∃ script last, s.1 = .scripted script last) ∧ s.2.faults = [] ∧ s.2.world.policy = .never

theorem underPolicy_replays : UnderPolicy .never Replays where
  advance := by
    rintro ⟨-, w⟩ ⟨⟨script, last, rfl⟩, hfaults, hpolicy⟩
    have hfree : takeFault .advance w.faults = (none, []) := by rw [hfaults]; rfl
    have hnever : w.world.policy = .never := hpolicy
    rcases script with - | ⟨_ | _, _⟩ <;>
      simp [Cursor.advance, Watched.advance, Watched.call, hfree, Replays, Watched.write, hnever]
  removeCurrent := by
    rintro ⟨-, w⟩ ⟨⟨script, last, rfl⟩, hfaults, hpolicy⟩
    have hfree : takeFault .removeCurrent w.faults = (none, []) := by rw [hfaults]; rfl
    have hnever : w.world.policy = .never := hpolicy
    simp [Cursor.removeCurrent, Watched.removeCurrent, Watched.call, hfree, Replays, Watched.write,
      hnever]
  now h := h
  isLive _ _ h := h
  note _ h := h
  isLive_eq writtenAt now h := congrFun (congrFun h.2.2 writtenAt) now

/-- The failure is returned once, and the null is handed out and the end met after it ; what
comes after the failure comes of the calls for items alone. -/
theorem lookahead_conserves_faulty :
    (∃ film : List (Take Replay Nat Nat (Option Nat)), faultyHistory = eventsIn film ∧
      Conserves (fun _ value => value) film faultyPass ∧
      foundIn film = (turnsIn film).filterMap fun t =>
        t.entry?.bind fun e => (check .never (some e.2.1) e.2.2).map (e.1, ·)) ∧
    (∃ bare s, calls? (itemCalls (.hasNext :: laterCalls)) (valuesPass 0, faulty) = some (bare, s) ∧
      itemsIn bare <+: [none]) ∧
    ∃ s, calls? (itemCalls laterCalls) (valuesPass 1, faultMet) =
      some ([⟨.nextItem, .ok (.item none)⟩, ⟨.nextItem, .error .endOfSequence⟩], s) := by
  obtain ⟨film, -, hevents, hconserves, hfound⟩ :=
    (lookahead_conserves fun _ (value : Option Nat) => value).1 (by simp [laterCalls])
      calls?_faulty
  obtain ⟨bare, s, hbare, hprefix, -⟩ :=
    (lookahead_conserves fun _ (value : Option Nat) => value).2
      (by simp [Plain, laterCalls]) calls?_faulty
  obtain ⟨answers, s', hanswers, -, hall⟩ :=
    (lookahead_conserves fun _ (value : Option Nat) => value).2
      (by simp [Plain, laterCalls]) calls?_later
  refine ⟨⟨film, hevents, hconserves,
    hfound underPolicy_replays ⟨⟨_, _, rfl⟩, rfl, rfl⟩ (by simp [laterCalls])⟩,
    ⟨bare, s, hbare, hprefix⟩, s', ?_⟩
  rw [hanswers, hall (by simp [laterHistory, Except.isOk, Except.toBool])]
  rfl

end LiveEntries

end LazyExpiry
