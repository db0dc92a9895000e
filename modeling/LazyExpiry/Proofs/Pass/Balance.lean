import LazyExpiry.Proofs.Pass.Turns

/-!
# The balance of a pass

Whatever calls a film shows, the pass can be told from it (`Balanced`) : the live entries
of its turns were handed out as items, in order and each once, but for one that may still
be kept ; the expired ones were counted ; and the pass is exhausted once the cursor has
answered that there is no entry, or a `next` has failed (`Take.closes`).

So what a call does is told by the film before it (`Take.Follows`), and every film is
lawful in this sense (`balanced_of_film?`).
-/

namespace LazyExpiry

variable {ω κ α ρ : Type}

/-- The entry that is kept, if there is one. -/
def Lookahead.kept : Lookahead κ α → List (κ × Option α)
  | buffered key value => [(key, value)]
  | _ => []

/-! ## What looking ahead brings -/

/-- The live entry of an answer. -/
def entriesOf : Except StoreError (Option (κ × Option α)) → List (κ × Option α)
  | .ok (some e) => [e]
  | _ => []

section Looked

variable {known : Lookahead κ α} {turns : List (Turn κ α)}
  {answer : Except StoreError (Option (κ × Option α))}

theorem filterMap_found?_eq_nil (h : ∀ t ∈ turns, t.expired = true) :
    turns.filterMap Turn.found? = [] := by
  rw [List.filterMap_eq_nil_iff]
  intro t ht
  have : t.answer? = none := by simpa [Turn.expired] using h t ht
  rw [Turn.found?, this]

/-- The entry that was kept or is found is the entry of the answer. -/
theorem Looked.found (h : Looked known turns answer) :
    known.kept ++ turns.filterMap Turn.found? = entriesOf answer := by
  induction h with
  | kept => rfl
  | exhausted => rfl
  | @sought passed last answer hpassed hlast =>
    rw [List.filterMap_append, filterMap_found?_eq_nil hpassed]
    rcases answer with e | - | e <;>
      simp [Lookahead.kept, entriesOf, Turn.found?, hlast]

/-- The cursor answered that there is no entry, and that is what looking ahead came to. -/
theorem Looked.ended_iff (h : Looked known turns answer) :
    turns.any Turn.isEnded = true ↔ known ≠ .exhausted ∧ answer = .ok none := by
  induction h with
  | kept => simp
  | exhausted => simp
  | @sought passed last answer hpassed hlast =>
    have hnone : passed.any Turn.isEnded = false := by
      rw [List.any_eq_false]
      intro t ht hended
      have := hpassed t ht
      rw [Turn.expired, Turn.answer?_eq_ended_iff.mpr hended] at this
      cases this
    rw [List.any_append, hnone, Bool.false_or, List.any_cons, List.any_nil, Bool.or_false,
      ← Turn.answer?_eq_ended_iff, hlast, Option.some.injEq]
    simp

/-- From a pass that is exhausted nothing is asked. -/
theorem Looked.of_exhausted (h : Looked .exhausted turns answer) :
    turns = [] ∧ answer = .ok none := by
  cases h
  exact ⟨rfl, rfl⟩

end Looked

/-! ## What a film shows -/

/-- After this call the pass does not ask the cursor any more. -/
def Take.closes (t : Take ω κ α ρ) : Bool :=
  t.turns.any Turn.isEnded || t.event.call == .next && !t.event.outcome.isOk

theorem Take.closes_iff {t : Take ω κ α ρ} : t.closes = true ↔
    .ended ∈ t.turns ∨ t.event.call = .next ∧ t.event.outcome.isOk = false := by
  rw [closes, Bool.or_eq_true, Turn.any_isEnded_iff]
  simp

namespace LiveEntries

/-- The turns of a film. -/
def turnsIn (film : List (Take ω κ α ρ)) : List (Turn κ α) := film.flatMap Take.turns

/-- The live entries of a film. -/
def foundIn (film : List (Take ω κ α ρ)) : List (κ × Option α) :=
  (turnsIn film).filterMap Turn.found?

/-- The count of the expired entries of a film, in 64 bits. -/
def skippedIn (film : List (Take ω κ α ρ)) : UInt64 :=
  .ofNat ((turnsIn film).countP Turn.expired)

/-- The items of a history. -/
def itemsIn (history : List (PassEvent ρ)) : List ρ := history.filterMap PassEvent.item?

/-- What a pass knows after a film : whether it is closed, and the live entry that has not
been handed out. -/
def knows (film : List (Take ω κ α ρ)) : Lookahead κ α :=
  if film.any Take.closes then .exhausted
  else match (foundIn film).drop (itemsIn (eventsIn film)).length with
    | [] => .fresh
    | e :: _ => .buffered e.1 e.2

section Snoc

variable (past : List (Take ω κ α ρ)) (t : Take ω κ α ρ)

@[simp] theorem turnsIn_snoc : turnsIn (past ++ [t]) = turnsIn past ++ t.turns := by
  simp [turnsIn]

@[simp] theorem foundIn_snoc :
    foundIn (past ++ [t]) = foundIn past ++ t.turns.filterMap Turn.found? := by
  simp [foundIn]

theorem skippedIn_snoc :
    skippedIn (past ++ [t]) = skippedIn past + .ofNat (t.turns.countP Turn.expired) := by
  rw [skippedIn, turnsIn_snoc, List.countP_append, UInt64.ofNat_add]
  rfl

@[simp] theorem itemsIn_eventsIn_snoc :
    itemsIn (eventsIn (past ++ [t])) = itemsIn (eventsIn past) ++ t.event.item?.toList := by
  simp [itemsIn, eventsIn, List.filterMap_append, List.filterMap_cons]
  rcases t.event.item? with - | item <;> rfl

end Snoc

/-! ## The law of a call -/

/-- A call that looks ahead takes the turns that what the pass knows asks for, and answers
by what they come to. The count of skipped entries is that of the film, and a removal takes
no turn. -/
def Follows (project : κ → Option α → ρ) (past : List (Take ω κ α ρ)) (t : Take ω κ α ρ) : Prop :=
  match t.event.call with
  | .removeCurrent => t.turns = [] ∧ (t.asked = [] ∨ ∃ answer, t.asked = [.removed answer])
  | .skipped =>
    t.asked = [] ∧ t.event.outcome = .ok (.count (skippedIn past))
  | c => t.asked = t.turns.flatMap Turn.asked ∧
    ∃ answer, Looked (knows past) t.turns answer ∧ t.event.outcome = c.reply project answer

/-- Every call of the film follows the law. -/
def Lawful (project : κ → Option α → ρ) (film : List (Take ω κ α ρ)) : Prop :=
  ∀ ⦃past t later⦄, film = past ++ t :: later → Follows project past t

variable {project : κ → Option α → ρ} {past film : List (Take ω κ α ρ)} {t : Take ω κ α ρ}

theorem lawful_nil : Lawful project ([] : List (Take ω κ α ρ)) := by
  intro past t later h
  simp at h

theorem Lawful.snoc (h : Lawful project past) (ht : Follows project past t) :
    Lawful project (past ++ [t]) := by
  intro before d after hsplit
  rcases split_append_singleton hsplit with ⟨rfl, rfl, -⟩ | ⟨after, -, hpast⟩
  · exact ht
  · exact h hpast

/-! ## The balance -/

/-- The pass can be told from the film. -/
structure Balanced (project : κ → Option α → ρ) (film : List (Take ω κ α ρ))
    (it : LiveEntries κ α ρ) : Prop where
  project_eq : it.project = project
  skipped_eq : it.skipped = skippedIn film
  found_eq : ∃ handed, foundIn film = handed ++ it.lookahead.kept ∧
    itemsIn (eventsIn film) = handed.map fun e => project e.1 e.2
  exhausted_iff : it.lookahead = .exhausted ↔ film.any Take.closes = true

variable {it : LiveEntries κ α ρ}

theorem balanced_fresh : Balanced project [] ({ project } : LiveEntries κ α ρ) (ω := ω) where
  project_eq := rfl
  skipped_eq := rfl
  found_eq := ⟨[], rfl, rfl⟩
  exhausted_iff := by simp

theorem Balanced.lookahead_eq (h : Balanced project film it) : it.lookahead = knows film := by
  obtain ⟨handed, hfound, hitems⟩ := h.found_eq
  have hdrop : (foundIn film).drop (itemsIn (eventsIn film)).length = it.lookahead.kept := by
    rw [hfound, hitems, List.length_map, List.drop_left]
  rw [knows, hdrop]
  rcases hl : it.lookahead with - | ⟨key, value⟩ | - <;>
    simp [← h.exhausted_iff, hl, Lookahead.kept]

/-- A call that does not take turns, and hands out nothing, leaves the balance as it is. -/
theorem Balanced.of_idle (h : Balanced project past it) {it' : LiveEntries κ α ρ}
    (hit : ∃ removable, it' = { it with removable }) (hturns : t.turns = [])
    (hitem : t.event.item? = none) (hnext : t.event.call ≠ .next) :
    Balanced project (past ++ [t]) it' := by
  obtain ⟨removable, rfl⟩ := hit
  refine ⟨h.project_eq, ?_, ?_, ?_⟩
  · rw [skippedIn, turnsIn_snoc, hturns, List.append_nil]
    exact h.skipped_eq
  · rw [foundIn_snoc, itemsIn_eventsIn_snoc, hturns, hitem, List.filterMap_nil, List.append_nil,
      Option.toList_none, List.append_nil]
    exact h.found_eq
  · have hcloses : t.closes = false := by simp [Take.closes, hturns, hnext]
    rw [List.any_append, List.any_cons, hcloses, List.any_nil, Bool.or_self, Bool.or_false]
    exact h.exhausted_iff

section Call

variable [Context ω] [Cursor ω κ (Stamped α)] {c : PassCall} {s : LiveEntries κ α ρ × ω}
  {r : Result (LiveEntries κ α ρ × Logged ω κ α) (PassAnswer ρ)} {turns : List (Turn κ α)}
  {answer : Except StoreError (Option (κ × Option α))}

theorem LooksAhead.turns_eq
    (h : LooksAhead c (s.1, ({ world := s.2 } : Logged ω κ α)) turns answer r) :
    (Take.of s c r).asked = turns.flatMap Turn.asked ∧ (Take.of s c r).turns = turns := by
  have hasked : (Take.of s c r).asked = turns.flatMap Turn.asked := h.log_eq
  exact ⟨hasked, by rw [Take.turns, hasked, turnsOf_asked]⟩

/-- Looking ahead keeps the balance. -/
theorem Balanced.of_looksAhead (hc : c = .hasNext ∨ c = .nextItem ∨ c = .next)
    (h : Balanced project past s.1)
    (ha : LooksAhead c (s.1, ({ world := s.2 } : Logged ω κ α)) turns answer r) :
    Balanced project (past ++ [.of s c r]) r.world.1 := by
  have hturns := ha.turns_eq.2
  have hout : r.outcome = c.reply project answer := by rw [ha.outcome_eq, ← h.project_eq]
  refine ⟨ha.project_eq.trans h.project_eq, ?_, ?_, ?_⟩
  · rw [ha.skipped_eq, skippedIn_snoc, hturns, h.skipped_eq]
  · obtain ⟨handed, hfound, hitems⟩ := h.found_eq
    have hentries := ha.looked.found
    rw [foundIn_snoc, itemsIn_eventsIn_snoc, hturns, hfound, List.append_assoc, hentries,
      ha.lookahead_eq, hitems]
    -- the entry of the answer is handed out, unless the call only asks whether there is one
    rcases answer with e | - | e
    · refine ⟨handed, by rcases hc with rfl | rfl | rfl <;> rfl, ?_⟩
      rcases hc with rfl | rfl | rfl <;> simp [Take.of, hout, PassCall.reply, PassEvent.item?]
    · refine ⟨handed, by rcases hc with rfl | rfl | rfl <;> rfl, ?_⟩
      rcases hc with rfl | rfl | rfl <;> simp [Take.of, hout, PassCall.reply, PassEvent.item?]
    · rcases hc with rfl | rfl | rfl
      · exact ⟨handed, rfl, by simp [Take.of, hout, PassCall.reply, PassEvent.item?]⟩
      · exact ⟨handed ++ [e], by simp [PassCall.leaves, Lookahead.kept, entriesOf],
          by simp [Take.of, hout, PassCall.reply, PassEvent.item?]⟩
      · exact ⟨handed ++ [e], by simp [PassCall.leaves, Lookahead.kept, entriesOf],
          by simp [Take.of, hout, PassCall.reply, PassEvent.item?]⟩
  · rw [List.any_append, Bool.or_eq_true, ← h.exhausted_iff, List.any_cons, List.any_nil,
      Bool.or_false, Take.closes, hturns, Bool.or_eq_true, ha.looked.ended_iff, ha.lookahead_eq]
    by_cases hover : s.1.lookahead = .exhausted
    · obtain ⟨-, rfl⟩ := Looked.of_exhausted (hover ▸ ha.looked)
      simp [PassCall.leaves, hover]
    · rcases hc with rfl | rfl | rfl <;> rcases answer with e | - | e <;>
        simp [Take.of, hout, PassCall.reply, PassCall.leaves, hover, Except.isOk, Except.toBool]

/-- What a call does is told by the film before it, and the pass after it by the film with
this call. -/
theorem Balanced.call? (h : Balanced project past s.1)
    (hr : LiveEntries.call? c (s.1, ({ world := s.2 } : Logged ω κ α)) = some r) :
    Balanced project (past ++ [.of s c r]) r.world.1 ∧ Follows project past (.of s c r) := by
  have looks : (c = .hasNext ∨ c = .nextItem ∨ c = .next) →
      (∃ turns answer, LooksAhead c (s.1, ({ world := s.2 } : Logged ω κ α)) turns answer r) →
      Balanced project (past ++ [.of s c r]) r.world.1 ∧
        (Take.of s c r).asked = (Take.of s c r).turns.flatMap Turn.asked ∧
        ∃ answer, Looked (knows past) (Take.of s c r).turns answer ∧
          r.outcome = c.reply project answer := by
    rintro hc ⟨turns, answer, ha⟩
    obtain ⟨hasked, hturns⟩ := ha.turns_eq
    refine ⟨h.of_looksAhead hc ha, by rw [hturns, hasked], answer, ?_, ?_⟩
    · rw [hturns, ← h.lookahead_eq]
      exact ha.looked
    · rw [ha.outcome_eq, h.project_eq]
  have hcomes := comesTo_of_call? hr
  match c with
  | .hasNext => exact looks (.inl rfl) hcomes
  | .nextItem => exact looks (.inr (.inl rfl)) hcomes
  | .next => exact looks (.inr (.inr rfl)) hcomes
  | .removeCurrent =>
    obtain ⟨hworld, hit⟩ := hcomes
    have hasked : (Take.of s .removeCurrent r).asked = [] ∨
        ∃ answer, (Take.of s .removeCurrent r).asked = [.removed answer] :=
      hworld.imp (congrArg Logged.log) fun h => ⟨_, congrArg Logged.log h⟩
    have hturns : (Take.of s .removeCurrent r).turns = [] := by
      rcases hasked with hasked | ⟨answer, hasked⟩ <;> rw [Take.turns, hasked] <;> rfl
    have hitem : (Take.of s .removeCurrent r).event.item? = none := by
      simp only [Take.of, PassEvent.item?]
    exact ⟨h.of_idle hit hturns hitem (by simp [Take.of]), hturns, hasked⟩
  | .skipped =>
    obtain rfl : r = .ok (.count s.1.skipped) (s.1, { world := s.2 }) := hcomes
    exact ⟨h.of_idle ⟨s.1.removable, rfl⟩ rfl rfl (by simp [Take.of]), rfl,
      by rw [← h.skipped_eq]; rfl⟩

/-- A film is lawful, and the pass after it can be told from it. -/
theorem balanced_of_film? {steps : List (PassStep ω)} {w : ω} {s' : LiveEntries κ α ρ × ω}
    (h : film? steps (({ project } : LiveEntries κ α ρ), w) = some (film, s')) :
    Balanced project film s'.1 ∧ Lawful project film :=
  film?_invariant (I := fun film s => Balanced project film s.1 ∧ Lawful project film)
    (fun _ hinv hr =>
      have hstep := hinv.1.call? hr
      ⟨hstep.1, hinv.2.snoc hstep.2⟩)
    (fun _ hinv => hinv) ⟨balanced_fresh, lawful_nil⟩ h

end Call

end LiveEntries

end LazyExpiry
