import LazyExpiry.Proofs.Pass.Conserved
import LazyExpiry.Proofs.Pass.Search

/-!
# A pass that has ended stays at its end

A cursor may answer entries again after it has answered that there is none, or after a failure.
A pass does not : once a call has told its end (`Take.Ends`) it is over, and then every call
leaves it and its world as they are and answers by the end alone (`Over.call?`,
`PassCall.whenOver`). A failure ends a pass only if it was met by the pass as a sequence ; met by
another call, it is returned and the next look goes on with the cursor.

So collecting a pass as a sequence (`collect?`) gives all the live entries up to the end, or
the first failure of the cursor, whichever comes first (`collect?_outcome_iff`).
-/

namespace LazyExpiry

variable {ω κ α ρ : Type}

/-! ## Turns that pull an entry -/

namespace Turn

/-- An entry that is pulled is expired or live. -/
theorem pulled_cases {t : Turn κ α} (h : t.pulled = true) :
    t.answer? = none ∧ t.found? = none ∨
      ∃ e, t.answer? = some (.ok (some e)) ∧ t.found? = some e := by
  match t with
  | .null key _ _ => exact .inr ⟨(key, none), rfl, rfl⟩
  | .value key v _ _ true => exact .inr ⟨(key, some v), rfl, rfl⟩
  | .value _ _ _ _ false => exact .inl ⟨rfl, rfl⟩
  | .ended => cases h
  | .failed _ => cases h

theorem pulled_of_expired {t : Turn κ α} (h : t.expired = true) : t.pulled = true := by
  match t with
  | .value _ _ _ _ false => rfl
  | .null _ _ _ | .value _ _ _ _ true | .ended | .failed _ => cases h

theorem pulled_of_found? {t : Turn κ α} {e : κ × Option α} (h : t.found? = some e) :
    t.pulled = true := by
  obtain ⟨stored, now, hentry⟩ := entry?_of_found? h
  rw [pulled, hentry]
  rfl

end Turn

/-! ## What calls tell of the end -/

/-- What a call answers at the end of a pass that has skipped so many entries. -/
def PassCall.whenOver (skipped : UInt64) : PassCall → Except StoreError (PassAnswer ρ)
  | .hasNext => .ok (.flag false)
  | .nextItem => .error .endOfSequence
  | .next => .ok .ended
  | .removeCurrent => .error .invalidIteratorState
  | .skipped => .ok (.count skipped)

/-- The call tells that the pass has ended. -/
inductive Take.Ends (t : Take ω κ α ρ) : Prop
  /-- There is no live entry left. -/
  | noEntry : t.event = ⟨.hasNext, .ok (.flag false)⟩ → t.Ends
  /-- There is no item left. A cursor that fails by the same words is not at its end. -/
  | noItem : t.event = ⟨.nextItem, .error .endOfSequence⟩ → .failed .endOfSequence ∉ t.turns →
    t.Ends
  /-- The sequence has ended. -/
  | ended : t.event = ⟨.next, .ok .ended⟩ → t.Ends
  /-- The sequence has failed. -/
  | failed {e : StoreError} : t.event = ⟨.next, .error e⟩ → t.Ends

namespace LiveEntries

/-! ## At the end -/

/-- A pass at its end, which has nothing to remove. -/
structure Over (it : LiveEntries κ α ρ) : Prop where
  exhausted : it.lookahead = .exhausted
  shut : it.removable = false

section Calls

variable [Context ω] [Cursor ω κ (Stamped α)]

/-- At its end a pass asks nothing, changes nothing and answers by the end alone. -/
theorem Over.call? {s : LiveEntries κ α ρ × ω} (h : Over s.1) (c : PassCall) :
    ∃ r, LiveEntries.call? c s = some r ∧ r.world = s ∧ r.outcome = c.whenOver s.1.skipped := by
  obtain ⟨⟨project, lookahead, removable, skipped⟩, w⟩ := s
  obtain ⟨rfl, rfl⟩ := h
  have hlook : LiveEntries.hasNext? (⟨project, .exhausted, false, skipped⟩, w) =
      some (.ok false (⟨project, .exhausted, false, skipped⟩, w)) := hasNext?_exhausted rfl
  match c with
  | .hasNext => exact ⟨_, by rw [LiveEntries.call?, hlook]; rfl, rfl, rfl⟩
  | .nextItem => exact ⟨_, by rw [LiveEntries.call?, nextItem?, hlook]; rfl, rfl, rfl⟩
  | .next =>
    exact ⟨_, by rw [LiveEntries.call?, next?_of_hasNext?_false hlook]; rfl, rfl, rfl⟩
  | .removeCurrent => exact ⟨_, rfl, rfl, rfl⟩
  | .skipped => exact ⟨_, rfl, rfl, rfl⟩

/-- So do all calls that follow, whatever others change meanwhile. -/
theorem Over.film? {steps : List (PassStep ω)} {s s' : LiveEntries κ α ρ × ω}
    {film : List (Take ω κ α ρ)} (h : Over s.1)
    (hfilm : LiveEntries.film? steps s = some (film, s')) : s'.1 = s.1 ∧
      ∀ u ∈ film, u.asked = [] ∧ u.event.outcome = u.event.call.whenOver s.1.skipped := by
  refine film?_invariant (I := fun film s' => s'.1 = s.1 ∧
    ∀ u ∈ film, u.asked = [] ∧ u.event.outcome = u.event.call.whenOver s.1.skipped)
    (fun {past t c r} _ hinv hr => ?_) (fun _ hinv => hinv) ⟨rfl, List.forall_mem_nil _⟩ hfilm
  obtain ⟨hsame, hpast⟩ := hinv
  obtain ⟨r', hr', hworld, houtcome⟩ :=
    Over.call? (s := (t.1, ({ world := t.2 } : Logged ω κ α))) (hsame ▸ h) c
  obtain rfl : r = r' := Option.some.inj (hr.symm.trans hr')
  refine ⟨by rw [hworld, hsame], fun u hu => ?_⟩
  rcases List.mem_append.mp hu with hu | hu
  · exact hpast u hu
  · rw [List.mem_singleton.mp hu]
    exact ⟨by rw [Take.of, hworld], by rw [Take.of, houtcome, hsame]⟩

/-! ## Coming to the end -/

theorem removable_of_hasNext? {s : LiveEntries κ α ρ × ω}
    {r : Result (LiveEntries κ α ρ × ω) Bool} (h : hasNext? s = some r) :
    r.world.1.removable = false := by
  rcases hasNext?_cases h with ⟨b, rfl⟩ | ⟨⟨- | e, s'⟩ | ⟨e, s'⟩, -, -, rfl⟩ <;> rfl

/-- An exhausted pass has nothing to remove. -/
def ShutAtEnd (it : LiveEntries κ α ρ) : Prop := it.lookahead = .exhausted → it.removable = false

theorem ShutAtEnd.call? {s : LiveEntries κ α ρ × ω} (h : ShutAtEnd s.1) {c : PassCall}
    {r : Result (LiveEntries κ α ρ × ω) (PassAnswer ρ)} (hr : LiveEntries.call? c s = some r) :
    ShutAtEnd r.world.1 := by
  have item : ∀ {handed : Result (LiveEntries κ α ρ × ω) ρ}, nextItem? s = some handed →
      ShutAtEnd handed.world.1 := by
    intro handed hi
    rcases nextItem?_cases hi with ⟨s', key, value, -, -, rfl⟩ | ⟨looked, e, hl, rfl⟩
    · exact fun hexhausted => by cases hexhausted
    · exact fun _ => removable_of_hasNext? hl
  match c with
  | .hasNext =>
    obtain ⟨looked, hl, rfl⟩ := Option.map_eq_some_iff.mp hr
    rw [Result.world_map]
    exact fun _ => removable_of_hasNext? hl
  | .nextItem =>
    obtain ⟨handed, hi, rfl⟩ := Option.map_eq_some_iff.mp hr
    rw [Result.world_map]
    exact item hi
  | .next =>
    obtain ⟨answered, hn, rfl⟩ := Option.map_eq_some_iff.mp hr
    rw [Result.world_map]
    rcases next?_cases hn with ⟨handed, hi, rfl⟩ | ⟨s', hl, rfl⟩ | ⟨e, s', hl, rfl⟩
    · rw [Result.world_map]
      exact item hi
    · exact fun _ => removable_of_hasNext? hl
    · exact fun _ => removable_of_hasNext? hl
  | .removeCurrent =>
    rw [LiveEntries.call?, Option.some.injEq] at hr
    subst hr
    rw [Result.world_map, removeCurrent_eq]
    split
    · split
      · exact fun _ => rfl
      · exact h
    · exact h
  | .skipped =>
    cases hr
    exact h

/-- The call that tells the end leaves the pass exhausted. -/
theorem exhausted_of_ends {s : LiveEntries κ α ρ × ω} {c : PassCall}
    {r : Result (LiveEntries κ α ρ × Logged ω κ α) (PassAnswer ρ)}
    (hr : LiveEntries.call? c (s.1, ({ world := s.2 } : Logged ω κ α)) = some r)
    (hends : (Take.of s c r).Ends) : r.world.1.lookahead = .exhausted := by
  have hcomes := comesTo_of_call? hr
  obtain ⟨turns, answer, ha⟩ : ∃ turns answer,
      LooksAhead c (s.1, ({ world := s.2 } : Logged ω κ α)) turns answer r := by
    cases hends with
    | noEntry h | noItem h | ended h | failed h =>
      obtain rfl : c = _ := congrArg PassEvent.call h
      exact hcomes
  have hevent : (Take.of s c r).event = ⟨c, c.reply s.1.project answer⟩ :=
    congrArg (PassEvent.mk c) ha.outcome_eq
  rw [ha.lookahead_eq]
  rcases answer with e | - | e
  · -- only the sequence ends with a failure that the cursor met
    cases hends with
    | noEntry h | ended h =>
      rw [hevent] at h
      cases h
    | noItem h hfailed =>
      rw [hevent] at h
      cases h
      exact absurd (ha.turns_eq.2 ▸ ha.looked.failed_mem) hfailed
    | failed h =>
      rw [hevent] at h
      cases h
      rfl
  · rfl
  · cases hends with
    | noEntry h =>
      obtain ⟨rfl, hflag⟩ := PassEvent.mk.injEq .. ▸ hevent.symm.trans h
      cases hflag
    | noItem h | ended h | failed h =>
      rw [hevent] at h
      cases h

end Calls

/-! ## The law -/

/-- What a film shows of the end of its pass, and the pass after it. -/
structure Fused [Context ω] [Cursor ω κ (Stamped α)] (project : κ → Option α → ρ)
    (film : List (Take ω κ α ρ)) (it : LiveEntries κ α ρ) : Prop where
  /-- After a call that told the end, every call answers by the end and asks nothing, and the
  count of skipped entries stands. -/
  answers : ∀ {past t later}, film = past ++ t :: later → t.Ends → ∀ u ∈ later, u.asked = [] ∧
    u.event.outcome = u.event.call.whenOver (skippedIn (past ++ [t]))
  /-- So will every call that is made then, whatever has become of the world. -/
  stays : ∀ {t}, t ∈ film → t.Ends → ∀ (c : PassCall) (w : ω), ∃ r, call? c (it, w) = some r ∧
    r.world = (it, w) ∧ r.outcome = c.whenOver it.skipped
  /-- The sequence fails only for a failure that the cursor met in that call. -/
  failed_next : ∀ {t e}, t ∈ film → t.event = ⟨.next, .error e⟩ →
    ∃ passed, t.turns = passed ++ [.failed e] ∧ ∀ u ∈ passed, u.expired = true
  /-- After a failure that another call met, the next look goes on with the cursor. -/
  resumed : ∀ {past t between u later e}, film = past ++ t :: between ++ u :: later →
    t.event.call ≠ .next → .failed e ∈ t.turns → (∀ v ∈ between, v.event.call.looks = false) →
      u.event.call.looks = true → ∃ answer, Looked .fresh u.turns answer ∧
        u.event.outcome = u.event.call.reply project answer

variable {project : κ → Option α → ρ}

theorem Lawful.failed_next {film : List (Take ω κ α ρ)} (hlaw : Lawful project film)
    {t : Take ω κ α ρ} {e : StoreError} (ht : t ∈ film) (hevent : t.event = ⟨.next, .error e⟩) :
    ∃ passed, t.turns = passed ++ [.failed e] ∧ ∀ u ∈ passed, u.expired = true := by
  obtain ⟨past, later, hfilm⟩ := List.append_of_mem ht
  obtain ⟨-, answer, hlooked, hreply⟩ := (hlaw hfilm).of_looks (by rw [hevent]; rfl)
  rw [hevent] at hreply
  rcases answer with e' | - | found
  · cases hreply
    exact (hlooked.of_failed hlooked.failed_mem).2.2
  · cases hreply
  · cases hreply

section Films

variable [Context ω] [Cursor ω κ (Stamped α)] {w : ω} {steps : List (PassStep ω)}
  {film : List (Take ω κ α ρ)} {s : LiveEntries κ α ρ × ω}

/-- A film whose last call told the end leaves the pass over. -/
theorem over_of_film? {past : List (Take ω κ α ρ)} {t : Take ω κ α ρ}
    (h : film? steps (({ project } : LiveEntries κ α ρ), w) = some (past ++ [t], s))
    (hends : t.Ends) : Over s.1 := by
  have hinv : ShutAtEnd s.1 ∧ ∀ u, ([] ++ (past ++ [t])).getLast? = some u → u.Ends →
      s.1.lookahead = .exhausted :=
    film?_invariant (I := fun film s => ShutAtEnd s.1 ∧
        ∀ u, film.getLast? = some u → u.Ends → s.1.lookahead = .exhausted)
      (fun {past s c r} _ hinv hr => by
        have hshut : ShutAtEnd r.world.1 :=
          ShutAtEnd.call? (s := (s.1, ({ world := s.2 } : Logged ω κ α))) hinv.1 hr
        refine ⟨hshut, fun u hu hends => ?_⟩
        rw [List.getLast?_concat, Option.some.injEq] at hu
        exact exhausted_of_ends hr (hu ▸ hends))
      (fun _ hinv => hinv) ⟨fun _ => rfl, fun _ hu => by simp at hu⟩ h
  have hexhausted := hinv.2 t (by simp) hends
  exact ⟨hexhausted, hinv.1 hexhausted⟩

/-- The calls after one that told the end, and the pass after them. -/
theorem over_later_of_film? {past later : List (Take ω κ α ρ)} {t : Take ω κ α ρ}
    (h : film? steps (({ project } : LiveEntries κ α ρ), w) = some (past ++ t :: later, s))
    (hends : t.Ends) : Over s.1 ∧ ∀ u ∈ later, u.asked = [] ∧
      u.event.outcome = u.event.call.whenOver (skippedIn (past ++ [t])) := by
  rw [List.append_cons] at h
  obtain ⟨first, second, mid, -, hfirst, hsecond⟩ := film?_append_eq_some h
  have hover := over_of_film? hfirst hends
  obtain ⟨hsame, hlater⟩ := hover.film? hsecond
  exact ⟨hsame ▸ hover, (balanced_of_film? hfirst).1.skipped_eq ▸ hlater⟩

theorem fused_of_film?
    (h : film? steps (({ project } : LiveEntries κ α ρ), w) = some (film, s)) :
    Fused project film s.1 where
  answers hfilm hends := (over_later_of_film? (hfilm ▸ h) hends).2
  stays ht hends c w := by
    obtain ⟨past, later, rfl⟩ := List.append_of_mem ht
    exact Over.call? (s := (s.1, w)) (over_later_of_film? h hends).1 c
  failed_next := (balanced_of_film? h).2.failed_next
  resumed {past t between u later e} hfilm hnext he hbetween hlooks := by
    have hlaw := (balanced_of_film? h).2
    obtain ⟨-, answer, hlooked, hreply⟩ := (hlaw hfilm).of_looks hlooks
    rw [hlaw.knows_of_failed hnext hfilm he hbetween] at hlooked
    exact ⟨answer, hlooked, hreply⟩

end Films

/-! ## Collecting -/

section Collecting

variable [Context ω] [Cursor ω κ (Stamped α)]

/-- The rest of the sequence as a list, or its first failure. There is no result if its items
come for ever, or the search for one does not return. -/
def collect? (it : LiveEntries κ α ρ) (w : ω) :
    Option (Result (LiveEntries κ α ρ × ω) (List ρ)) :=
  next? (it, w) >>= fun
    | .ok none s => some (.ok [] s)
    | .ok (some item) (it', w') =>
      (collect? (w := w')) it' >>= fun rest => some (rest.map (item :: ·))
    | .error e s => some (.error e s)
partial_fixpoint

/-- Over a cursor that can be drained there is one. -/
theorem collect?_eq_some [Drains ω κ (Stamped α)] (s : LiveEntries κ α ρ × ω) :
    collect? s.1 s.2 = some (collect s) := by
  induction s using collect.induct with
  | case1 s s' h =>
    rw [collect?, collect_eq, next?_eq_some, h]
    rfl
  | case2 s item s' h ih =>
    rw [collect?, collect_eq, next?_eq_some, h]
    simp only [Option.bind_eq_bind, Option.bind_some, ih]
  | case3 s e s' h =>
    rw [collect?, collect_eq, next?_eq_some, h]
    rfl

variable {it : LiveEntries κ α ρ} {w w' : ω} {e : StoreError}

/-- A kept entry comes first. -/
theorem collect?_of_buffered {key : κ} {value : Option α}
    (h : it.lookahead = .buffered key value) : collect? it w =
      (collect? { it with lookahead := .fresh, removable := true } w).map
        (·.map (it.project key value :: ·)) := by
  have hlook := hasNext?_buffered (w := w) h
  rw [collect?, next?_of_hasNext?_true hlook, nextItem?_of_hasNext? hlook h]
  simp only [Option.map_some, Result.map_ok, Option.bind_eq_bind, Option.bind_some]
  exact Option.map_eq_bind.symm

/-- Without one, a live entry that is pulled is the first item. -/
theorem collect?_of_live (hfresh : it.lookahead = .fresh) {key : κ} {value : Option α}
    (h : pull w = .ok (.live key value) w') : collect? it w =
      (collect? { it with removable := true } w').map (·.map (it.project key value :: ·)) := by
  have hlook := hasNext?_fresh (w := w) hfresh
  rw [Sought.seek?_eq (.found h)] at hlook
  rw [collect?, next?_of_hasNext?_true hlook, nextItem?_of_hasNext? hlook rfl]
  simp only [Option.map_some, Result.map_ok, Option.bind_eq_bind, Option.bind_some]
  rw [← hfresh]
  exact Option.map_eq_bind.symm

/-- An expired entry that is pulled is counted. -/
theorem collect?_of_expired (hfresh : it.lookahead = .fresh)
    (h : pull w = .ok (.expired : Pull κ α) w') :
    collect? it w = collect? { it with skipped := it.skipped + 1 } w' := by
  have hfresh' : { it with skipped := it.skipped + 1 }.lookahead = .fresh := hfresh
  have hlook : hasNext? (it, w) = hasNext? ({ it with skipped := it.skipped + 1 }, w') := by
    rw [hasNext?_fresh hfresh, hasNext?_fresh hfresh', seek?, h]
    rfl
  rw [collect?, collect?, next?, next?, hlook]

/-- At the end there is nothing more. -/
theorem collect?_of_ended (hfresh : it.lookahead = .fresh)
    (h : pull w = .ok (.ended : Pull κ α) w') :
    (collect? it w).map Result.outcome = some (.ok []) := by
  have hlook := hasNext?_fresh (w := w) hfresh
  rw [Sought.seek?_eq (.ended h)] at hlook
  rw [collect?, next?_of_hasNext?_false hlook]
  rfl

/-- A failure of the cursor is the failure of the sequence. -/
theorem collect?_of_failed (hfresh : it.lookahead = .fresh)
    (h : pull w = (.error e w' : Result ω (Pull κ α))) :
    (collect? it w).map Result.outcome = some (.error e) := by
  have hlook := hasNext?_fresh (w := w) hfresh
  rw [Sought.seek?_eq (.failed h)] at hlook
  rw [collect?, next?_of_hasNext?_error hlook]
  rfl

/-- What the next of a sequence is, by the turns that the search for it takes. -/
theorem next?_takesTurns (hfresh : it.lookahead = .fresh)
    {r : Result (LiveEntries κ α ρ × ω) (Option ρ)} (h : next? (it, w) = some r) :
    ∃ turns answer w', TakesTurns w turns w' ∧ Looked .fresh turns answer ∧
      match answer with
      | .ok (some e) => ∃ it', r = .ok (some (it.project e.1 e.2)) (it', w') ∧
          it'.lookahead = .fresh ∧ it'.project = it.project
      | .ok none => r.outcome = .ok none
      | .error e => r.outcome = .error e := by
  obtain ⟨looked, hlook, -⟩ := Option.bind_eq_some_iff.mp h
  have hsettled := hlook
  rw [hasNext?_fresh hfresh] at hsettled
  obtain ⟨found, hfound, rfl⟩ := Option.map_eq_some_iff.mp hsettled
  obtain ⟨turns, w', hlooked, htakes, hworld⟩ := sought_iff.mp (sought_of_seek? hfound)
  refine ⟨turns, _, w', htakes, hlooked, ?_⟩
  rcases found with ⟨- | ⟨key, value⟩, s⟩ | ⟨e, s⟩ <;> obtain rfl : s = _ := hworld
  · rw [next?_of_hasNext?_false hlook, Option.some.injEq] at h
    subst h
    rfl
  · rw [next?_of_hasNext?_true hlook, nextItem?_of_hasNext? hlook rfl, Option.map_some,
      Option.some.injEq] at h
    subst h
    exact ⟨_, rfl, rfl, rfl⟩
  · rw [next?_of_hasNext?_error hlook, Option.some.injEq] at h
    subst h
    rfl

/-- In these turns a sequence is collected, after the entry that is kept : entries are pulled up
to the end or a failure, and the items are made of the live ones. -/
def CollectedIn (project : κ → Option α → ρ) (kept : List (κ × Option α))
    (turns : List (Turn κ α)) : Except StoreError (List ρ) → Prop
  | .ok items => ∃ entries, turns = entries ++ [.ended] ∧ (∀ t ∈ entries, t.pulled = true) ∧
      items = (kept ++ entries.filterMap Turn.found?).map fun e => project e.1 e.2
  | .error e => ∃ entries, turns = entries ++ [.failed e] ∧ ∀ t ∈ entries, t.pulled = true

/-- Entries up to a live one are pulled before the others. -/
theorem CollectedIn.after {project : κ → Option α → ρ} {passed turns : List (Turn κ α)}
    {last : Turn κ α} {e : κ × Option α} {outcome : Except StoreError (List ρ)}
    (h : CollectedIn project [] turns outcome) (hpassed : ∀ t ∈ passed, t.expired = true)
    (hlast : last.found? = some e) :
    CollectedIn project [] (passed ++ [last] ++ turns)
      (outcome.map (project e.1 e.2 :: ·)) := by
  have hpulled : ∀ {entries : List (Turn κ α)}, (∀ t ∈ entries, t.pulled = true) →
      ∀ t ∈ passed ++ [last] ++ entries, t.pulled = true := by
    intro entries hentries t ht
    rw [List.append_assoc, List.mem_append, List.singleton_append, List.mem_cons] at ht
    rcases ht with ht | rfl | ht
    · exact Turn.pulled_of_expired (hpassed t ht)
    · exact Turn.pulled_of_found? hlast
    · exact hentries t ht
  rcases outcome with e' | items
  · obtain ⟨entries, rfl, hentries⟩ := h
    exact ⟨passed ++ [last] ++ entries, (List.append_assoc ..).symm, hpulled hentries⟩
  · obtain ⟨entries, rfl, hentries, rfl⟩ := h
    refine ⟨passed ++ [last] ++ entries, (List.append_assoc ..).symm, hpulled hentries, ?_⟩
    rw [List.filterMap_append, List.filterMap_append, filterMap_found?_eq_nil hpassed,
      List.filterMap_cons_some hlast]
    rfl

/-- Entries that can be pulled up to a turn of another kind are collected. -/
theorem collect?_of_takesTurns {last : Turn κ α} (close : Except StoreError Unit)
    (hlast : last.answer? = some (close.map fun _ => none)) :
    ∀ {entries : List (Turn κ α)} {it : LiveEntries κ α ρ} {w w' : ω}, it.lookahead = .fresh →
      TakesTurns w (entries ++ [last]) w' → (∀ t ∈ entries, t.pulled = true) →
      (collect? it w).map Result.outcome = some (close.map fun _ =>
        (entries.filterMap Turn.found?).map fun e => it.project e.1 e.2)
  | [], it, w, w', hfresh, .turn hturn .done, _ => by
    have hpull := hturn.pull_eq
    rw [Turn.result, hlast] at hpull
    rcases close with e | ⟨⟩
    · exact collect?_of_failed hfresh hpull
    · exact collect?_of_ended hfresh hpull
  | t :: entries, it, w, w', hfresh, .turn hturn hrest, hpulled => by
    have hpull := hturn.pull_eq
    have hentries : ∀ u ∈ entries, u.pulled = true := fun u hu =>
      hpulled u (List.mem_cons_of_mem _ hu)
    rcases Turn.pulled_cases (hpulled t List.mem_cons_self) with ⟨hanswer, hfound⟩ |
      ⟨e, hanswer, hfound⟩ <;> rw [Turn.result, hanswer] at hpull
    · have hfresh' : { it with skipped := it.skipped + 1 }.lookahead = .fresh := hfresh
      rw [collect?_of_expired hfresh hpull, List.filterMap_cons_none hfound]
      exact collect?_of_takesTurns close hlast hfresh' hrest hentries
    · have hfresh' : { it with removable := true }.lookahead = .fresh := hfresh
      have ih := collect?_of_takesTurns close hlast hfresh' hrest hentries
      obtain ⟨r, hr, houtcome⟩ := Option.map_eq_some_iff.mp ih
      rw [collect?_of_live hfresh hpull, List.filterMap_cons_some hfound, List.map_cons, hr,
        Option.map_some, Option.map_some, Result.outcome_map, houtcome]
      cases close <;> rfl

/-- What is collected was pulled. -/
theorem takesTurns_of_collect? {r : Result (LiveEntries κ α ρ × ω) (List ρ)}
    (hfresh : it.lookahead = .fresh) (h : collect? it w = some r) :
    ∃ turns w', TakesTurns w turns w' ∧ CollectedIn it.project [] turns r.outcome := by
  refine collect?.partial_correctness (fun it w r => it.lookahead = .fresh →
    ∃ turns w', TakesTurns w turns w' ∧ CollectedIn it.project [] turns r.outcome)
    (fun f ih it w r h hfresh => ?_) it w r h hfresh
  obtain ⟨answered, hnext, hrest⟩ := Option.bind_eq_some_iff.mp h
  obtain ⟨turns, answer, w', htakes, hlooked, hanswer⟩ := next?_takesTurns hfresh hnext
  cases hlooked with
  | @sought passed last _ hpassed hlast =>
  have hpulled : ∀ t ∈ passed, t.pulled = true := fun t ht =>
    Turn.pulled_of_expired (hpassed t ht)
  have hnone := filterMap_found?_eq_nil hpassed
  rcases answer with e | - | e
  · obtain rfl : last = .failed e := Turn.answer?_eq_error_iff.mp hlast
    rcases answered with ⟨_, _⟩ | ⟨e', s'⟩ <;> cases hanswer
    cases hrest
    exact ⟨_, w', htakes, passed, rfl, hpulled⟩
  · obtain rfl : last = .ended := Turn.isEnded_iff.mp (Turn.answer?_eq_ended_iff.mp hlast)
    rcases answered with ⟨a, s'⟩ | ⟨e', s'⟩ <;> cases hanswer
    cases hrest
    exact ⟨_, w', htakes, passed, rfl, hpulled, by rw [hnone]; rfl⟩
  · obtain ⟨it', rfl, hfresh', hproject⟩ := hanswer
    obtain ⟨rest, hcollect, heq⟩ := Option.bind_eq_some_iff.mp hrest
    cases heq
    obtain ⟨turns, w'', htakes', hcollected⟩ := ih _ _ _ hcollect hfresh'
    have hfound : last.found? = some e := by rw [Turn.found?, hlast]
    refine ⟨_, w'', htakes.append htakes', ?_⟩
    rw [Result.outcome_map]
    exact CollectedIn.after (hproject ▸ hcollected) hpassed hfound

theorem collect?_outcome_of_fresh (hfresh : it.lookahead = .fresh)
    {outcome : Except StoreError (List ρ)} :
    (collect? it w).map Result.outcome = some outcome ↔
      ∃ turns w', TakesTurns w turns w' ∧ CollectedIn it.project [] turns outcome := by
  constructor
  · intro h
    obtain ⟨r, hr, rfl⟩ := Option.map_eq_some_iff.mp h
    exact takesTurns_of_collect? hfresh hr
  · rintro ⟨turns, w', htakes, hcollected⟩
    rcases outcome with e | items
    · obtain ⟨entries, rfl, hpulled⟩ := hcollected
      exact collect?_of_takesTurns (.error e) rfl hfresh htakes hpulled
    · obtain ⟨entries, rfl, hpulled, rfl⟩ := hcollected
      exact collect?_of_takesTurns (.ok ()) rfl hfresh htakes hpulled

/-- The entry that is kept is collected first. -/
theorem collectedIn_kept {project : κ → Option α → ρ} {turns : List (Turn κ α)}
    {kept : κ × Option α} {outcome : Except StoreError (List ρ)} :
    CollectedIn project [kept] turns outcome ↔ ∃ rest, CollectedIn project [] turns rest ∧
      rest.map (project kept.1 kept.2 :: ·) = outcome := by
  constructor
  · intro h
    rcases outcome with e | items
    · exact ⟨.error e, h, rfl⟩
    · obtain ⟨entries, hturns, hpulled, rfl⟩ := h
      exact ⟨.ok _, ⟨entries, hturns, hpulled, rfl⟩, rfl⟩
  · rintro ⟨rest, h, rfl⟩
    rcases rest with e | items
    · exact h
    · obtain ⟨entries, hturns, hpulled, rfl⟩ := h
      exact ⟨entries, hturns, hpulled, rfl⟩

/-- What a sequence that is not at its end collects is told by the turns ahead of it. -/
theorem collect?_outcome_iff (hopen : it.lookahead ≠ .exhausted)
    {outcome : Except StoreError (List ρ)} :
    (collect? it w).map Result.outcome = some outcome ↔
      ∃ turns w', TakesTurns w turns w' ∧
        CollectedIn it.project it.lookahead.kept turns outcome := by
  rcases hl : it.lookahead with - | ⟨key, value⟩ | -
  · exact collect?_outcome_of_fresh hl
  · have hmap : (Result.outcome ∘ (·.map (it.project key value :: ·)) :
        Result (LiveEntries κ α ρ × ω) (List ρ) → _) =
          (·.map (it.project key value :: ·)) ∘ Result.outcome :=
      funext fun r => Result.outcome_map r _
    rw [collect?_of_buffered hl, Option.map_map, hmap, ← Option.map_map, Option.map_eq_some_iff]
    have hfresh : { it with lookahead := .fresh, removable := true }.lookahead = .fresh := rfl
    simp only [collect?_outcome_of_fresh hfresh, Lookahead.kept, collectedIn_kept]
    constructor
    · rintro ⟨rest, ⟨turns, w', htakes, hcollected⟩, heq⟩
      exact ⟨turns, w', htakes, rest, hcollected, heq⟩
    · rintro ⟨turns, w', htakes, rest, hcollected, heq⟩
      exact ⟨rest, ⟨turns, w', htakes, hcollected⟩, heq⟩
  · exact absurd hl hopen

end Collecting

/-- A pass that has ended stays at its end, over any cursor and whatever is called and changed
then, and only the sequence ends at a failure. So collecting it gives all the live items, up to
the end, or the first failure of the cursor. -/
theorem pass_fused (project : κ → Option α → ρ) :
    (∀ {ω : Type} [Context ω] [Cursor ω κ (Stamped α)] {w w' : ω} {steps : List (PassStep ω)}
        {history : List (PassEvent ρ)} {it : LiveEntries κ α ρ},
      run? steps ({ project }, w) = some (history, it, w') →
        ∃ film, film? steps ({ project }, w) = some (film, it, w') ∧ history = eventsIn film ∧
          Fused project film it) ∧
    ∀ {ω : Type} [Context ω] [Cursor ω κ (Stamped α)] {it : LiveEntries κ α ρ} {w : ω}
        {outcome : Except StoreError (List ρ)},
      it.lookahead ≠ .exhausted →
        ((collect? it w).map Result.outcome = some outcome ↔
          ∃ turns w', TakesTurns w turns w' ∧
            CollectedIn it.project it.lookahead.kept turns outcome) := by
  refine ⟨fun h => ?_, fun hopen => collect?_outcome_iff hopen⟩
  obtain ⟨film, hfilm, rfl⟩ := film?_of_run? h
  exact ⟨film, hfilm, rfl, fused_of_film? hfilm⟩

/-- The sequence that has met the failure before the null. -/
def failedPass : LiveEntries Nat Nat (Option Nat) := { valuesPass 1 with lookahead := .exhausted }

/-- A sequence that has failed is at its end, though its cursor has a null to answer. To collect
it from its start is to meet the failure. -/
theorem pass_fused_failed :
    (∀ c, ∃ r, call? c (failedPass, faultMet) = some r ∧ r.world = (failedPass, faultMet) ∧
      r.outcome = c.whenOver 1) ∧
    (collect? (valuesPass 0) faulty).map Result.outcome =
      some (.error (.backend "disk on fire")) := by
  have hlook : hasNext? (valuesPass 0, faulty) =
      some (.error (.backend "disk on fire") (valuesPass 1, faultMet)) := by
    simp only [hasNext?, valuesPass, seek?_faulty]
    rfl
  have hrun : run? [.call .next] (valuesPass 0, faulty) =
      some ([⟨.next, .error (.backend "disk on fire")⟩], failedPass, faultMet) := by
    simp only [run?, call?, next?_of_hasNext?_error hlook]
    rfl
  constructor
  · obtain ⟨film, -, hevents, hfused⟩ := (pass_fused fun _ (value : Option Nat) => value).1 hrun
    obtain ⟨t, rfl, hevent⟩ := List.map_eq_singleton_iff.mp hevents.symm
    exact fun c => hfused.stays List.mem_cons_self (.failed hevent) c faultMet
  · refine ((pass_fused fun _ (value : Option Nat) => value).2 (by simp [valuesPass])).mpr
      ⟨[.value 1 10 0 0 false, .failed (.backend "disk on fire")], faultMet,
        .turn rfl (.turn rfl .done), [.value 1 10 0 0 false], rfl, ?_⟩
    simp [Turn.pulled, Turn.entry?]

end LiveEntries

end LazyExpiry
