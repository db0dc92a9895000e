import LazyExpiry.Proofs.Pass.Logged

/-!
# The turns of a pass

Looking ahead takes turns with the cursor : each advances it and, if there is an entry,
reads the clock and has a value judged (`Turn`). What a call asked can be read as turns
(`turnsOf`), and what looking ahead comes to is a matter of turns and of what the pass
knew before (`Looked`, `call?_looked`).

A film of a run keeps of every call the world it met and what it asked (`Take`, `film?`).
A run is its film with these forgotten (`run?_eq_film?`), and what every call keeps holds
of every film (`film?_invariant`).
-/

namespace LazyExpiry

variable {ω κ α ρ : Type}

/-! ## Turns -/

/-- One answer of a cursor, with what was asked about it. -/
inductive Turn (κ α : Type) where
  /-- An explicit null, which is live without being judged. -/
  | null (key : κ) (writtenAt now : Timestamp)
  /-- A value, judged at the time that was read. -/
  | value (key : κ) (v : α) (writtenAt now : Timestamp) (live : Bool)
  | ended
  | failed (e : StoreError)

namespace Turn

/-- What is asked in a turn : the clock is read once for an entry, after it has come. -/
def asked : Turn κ α → List (Asked κ α)
  | null key writtenAt now => [.advanced (.ok (some (key, ⟨none, writtenAt⟩))), .read now]
  | value key v writtenAt now live =>
    [.advanced (.ok (some (key, ⟨some v, writtenAt⟩))), .read now, .judged writtenAt now live]
  | ended => [.advanced (.ok none)]
  | failed e => [.advanced (.error e)]

/-- The entry that was pulled, with the time that was read. -/
def entry? : Turn κ α → Option (κ × Stamped α × Timestamp)
  | null key writtenAt now => some (key, ⟨none, writtenAt⟩, now)
  | value key v writtenAt now _ => some (key, ⟨some v, writtenAt⟩, now)
  | ended => none
  | failed _ => none

/-- An entry was pulled. -/
def pulled (t : Turn κ α) : Bool := t.entry?.isSome

/-- What a search comes to in a turn : a live entry, the end or a failure. An expired
entry is no answer. -/
def answer? : Turn κ α → Option (Except StoreError (Option (κ × Option α)))
  | null key _ _ => some (.ok (some (key, none)))
  | value key v _ _ true => some (.ok (some (key, some v)))
  | value _ _ _ _ false => none
  | ended => some (.ok none)
  | failed e => some (.error e)

/-- The live entry of a turn. -/
def found? (t : Turn κ α) : Option (κ × Option α) :=
  match t.answer? with
  | some (.ok e) => e
  | _ => none

/-- The entry was pulled and passed over. -/
def expired (t : Turn κ α) : Bool := t.answer?.isNone

/-- The cursor answered that there is no entry. -/
def isEnded : Turn κ α → Bool
  | ended => true
  | _ => false

/-- The entry was judged by `policy`. -/
def JudgedBy (policy : Policy) : Turn κ α → Prop
  | value _ _ writtenAt now live => live = policy writtenAt now
  | _ => True

/-- An entry is found in a turn if it passes the check at the time read in that turn. -/
theorem found?_eq_check {policy : Policy} {t : Turn κ α} (h : t.JudgedBy policy) :
    t.found? = t.entry?.bind fun e => (check policy (some e.2.1) e.2.2).map (e.1, ·) := by
  match t with
  | null key writtenAt now => rfl
  | value key v writtenAt now live =>
    obtain rfl : live = policy writtenAt now := h
    rcases hp : policy writtenAt now <;> simp [found?, answer?, entry?, hp]
  | ended => rfl
  | failed e => rfl

/-- A live entry is one that was pulled. -/
theorem entry?_of_found? {t : Turn κ α} {key : κ} {value : Option α}
    (h : t.found? = some (key, value)) : ∃ stored now, t.entry? = some (key, stored, now) := by
  match t with
  | null _ _ _ =>
    cases h
    exact ⟨_, _, rfl⟩
  | Turn.value _ _ _ _ true =>
    cases h
    exact ⟨_, _, rfl⟩
  | Turn.value _ _ _ _ false => cases h
  | ended => cases h
  | failed _ => cases h

theorem isEnded_iff {t : Turn κ α} : t.isEnded = true ↔ t = .ended := by
  match t with
  | null _ _ _ => simp [isEnded]
  | value _ _ _ _ _ => simp [isEnded]
  | ended => simp [isEnded]
  | failed _ => simp [isEnded]

theorem any_isEnded_iff {turns : List (Turn κ α)} :
    turns.any isEnded = true ↔ .ended ∈ turns := by
  rw [List.any_eq_true]
  constructor
  · rintro ⟨t, ht, hended⟩
    exact isEnded_iff.mp hended ▸ ht
  · exact fun h => ⟨.ended, h, rfl⟩

theorem answer?_eq_ended_iff {t : Turn κ α} : t.answer? = some (.ok none) ↔ t.isEnded = true := by
  match t with
  | null _ _ _ => simp [answer?, isEnded]
  | value _ _ _ _ true => simp [answer?, isEnded]
  | value _ _ _ _ false => simp [answer?, isEnded]
  | ended => simp [answer?, isEnded]
  | failed _ => simp [answer?, isEnded]

theorem answer?_eq_error_iff {t : Turn κ α} {e : StoreError} :
    t.answer? = some (.error e) ↔ t = .failed e := by
  match t with
  | null _ _ _ => simp [answer?]
  | value _ _ _ _ true => simp [answer?]
  | value _ _ _ _ false => simp [answer?]
  | ended => simp [answer?]
  | failed _ => simp [answer?]

/-- Every entry that was pulled was found or passed over. -/
theorem countP_pulled (turns : List (Turn κ α)) :
    turns.countP pulled = (turns.filterMap found?).length + turns.countP expired := by
  have live : ∀ {t : Turn κ α} {e}, t.pulled = true → t.found? = some e → t.expired = false →
      ∀ turns, turns.countP pulled = (turns.filterMap found?).length + turns.countP expired →
      (t :: turns).countP pulled =
        ((t :: turns).filterMap found?).length + (t :: turns).countP expired := by
    intro t e hpulled hfound hexpired turns ih
    rw [List.countP_cons_of_pos hpulled, List.filterMap_cons_some hfound,
      List.countP_cons_of_neg (by simp [hexpired]), ih, List.length_cons]
    omega
  induction turns with
  | nil => rfl
  | cons t turns ih =>
    match t with
    | null _ _ _ => exact live rfl rfl rfl turns ih
    | value _ _ _ _ true => exact live rfl rfl rfl turns ih
    | value _ _ _ _ false =>
      rw [List.countP_cons_of_pos rfl, List.filterMap_cons_none rfl, List.countP_cons_of_pos rfl,
        ih]
      omega
    | ended => exact ih
    | failed _ => exact ih

end Turn

/-- What was asked, read as turns. Removals are left out. -/
def turnsOf : List (Asked κ α) → List (Turn κ α)
  | .advanced (.ok (some (key, ⟨none, writtenAt⟩))) :: .read now :: rest =>
    .null key writtenAt now :: turnsOf rest
  | .advanced (.ok (some (key, ⟨some v, writtenAt⟩))) :: .read now :: .judged _ _ live :: rest =>
    .value key v writtenAt now live :: turnsOf rest
  | .advanced (.ok none) :: rest => .ended :: turnsOf rest
  | .advanced (.error e) :: rest => .failed e :: turnsOf rest
  | _ :: rest => turnsOf rest
  | [] => []

/-- What is asked in turns reads as these turns. -/
@[simp] theorem turnsOf_asked (turns : List (Turn κ α)) :
    turnsOf (turns.flatMap Turn.asked) = turns := by
  induction turns with
  | nil => rfl
  | cons t rest ih =>
    match t with
    | .null _ _ _ => simp [Turn.asked, turnsOf, ih]
    | .value _ _ _ _ _ => simp [Turn.asked, turnsOf, ih]
    | .ended => simp [Turn.asked, turnsOf, ih]
    | .failed _ => simp [Turn.asked, turnsOf, ih]

theorem Turn.asked_inj {t u : Turn κ α} (h : t.asked = u.asked) : t = u := by
  have hread := congrArg turnsOf h
  have single : ∀ v : Turn κ α, turnsOf v.asked = [v] := fun v => by
    rw [← List.flatMap_singleton Turn.asked v, turnsOf_asked]
  rwa [single, single, List.singleton_inj] at hread

/-- A call on a pass, with the world that it met and what it asked of it. -/
structure Take (ω κ α ρ : Type) where
  before : ω
  event : PassEvent ρ
  asked : List (Asked κ α)

/-- The turns that a call took with the cursor. -/
def Take.turns (t : Take ω κ α ρ) : List (Turn κ α) := turnsOf t.asked

/-- What a call on a world that writes down what it is asked came to. -/
def Take.of (s : LiveEntries κ α ρ × ω) (c : PassCall)
    (r : Result (LiveEntries κ α ρ × Logged ω κ α) (PassAnswer ρ)) : Take ω κ α ρ :=
  ⟨s.2, ⟨c, r.outcome⟩, r.world.2.log⟩

/-! ## Looking ahead -/

/-- What a call that looks ahead answers, given what looking ahead came to. -/
def PassCall.reply (project : κ → Option α → ρ) (c : PassCall) :
    Except StoreError (Option (κ × Option α)) → Except StoreError (PassAnswer ρ)
  | .ok (some e) => .ok (if c = .hasNext then .flag true else .item (project e.1 e.2))
  | .ok none =>
    match c with
    | .hasNext => .ok (.flag false)
    | .next => .ok .ended
    | _ => .error .endOfSequence
  | .error e => .error e

/-- What a pass knows after such a call. -/
def PassCall.leaves (c : PassCall) : Except StoreError (Option (κ × Option α)) → Lookahead κ α
  | .ok (some e) => if c = .hasNext then .buffered e.1 e.2 else .fresh
  | .ok none => .exhausted
  | .error _ => if c = .next then .exhausted else .fresh

section Looking

variable [Context ω] [Cursor ω κ (Stamped α)]

/-- A pull that is the turn `t`, from world to world. -/
def TakesTurn (w : ω) (t : Turn κ α) (w' : ω) : Prop :=
  (pull ({ world := w } : Logged ω κ α)).world = ⟨w', t.asked⟩

/-- Turns taken one after the other. -/
inductive TakesTurns : ω → List (Turn κ α) → ω → Prop where
  | done {w : ω} : TakesTurns w [] w
  | turn {w w' w'' : ω} {t : Turn κ α} {turns : List (Turn κ α)} :
    TakesTurn w t w' → TakesTurns w' turns w'' → TakesTurns w (t :: turns) w''

/-- A pull is a turn, and the answer of that turn is what it brings. -/
theorem pull_turn (r : Logged ω κ α) :
    ∃ (t : Turn κ α) (w' : ω), TakesTurn r.world t w' ∧ (pull r).world = ⟨w', r.log ++ t.asked⟩ ∧
      match (pull r).outcome with
      | .ok (.live key value) => t.answer? = some (.ok (some (key, value)))
      | .ok .expired => t.answer? = none
      | .ok .ended => t.answer? = some (.ok none)
      | .error e => t.answer? = some (.error e) := by
  unfold TakesTurn pull
  simp only [Cursor.advance]
  rcases Cursor.advance r.world with ⟨- | ⟨key, - | v, writtenAt⟩, w⟩ | ⟨e, w⟩
  · exact ⟨.ended, w, rfl, rfl, rfl⟩
  · refine ⟨.null key writtenAt (Context.now w).1, (Context.now w).2, ?_, ?_, rfl⟩ <;>
      simp [judge, Context.now, Logged.ask, Turn.asked]
  · simp only [Result.mapWorld_ok, judge, Context.now, Context.isLive, Logged.ask]
    by_cases hlive : (Context.isLive writtenAt (Context.now w).1 (Context.now w).2).1 = true
    · refine ⟨.value key v writtenAt (Context.now w).1 true,
        (Context.isLive writtenAt (Context.now w).1 (Context.now w).2).2, ?_⟩
      simp [hlive, Turn.asked, Turn.answer?]
    · refine ⟨.value key v writtenAt (Context.now w).1 false,
        Context.note (.skipping (Context.now w).1)
          (Context.isLive writtenAt (Context.now w).1 (Context.now w).2).2, ?_⟩
      simp [hlive, Turn.asked, Turn.answer?, Context.note]
  · exact ⟨.failed e, w, rfl, rfl, rfl⟩

/-- Worlds that answer alike take the same turns. -/
theorem TakesTurn.mirror {σ : Type} [Context σ] [Cursor σ κ (Stamped α)] {view : ω → σ}
    (hv : Mirrors view) {w w' : ω} {t : Turn κ α} (h : TakesTurn w t w') :
    TakesTurn (view w) t (view w') := by
  have hlogged : Mirrors fun r : Logged ω κ α => (⟨view r.world, r.log⟩ : Logged σ κ α) :=
    { now := fun r => by simp only [Context.now, hv.now]; rfl
      isLive := fun _ _ r => by simp only [Context.isLive, hv.isLive]; rfl
      note := fun _ r => by simp only [Context.note, hv.note]
      advance := fun r => by
        simp only [Logged.advance_eq, hv.advance, Result.outcome_mapWorld]
        rcases Cursor.advance r.world with _ | _ <;> rfl
      removeCurrent := fun r => by
        simp only [Logged.removeCurrent_eq, hv.removeCurrent, Result.outcome_mapWorld]
        rcases Cursor.removeCurrent r.world with _ | _ <;> rfl }
  have hpull := hlogged.pull ⟨w, []⟩
  unfold TakesTurn at h ⊢
  dsimp only at hpull
  rw [hpull, Result.world_mapWorld, h]

/-- What looking ahead comes to, given what the pass knows and the turns it takes. -/
inductive Looked :
    Lookahead κ α → List (Turn κ α) → Except StoreError (Option (κ × Option α)) → Prop
  /-- The entry that is kept. -/
  | kept {key : κ} {value : Option α} : Looked (.buffered key value) [] (.ok (some (key, value)))
  /-- Nothing, without asking. -/
  | exhausted : Looked .exhausted [] (.ok none)
  /-- The first answer, after the expired entries before it. -/
  | sought {passed : List (Turn κ α)} {last : Turn κ α}
    {answer : Except StoreError (Option (κ × Option α))} :
    (∀ t ∈ passed, t.expired = true) → last.answer? = some answer →
      Looked .fresh (passed ++ [last]) answer

namespace LiveEntries

omit [Context ω] [Cursor ω κ (Stamped α)] in
/-- The first of some more expired entries is counted first. -/
theorem skipped_succ (skipped : UInt64) (n : Nat) :
    skipped + .ofNat (n + 1) = skipped + 1 + .ofNat n := by
  rw [Nat.add_comm, UInt64.ofNat_add, ← UInt64.add_assoc]
  rfl

/-- A search takes turns with the cursor until one has an answer. -/
theorem Sought.turns {skipped : UInt64} {r : Logged ω κ α}
    {res : Result (UInt64 × Logged ω κ α) (Option (κ × Option α))} (h : Sought skipped r res) :
    ∃ turns w', Looked .fresh turns res.outcome ∧ TakesTurns r.world turns w' ∧
      res.world = (skipped + .ofNat (turns.countP Turn.expired),
        ⟨w', r.log ++ turns.flatMap Turn.asked⟩) := by
  have single : ∀ {skipped : UInt64} {r : Logged ω κ α} {w' : ω} {t : Turn κ α}
      {res : Result (UInt64 × Logged ω κ α) (Option (κ × Option α))},
      TakesTurn r.world t w' → t.answer? = some res.outcome →
      res.world = (skipped, ⟨w', r.log ++ t.asked⟩) →
      ∃ turns w', Looked .fresh turns res.outcome ∧ TakesTurns r.world turns w' ∧
        res.world = (skipped + .ofNat (turns.countP Turn.expired),
          ⟨w', r.log ++ turns.flatMap Turn.asked⟩) := by
    intro skipped r w' t res htakes hanswer hw
    refine ⟨[] ++ [t], w', .sought (by simp) hanswer, .turn htakes .done, ?_⟩
    simp [hw, Turn.expired, hanswer]
  induction h with
  | @failed skipped r _ _ hp | @found skipped r _ _ _ hp | @ended skipped r _ hp =>
    obtain ⟨t, w', htakes, hworld, ht⟩ := pull_turn r
    rw [hp] at hworld ht
    exact single htakes ht (congrArg _ hworld)
  | @passed skipped r r' res hp _ ih =>
    obtain ⟨t, w', htakes, hworld, ht⟩ := pull_turn r
    rw [hp] at hworld ht
    obtain rfl : r' = ⟨w', r.log ++ t.asked⟩ := hworld
    have hexpired : t.expired = true := by simpa [Turn.expired] using ht
    obtain ⟨turns, w'', hlooked, htakes', hres⟩ := ih
    refine ⟨t :: turns, w'', ?_, .turn htakes htakes', ?_⟩
    · cases hlooked with
      | @sought passed last _ hpassed hlast =>
        rw [← List.cons_append]
        exact .sought (by simpa [hexpired] using hpassed) hlast
    · rw [hres, List.countP_cons_of_pos hexpired, List.flatMap_cons, List.append_assoc,
        skipped_succ]

/-- Looking ahead asks what its turns ask, answers by what they come to and counts the
expired entries among them. -/
structure LooksAhead (c : PassCall) (s : LiveEntries κ α ρ × Logged ω κ α)
    (turns : List (Turn κ α)) (answer : Except StoreError (Option (κ × Option α)))
    (res : Result (LiveEntries κ α ρ × Logged ω κ α) (PassAnswer ρ)) : Prop where
  looked : Looked s.1.lookahead turns answer
  takes : ∃ w', TakesTurns s.2.world turns w' ∧
    (res.world.2.world = w' ∨ ∃ n, res.world.2.world = Context.note (.exhausted n) w')
  log_eq : res.world.2.log = s.2.log ++ turns.flatMap Turn.asked
  outcome_eq : res.outcome = c.reply s.1.project answer
  project_eq : res.world.1.project = s.1.project
  skipped_eq : res.world.1.skipped = s.1.skipped + .ofNat (turns.countP Turn.expired)
  lookahead_eq : res.world.1.lookahead = c.leaves answer

theorem hasNext?_looksAhead {s : LiveEntries κ α ρ × Logged ω κ α}
    {looked : Result (LiveEntries κ α ρ × Logged ω κ α) Bool} (h : hasNext? s = some looked) :
    ∃ turns answer, LooksAhead .hasNext s turns answer (looked.map .flag) := by
  obtain ⟨it, r⟩ := s
  rcases hl : it.lookahead with - | ⟨key, value⟩ | -
  · rw [hasNext?_fresh hl] at h
    obtain ⟨found, hf, rfl⟩ := Option.map_eq_some_iff.mp h
    obtain ⟨turns, w', hlooked, htakes, hworld⟩ := (sought_of_seek? hf).turns
    refine ⟨turns, found.outcome, hl ▸ hlooked, ⟨w', htakes, ?_⟩, ?_, ?_, ?_, ?_, ?_⟩ <;>
      rcases found with ⟨- | ⟨key, value⟩, s'⟩ | ⟨e, s'⟩ <;> obtain rfl : s' = _ := hworld
    all_goals first | rfl | exact .inl rfl | exact .inr ⟨_, rfl⟩ | exact hl
  · rw [hasNext?_buffered hl] at h
    cases h
    exact ⟨[], .ok (some (key, value)), hl ▸ .kept, ⟨_, .done, .inl rfl⟩, by simp, rfl, rfl,
      (UInt64.add_zero _).symm, hl⟩
  · rw [hasNext?_exhausted hl] at h
    cases h
    exact ⟨[], .ok none, hl ▸ .exhausted, ⟨_, .done, .inl rfl⟩, by simp, rfl, rfl,
      (UInt64.add_zero _).symm, hl⟩

section Calls

variable {s : LiveEntries κ α ρ × Logged ω κ α} {turns : List (Turn κ α)}
  {answer : Except StoreError (Option (κ × Option α))}

/-- Whether there is an entry tells what looking ahead came to. -/
theorem LooksAhead.hasNext_cases {looked : Result (LiveEntries κ α ρ × Logged ω κ α) Bool}
    (h : LooksAhead .hasNext s turns answer (looked.map .flag)) :
    (∃ key value s', answer = .ok (some (key, value)) ∧ looked = .ok true s') ∨
      (∃ s', answer = .ok none ∧ looked = .ok false s') ∨
      ∃ e s', answer = .error e ∧ looked = .error e s' := by
  have hout := h.outcome_eq
  rcases looked with ⟨_ | _, s'⟩ | ⟨e, s'⟩ <;> rcases answer with e' | - | ⟨key, value⟩ <;>
    simp only [PassCall.reply, Result.map_ok, Result.map_error, Result.outcome_ok,
      Result.outcome_error, reduceIte, reduceCtorEq, Except.ok.injEq, Except.error.injEq,
      PassAnswer.flag.injEq] at hout
  · exact .inr (.inl ⟨s', rfl, rfl⟩)
  · exact .inl ⟨key, value, s', rfl, rfl⟩
  · exact .inr (.inr ⟨e, s', by rw [hout], rfl⟩)

theorem nextItem?_looksAhead {handed : Result (LiveEntries κ α ρ × Logged ω κ α) ρ}
    (h : nextItem? s = some handed) :
    ∃ turns answer, LooksAhead .nextItem s turns answer (handed.map .item) := by
  obtain ⟨looked, hl, hr⟩ := Option.map_eq_some_iff.mp h
  obtain ⟨turns, answer, ha⟩ := hasNext?_looksAhead hl
  refine ⟨turns, answer, ?_⟩
  rcases ha.hasNext_cases with ⟨key, value, s', rfl, rfl⟩ | ⟨s', rfl, rfl⟩ | ⟨e, s', rfl, rfl⟩
  · rw [nextItem?_of_hasNext? hl ha.lookahead_eq, Option.some.injEq] at h
    subst h
    exact ⟨ha.looked, ha.takes, ha.log_eq, by rw [← ha.project_eq]; rfl, ha.project_eq,
      ha.skipped_eq, rfl⟩
  · subst hr
    exact ⟨ha.looked, ha.takes, ha.log_eq, rfl, ha.project_eq, ha.skipped_eq, ha.lookahead_eq⟩
  · subst hr
    exact ⟨ha.looked, ha.takes, ha.log_eq, rfl, ha.project_eq, ha.skipped_eq, ha.lookahead_eq⟩

theorem next?_looksAhead {res : Result (LiveEntries κ α ρ × Logged ω κ α) (Option ρ)}
    (h : next? s = some res) :
    ∃ turns answer, LooksAhead .next s turns answer (res.map .ofNext) := by
  obtain ⟨looked, hl, -⟩ := Option.bind_eq_some_iff.mp h
  obtain ⟨turns, answer, ha⟩ := hasNext?_looksAhead hl
  refine ⟨turns, answer, ?_⟩
  rcases ha.hasNext_cases with ⟨key, value, s', rfl, rfl⟩ | ⟨s', rfl, rfl⟩ | ⟨e, s', rfl, rfl⟩
  · rw [next?_of_hasNext?_true hl, nextItem?_of_hasNext? hl ha.lookahead_eq, Option.map_some,
      Option.some.injEq] at h
    subst h
    exact ⟨ha.looked, ha.takes, ha.log_eq, by rw [← ha.project_eq]; rfl, ha.project_eq,
      ha.skipped_eq, rfl⟩
  · rw [next?_of_hasNext?_false hl, Option.some.injEq] at h
    subst h
    exact ⟨ha.looked, ha.takes, ha.log_eq, rfl, ha.project_eq, ha.skipped_eq, ha.lookahead_eq⟩
  · rw [next?_of_hasNext?_error hl, Option.some.injEq] at h
    subst h
    exact ⟨ha.looked, ha.takes, ha.log_eq, rfl, ha.project_eq, ha.skipped_eq, rfl⟩

/-- A call that looks ahead comes to what its turns do. A removal forwards at most one
question, and the count of skipped entries is the pass's own. -/
def ComesTo (c : PassCall) (s : LiveEntries κ α ρ × Logged ω κ α)
    (res : Result (LiveEntries κ α ρ × Logged ω κ α) (PassAnswer ρ)) : Prop :=
  match c with
  | .removeCurrent =>
    (res.world.2 = s.2 ∨ res.world.2 = s.2.ask (Cursor.removeCurrent s.2.world).world
      (.removed (Cursor.removeCurrent s.2.world).outcome)) ∧
      ∃ removable, res.world.1 = { s.1 with removable }
  | .skipped => res = .ok (.count s.1.skipped) s
  | c => ∃ turns answer, LooksAhead c s turns answer res

theorem comesTo_of_call? {c : PassCall}
    {res : Result (LiveEntries κ α ρ × Logged ω κ α) (PassAnswer ρ)} (h : call? c s = some res) :
    ComesTo c s res := by
  match c with
  | .hasNext =>
    obtain ⟨looked, hl, rfl⟩ := Option.map_eq_some_iff.mp h
    exact hasNext?_looksAhead hl
  | .nextItem =>
    obtain ⟨handed, hi, rfl⟩ := Option.map_eq_some_iff.mp h
    exact nextItem?_looksAhead hi
  | .next =>
    obtain ⟨answered, hn, rfl⟩ := Option.map_eq_some_iff.mp h
    exact next?_looksAhead hn
  | .removeCurrent =>
    rw [call?, Option.some.injEq] at h
    subst h
    rw [removeCurrent_eq, Logged.removeCurrent_eq]
    split
    · rcases hw : Cursor.removeCurrent s.2.world with _ | _
      · exact ⟨.inr (by rw [hw]; rfl), false, rfl⟩
      · exact ⟨.inr (by rw [hw]; rfl), _, rfl⟩
    · exact ⟨.inl rfl, _, rfl⟩
  | .skipped => exact (Option.some.inj h).symm

end Calls

/-! ## Films -/

/-- Takes steps in order as `run?` does, and films the calls. -/
def film? : List (PassStep ω) → LiveEntries κ α ρ × ω →
    Option (List (Take ω κ α ρ) × LiveEntries κ α ρ × ω)
  | [], s => some ([], s)
  | .call c :: rest, s =>
    (call? c (s.1, ({ world := s.2 } : Logged ω κ α))).bind fun r =>
      (film? rest (r.world.1, r.world.2.world)).map fun done => (.of s c r :: done.1, done.2)
  | .elsewhere change :: rest, s => film? rest (s.1, change s.2)

theorem film?_call_eq_some {c : PassCall} {rest : List (PassStep ω)} {s s' : LiveEntries κ α ρ × ω}
    {film : List (Take ω κ α ρ)} (h : film? (.call c :: rest) s = some (film, s')) :
    ∃ r film', call? c (s.1, ({ world := s.2 } : Logged ω κ α)) = some r ∧
      film? rest (r.world.1, r.world.2.world) = some (film', s') ∧ film = .of s c r :: film' := by
  obtain ⟨r, hr, hrest⟩ := Option.bind_eq_some_iff.mp h
  obtain ⟨⟨film', s''⟩, hfilm, heq⟩ := Option.map_eq_some_iff.mp hrest
  cases heq
  exact ⟨r, film', hr, hfilm, rfl⟩

/-- The calls of a film with what became of them. -/
def eventsIn (film : List (Take ω κ α ρ)) : List (PassEvent ρ) := film.map Take.event

/-- A run is its film, with the worlds and the questions forgotten. -/
theorem run?_eq_film? (steps : List (PassStep ω)) (s : LiveEntries κ α ρ × ω) :
    run? steps s = (film? steps s).map fun done => (eventsIn done.1, done.2) := by
  induction steps generalizing s with
  | nil => rfl
  | cons step rest ih =>
    match step with
    | .call c =>
      have hview := call?_view (Logged.mirrors_world (κ := κ) (α := α)) c
        (s.1, ({ world := s.2 } : Logged ω κ α))
      simp only [run?, film?, hview, Option.bind_map, Option.map_bind]
      refine congrArg (Option.bind _) (funext fun r => ?_)
      simp only [Function.comp_apply, Result.view_outcome, Result.view_world, ih, Option.map_map]
      rfl
    | .elsewhere change => exact ih (s.1, change s.2)

/-- Every run has a film. -/
theorem film?_of_run? {steps : List (PassStep ω)} {s s' : LiveEntries κ α ρ × ω}
    {history : List (PassEvent ρ)} (h : run? steps s = some (history, s')) :
    ∃ film, film? steps s = some (film, s') ∧ history = eventsIn film := by
  rw [run?_eq_film?, Option.map_eq_some_iff] at h
  obtain ⟨⟨film, s''⟩, hfilm, heq⟩ := h
  cases heq
  exact ⟨film, hfilm, rfl⟩

/-- A film can be cut. -/
theorem film?_append_eq_some {steps : List (PassStep ω)} {s s' : LiveEntries κ α ρ × ω}
    {past rest : List (Take ω κ α ρ)} (h : film? steps s = some (past ++ rest, s')) :
    ∃ first second mid, steps = first ++ second ∧ film? first s = some (past, mid) ∧
      film? second mid = some (rest, s') := by
  induction steps generalizing past s with
  | nil =>
    rw [film?, Option.some.injEq, Prod.mk.injEq, eq_comm, List.append_eq_nil_iff] at h
    obtain ⟨⟨rfl, rfl⟩, rfl⟩ := h
    exact ⟨[], [], s, rfl, rfl, rfl⟩
  | cons step steps ih =>
    match step with
    | .call c =>
      match past with
      | [] => exact ⟨[], .call c :: steps, s, rfl, rfl, h⟩
      | t :: past =>
        obtain ⟨r, film, hr, hfilm, heq⟩ := film?_call_eq_some h
        obtain ⟨rfl, rfl⟩ := List.cons.inj heq
        obtain ⟨first, second, mid, rfl, hfirst, hsecond⟩ := ih hfilm
        refine ⟨.call c :: first, second, mid, rfl, ?_, hsecond⟩
        rw [film?, hr, Option.bind_some, hfirst, Option.map_some]
    | .elsewhere change =>
      obtain ⟨first, second, mid, rfl, hfirst, hsecond⟩ := ih h
      exact ⟨.elsewhere change :: first, second, mid, rfl, hfirst, hsecond⟩

/-- What every call keeps, and every change of the world by others, holds after every film. -/
theorem film?_invariant {I : List (Take ω κ α ρ) → LiveEntries κ α ρ × ω → Prop}
    {steps : List (PassStep ω)}
    (hcall : ∀ {past s c r}, .call c ∈ steps → I past s →
      call? c (s.1, ({ world := s.2 } : Logged ω κ α)) = some r →
        I (past ++ [.of s c r]) (r.world.1, r.world.2.world))
    (helsewhere : ∀ {change past s}, .elsewhere change ∈ steps → I past s →
      I past (s.1, change s.2))
    {past film : List (Take ω κ α ρ)} {s s' : LiveEntries κ α ρ × ω} (hs : I past s)
    (h : film? steps s = some (film, s')) : I (past ++ film) s' := by
  induction steps generalizing past film s with
  | nil =>
    cases h
    rwa [List.append_nil]
  | cons step rest ih =>
    replace ih := @ih (fun hmem => hcall (List.mem_cons_of_mem _ hmem))
      (fun hmem => helsewhere (List.mem_cons_of_mem _ hmem))
    match step with
    | .call c =>
      obtain ⟨r, film', hr, hfilm, rfl⟩ := film?_call_eq_some h
      rw [List.append_cons]
      exact ih (hcall List.mem_cons_self hs hr) hfilm
    | .elsewhere change => exact ih (helsewhere List.mem_cons_self hs) h

end LiveEntries

end Looking

end LazyExpiry
