import LazyExpiry.LiveEntries

/-!
# Runs of a pass

A pass is used by calls in any order (`PassCall`), and between two calls others may change
the world that its cursor walks through (`PassStep.elsewhere`). `LiveEntries.run?` takes
such steps one after the other and keeps every call with what became of it, a failed call
being no end. It has no result if one of the calls does not return.

Looking ahead advances the cursor, reads the clock, has values judged and takes notes ; what
these leave alone, every call but a removal does (`held_call`).

What every call keeps holds after every run (`run?_invariant`). A property of a run speaks
of the calls made so far, so an invariant is about a list of events and a state.
-/

namespace LazyExpiry

/-- A call on a pass. -/
inductive PassCall where
  | hasNext | nextItem | next | removeCurrent | skipped
  deriving DecidableEq

/-- What a call on a pass answers. -/
inductive PassAnswer (ρ : Type) where
  | flag (b : Bool)
  | item (value : ρ)
  /-- The sequence has ended. -/
  | ended
  | removed
  | count (n : UInt64)

/-- The answer of the pass as a sequence. -/
def PassAnswer.ofNext {ρ : Type} : Option ρ → PassAnswer ρ
  | some x => .item x
  | none => .ended

/-- A call with what became of it. -/
structure PassEvent (ρ : Type) where
  call : PassCall
  outcome : Except StoreError (PassAnswer ρ)

/-- The item that a call handed out. -/
def PassEvent.item? {ρ : Type} : PassEvent ρ → Option ρ
  | ⟨.nextItem, .ok (.item item)⟩ => some item
  | ⟨.next, .ok (.item item)⟩ => some item
  | _ => none

/-- A history with one more event, split at an event, is split at the new one or before it. -/
theorem split_append_singleton {ε : Type} {past before after : List ε} {new e : ε}
    (h : past ++ [new] = before ++ e :: after) : (before = past ∧ e = new ∧ after = []) ∨
      ∃ after', after = after' ++ [new] ∧ past = before ++ e :: after' := by
  rcases List.eq_nil_or_concat after with rfl | ⟨after', last, rfl⟩
  · obtain ⟨hpast, hnew⟩ := List.append_inj' h rfl
    exact .inl ⟨hpast.symm, (List.singleton_inj.mp hnew).symm, rfl⟩
  · rw [List.concat_eq_append, ← List.cons_append, ← List.append_assoc] at h
    obtain ⟨hpast, hnew⟩ := List.append_inj' h rfl
    obtain rfl := List.singleton_inj.mp hnew
    exact .inr ⟨after', List.concat_eq_append, hpast⟩

/-- What happens to a pass : a call on it, or a change of its world by others. -/
inductive PassStep (ω : Type) where
  | call (c : PassCall)
  | elsewhere (change : ω → ω)

/-- The same step in another world, given what becomes of a change there. -/
def PassStep.lift {ω σ : Type} (f : (ω → ω) → σ → σ) : PassStep ω → PassStep σ
  | call c => call c
  | elsewhere change => elsewhere (f change)

namespace LiveEntries

variable {ω κ α ρ : Type} [Context ω] [Cursor ω κ (Stamped α)]

/-! ## Calls -/

/-- Makes a call on a pass. -/
def call? (c : PassCall) (s : LiveEntries κ α ρ × ω) :
    Option (Result (LiveEntries κ α ρ × ω) (PassAnswer ρ)) :=
  match c with
  | .hasNext => (hasNext? s).map (·.map .flag)
  | .nextItem => (nextItem? s).map (·.map .item)
  | .next => (next? s).map (·.map .ofNext)
  | .removeCurrent => some ((removeCurrent s).map fun _ => .removed)
  | .skipped => some (.ok (.count s.1.skipped) s)

/-- `call?` over a cursor that settles. -/
def call [Settles ω κ α] (c : PassCall) : Action (LiveEntries κ α ρ × ω) (PassAnswer ρ) := fun s =>
  match c with
  | .hasNext => (hasNext s).map .flag
  | .nextItem => (nextItem s).map .item
  | .next => (next s).map .ofNext
  | .removeCurrent => (removeCurrent s).map fun _ => .removed
  | .skipped => .ok (.count s.1.skipped) s

theorem call?_eq_some [Settles ω κ α] (c : PassCall) (s : LiveEntries κ α ρ × ω) :
    call? c s = some (call c s) := by
  match c with
  | .hasNext => rw [call?, hasNext?_eq_some, Option.map_some, call]
  | .nextItem => rw [call?, nextItem?_eq_some, Option.map_some, call]
  | .next => rw [call?, next?_eq_some, Option.map_some, call]
  | .removeCurrent => rfl
  | .skipped => rfl

theorem hasNext?_buffered {it : LiveEntries κ α ρ} {w : ω} {key : κ} {value : Option α}
    (h : it.lookahead = .buffered key value) :
    hasNext? (it, w) = some (.ok true ({ it with removable := false }, w)) := by
  simp [hasNext?, h]

theorem hasNext?_exhausted {it : LiveEntries κ α ρ} {w : ω} (h : it.lookahead = .exhausted) :
    hasNext? (it, w) = some (.ok false ({ it with removable := false }, w)) := by
  simp [hasNext?, h]

theorem hasNext?_fresh {it : LiveEntries κ α ρ} {w : ω} (h : it.lookahead = .fresh) :
    hasNext? (it, w) = (seek? it.skipped w).map (settle { it with removable := false }) := by
  simp [hasNext?, h]

/-- A pass that has found an entry keeps it. -/
theorem buffered_of_hasNext? {s s' : LiveEntries κ α ρ × ω} (h : hasNext? s = some (.ok true s')) :
    ∃ key value, s'.1.lookahead = .buffered key value := by
  obtain ⟨it, w⟩ := s
  rcases hl : it.lookahead with - | ⟨key, value⟩ | -
  · rw [hasNext?_fresh hl] at h
    obtain ⟨r, -, hs⟩ := Option.map_eq_some_iff.mp h
    unfold settle at hs
    split at hs <;> cases hs
    exact ⟨_, _, rfl⟩
  · rw [hasNext?_buffered hl] at h
    cases h
    exact ⟨key, value, hl⟩
  · rw [hasNext?_exhausted hl] at h
    cases h

/-- The item that is handed out is made of the entry kept. -/
theorem nextItem?_of_hasNext? {s s' : LiveEntries κ α ρ × ω} {key : κ} {value : Option α}
    (h : hasNext? s = some (.ok true s')) (hl : s'.1.lookahead = .buffered key value) :
    nextItem? s = some (.ok (s'.1.project key value)
      ({ s'.1 with lookahead := .fresh, removable := true }, s'.2)) := by
  rw [nextItem?, h]
  simp [handOut, hl]

/-- While there is an entry, the pass as a sequence hands out what `nextItem?` does. -/
theorem next?_of_hasNext?_true {s s' : LiveEntries κ α ρ × ω}
    (h : hasNext? s = some (.ok true s')) : next? s = (nextItem? s).map (·.map some) := by
  obtain ⟨it, w⟩ := s'
  obtain ⟨key, value, hl⟩ := buffered_of_hasNext? h
  have again := nextItem?_of_hasNext? (hasNext?_buffered (w := w) hl) hl
  rw [next?, h, nextItem?_of_hasNext? h hl]
  simp only [Option.bind_some, again]

theorem next?_of_hasNext?_false {s s' : LiveEntries κ α ρ × ω}
    (h : hasNext? s = some (.ok false s')) : next? s = some (.ok none s') := by
  rw [next?, h, Option.bind_some]

theorem next?_of_hasNext?_error {s s' : LiveEntries κ α ρ × ω} {e : StoreError}
    (h : hasNext? s = some (.error e s')) :
    next? s = some (.error e ({ s'.1 with lookahead := .exhausted }, s'.2)) := by
  rw [next?, h, Option.bind_some]

/-! ## What a call can come to -/

omit [Context ω] in
/-- A removal is forwarded while the flag is up, and refused while it is down. -/
theorem removeCurrent_eq (s : LiveEntries κ α ρ × ω) :
    removeCurrent s =
      if s.1.removable then
        match Cursor.removeCurrent s.2 with
        | .ok () w => .ok () ({ s.1 with removable := false }, w)
        | .error e w => .error e (s.1, w)
      else .error .invalidIteratorState s := rfl

/-- A pass that knows what is next answers that, and any other searches. -/
theorem hasNext?_cases {s : LiveEntries κ α ρ × ω} {r : Result (LiveEntries κ α ρ × ω) Bool}
    (h : hasNext? s = some r) :
    (∃ b, r = .ok b ({ s.1 with removable := false }, s.2)) ∨
      ∃ found, seek? s.1.skipped s.2 = some found ∧ s.1.lookahead = .fresh ∧
        r = settle { s.1 with removable := false } found := by
  obtain ⟨it, w⟩ := s
  by_cases hfresh : it.lookahead = .fresh
  · rw [hasNext?_fresh hfresh] at h
    obtain ⟨found, hf, rfl⟩ := Option.map_eq_some_iff.mp h
    exact .inr ⟨found, hf, hfresh, rfl⟩
  · refine .inl ?_
    unfold hasNext? at h
    dsimp only at h
    split at h
    · exact ⟨true, (Option.some.inj h).symm⟩
    · exact ⟨false, (Option.some.inj h).symm⟩
    · rename_i hl
      exact absurd hl hfresh

/-- After looking ahead the kept entry is handed out, or there is a failure. -/
theorem nextItem?_cases {s : LiveEntries κ α ρ × ω} {r : Result (LiveEntries κ α ρ × ω) ρ}
    (h : nextItem? s = some r) :
    (∃ s' key value, hasNext? s = some (.ok true s') ∧ s'.1.lookahead = .buffered key value ∧
      r = .ok (s'.1.project key value)
        ({ s'.1 with lookahead := .fresh, removable := true }, s'.2)) ∨
      ∃ looked e, hasNext? s = some looked ∧ r = .error e looked.world := by
  obtain ⟨looked, hl, hr⟩ := Option.map_eq_some_iff.mp h
  rcases looked with ⟨_ | _, s'⟩ | ⟨e, s'⟩
  · exact .inr ⟨_, _, hl, hr.symm⟩
  · obtain ⟨key, value, hb⟩ := buffered_of_hasNext? hl
    rw [nextItem?_of_hasNext? hl hb] at h
    exact .inl ⟨s', key, value, hl, hb, (Option.some.inj h).symm⟩
  · exact .inr ⟨_, _, hl, hr.symm⟩

/-- The pass as a sequence hands out an item, ends, or fails and is exhausted. -/
theorem next?_cases {s : LiveEntries κ α ρ × ω}
    {r : Result (LiveEntries κ α ρ × ω) (Option ρ)} (h : next? s = some r) :
    (∃ handed, nextItem? s = some handed ∧ r = handed.map some) ∨
      (∃ s', hasNext? s = some (.ok false s') ∧ r = .ok none s') ∨
      ∃ e s', hasNext? s = some (.error e s') ∧
        r = .error e ({ s'.1 with lookahead := .exhausted }, s'.2) := by
  obtain ⟨looked, hl, -⟩ := Option.bind_eq_some_iff.mp h
  rcases looked with ⟨_ | _, s'⟩ | ⟨e, s'⟩
  · rw [next?_of_hasNext?_false hl] at h
    exact .inr (.inl ⟨s', hl, (Option.some.inj h).symm⟩)
  · rw [next?_of_hasNext?_true hl] at h
    obtain ⟨handed, hi, rfl⟩ := Option.map_eq_some_iff.mp h
    exact .inl ⟨handed, hi, rfl⟩
  · rw [next?_of_hasNext?_error hl] at h
    exact .inr (.inr ⟨e, s', hl, (Option.some.inj h).symm⟩)

/-! ## What looking ahead leaves alone -/

/-- `P` goes on holding whatever is asked of a world, short of a removal. -/
structure HeldByLooking (P : ω → Prop) : Prop where
  advance : ∀ {w : ω}, P w → P (Cursor.advance w).world
  now : ∀ {w : ω}, P w → P (Context.now w).2
  isLive : ∀ {w : ω} (writtenAt now : Timestamp), P w → P (Context.isLive writtenAt now w).2
  note : ∀ {w : ω} (event : Event), P w → P (Context.note event w)

section Held

variable {P : ω → Prop}

theorem HeldByLooking.pull (hP : HeldByLooking P) {w : ω} (hw : P w) :
    P (LazyExpiry.pull w : Result ω (Pull κ α)).world := by
  have hadv := hP.advance hw
  unfold LazyExpiry.pull
  rcases ha : Cursor.advance w with ⟨- | ⟨key, stored⟩, w₁⟩ | ⟨e, w₁⟩
  · rw [ha] at hadv
    exact hadv
  · rw [ha] at hadv
    have hnow := hP.now hadv
    have hjudge : P (judge (some stored) (Context.now w₁).1 (Context.now w₁).2).2 := by
      rcases stored with ⟨- | v, writtenAt⟩
      · exact hnow
      · exact hP.isLive _ _ hnow
    dsimp only [Result.world_ok] at hjudge ⊢
    split
    · exact hjudge
    · exact hP.note _ hjudge
  · rw [ha] at hadv
    exact hadv

theorem Sought.held (hP : HeldByLooking P) {skipped : UInt64} {w : ω}
    {r : Result (UInt64 × ω) (Option (κ × Option α))} (h : Sought skipped w r) (hw : P w) :
    P r.world.2 := by
  induction h with
  | failed hp | found hp | ended hp =>
    have := hP.pull hw
    rwa [hp] at this
  | passed hp _ ih =>
    have := hP.pull hw
    rw [hp] at this
    exact ih this

theorem held_hasNext? (hP : HeldByLooking P) {s : LiveEntries κ α ρ × ω} (hs : P s.2)
    {r : Result (LiveEntries κ α ρ × ω) Bool} (h : hasNext? s = some r) : P r.world.2 := by
  rcases hasNext?_cases h with ⟨b, rfl⟩ | ⟨found, hf, -, rfl⟩
  · exact hs
  · have hfound := (sought_of_seek? hf).held hP hs
    rcases found with ⟨- | e, s'⟩ | ⟨e, s'⟩
    · exact hP.note _ hfound
    · exact hfound
    · exact hfound

theorem held_nextItem? (hP : HeldByLooking P) {s : LiveEntries κ α ρ × ω} (hs : P s.2)
    {r : Result (LiveEntries κ α ρ × ω) ρ} (h : nextItem? s = some r) : P r.world.2 := by
  rcases nextItem?_cases h with ⟨s', key, value, hl, -, rfl⟩ | ⟨looked, e, hl, rfl⟩
  · exact held_hasNext? hP hs hl
  · exact held_hasNext? hP hs hl

theorem held_next? (hP : HeldByLooking P) {s : LiveEntries κ α ρ × ω} (hs : P s.2)
    {r : Result (LiveEntries κ α ρ × ω) (Option ρ)} (h : next? s = some r) : P r.world.2 := by
  rcases next?_cases h with ⟨handed, hi, rfl⟩ | ⟨s', hl, rfl⟩ | ⟨e, s', hl, rfl⟩
  · rw [Result.world_map]
    exact held_nextItem? hP hs hi
  · exact held_hasNext? hP hs hl
  · exact held_hasNext? hP hs hl

/-- Collecting the rest of a pass leaves alone what looking ahead does. -/
theorem held_collect [Drains ω κ (Stamped α)] (hP : HeldByLooking P) {s : LiveEntries κ α ρ × ω}
    (hs : P s.2) : P (collect s).world.2 := by
  induction s using collect.induct with
  | case1 s s' h =>
    have hnext := held_next? hP hs (next?_eq_some s)
    rw [h] at hnext
    rw [collect_eq, h]
    exact hnext
  | case2 s item s' h ih =>
    have hnext := held_next? hP hs (next?_eq_some s)
    rw [h] at hnext
    rw [collect_eq, h, Result.world_map]
    exact ih hnext
  | case3 s e s' h =>
    have hnext := held_next? hP hs (next?_eq_some s)
    rw [h] at hnext
    rw [collect_eq, h]
    exact hnext

/-- Every call but a removal leaves alone what looking ahead does. -/
theorem held_call? (hP : HeldByLooking P) {c : PassCall} {s : LiveEntries κ α ρ × ω} (hs : P s.2)
    (hc : c ≠ .removeCurrent) {r : Result (LiveEntries κ α ρ × ω) (PassAnswer ρ)}
    (h : call? c s = some r) : P r.world.2 := by
  match c with
  | .hasNext =>
    obtain ⟨looked, hl, rfl⟩ := Option.map_eq_some_iff.mp h
    rw [Result.world_map]
    exact held_hasNext? hP hs hl
  | .nextItem =>
    obtain ⟨handed, hi, rfl⟩ := Option.map_eq_some_iff.mp h
    rw [Result.world_map]
    exact held_nextItem? hP hs hi
  | .next =>
    obtain ⟨answered, hn, rfl⟩ := Option.map_eq_some_iff.mp h
    rw [Result.world_map]
    exact held_next? hP hs hn
  | .removeCurrent => exact absurd rfl hc
  | .skipped =>
    cases h
    exact hs

theorem held_call (hP : HeldByLooking P) [Settles ω κ α] {c : PassCall}
    {s : LiveEntries κ α ρ × ω} (hs : P s.2) (hc : c ≠ .removeCurrent) : P (call c s).world.2 :=
  held_call? hP hs hc (call?_eq_some c s)

end Held

/-! ## Runs -/

/-- Takes steps in order, and keeps the calls among them with what became of them. -/
def run? : List (PassStep ω) → LiveEntries κ α ρ × ω →
    Option (List (PassEvent ρ) × LiveEntries κ α ρ × ω)
  | [], s => some ([], s)
  | .call c :: rest, s =>
    (call? c s).bind fun r =>
      (run? rest r.world).map fun done => (⟨c, r.outcome⟩ :: done.1, done.2)
  | .elsewhere change :: rest, s => run? rest (s.1, change s.2)

theorem run?_call_eq_some {c : PassCall} {rest : List (PassStep ω)} {s s' : LiveEntries κ α ρ × ω}
    {events : List (PassEvent ρ)} (h : run? (.call c :: rest) s = some (events, s')) :
    ∃ r events', call? c s = some r ∧ run? rest r.world = some (events', s') ∧
      events = ⟨c, r.outcome⟩ :: events' := by
  obtain ⟨r, hr, hrest⟩ := Option.bind_eq_some_iff.mp h
  obtain ⟨⟨events', s''⟩, hrun, heq⟩ := Option.map_eq_some_iff.mp hrest
  cases heq
  exact ⟨r, events', hr, hrun, rfl⟩

/-- Over a cursor that settles every run returns. -/
theorem isSome_run? [Settles ω κ α] (steps : List (PassStep ω)) (s : LiveEntries κ α ρ × ω) :
    (run? steps s).isSome := by
  induction steps generalizing s with
  | nil => rfl
  | cons step rest ih =>
    match step with
    | .call c =>
      rw [run?, call?_eq_some, Option.bind_some, Option.isSome_map]
      exact ih _
    | .elsewhere change => exact ih _

/-- What every call keeps, and every change of the world by others, holds after every run. -/
theorem run?_invariant {Inv : List (PassEvent ρ) → LiveEntries κ α ρ × ω → Prop}
    {steps : List (PassStep ω)}
    (hcall : ∀ {past s c r}, Inv past s → call? c s = some r →
      Inv (past ++ [⟨c, r.outcome⟩]) r.world)
    (helsewhere : ∀ {change past s}, .elsewhere change ∈ steps → Inv past s →
      Inv past (s.1, change s.2))
    {past events : List (PassEvent ρ)} {s s' : LiveEntries κ α ρ × ω} (hs : Inv past s)
    (h : run? steps s = some (events, s')) : Inv (past ++ events) s' := by
  induction steps generalizing past events s with
  | nil =>
    cases h
    rwa [List.append_nil]
  | cons step rest ih =>
    have others : ∀ {change past s}, .elsewhere change ∈ rest → Inv past s →
        Inv past (s.1, change s.2) := fun hmem => helsewhere (List.mem_cons_of_mem _ hmem)
    match step with
    | .call c =>
      obtain ⟨r, events', hr, hrun, rfl⟩ := run?_call_eq_some h
      rw [List.append_cons]
      exact ih others (hcall hs hr) hrun
    | .elsewhere change => exact ih others (helsewhere List.mem_cons_self hs) h

end LiveEntries

end LazyExpiry
