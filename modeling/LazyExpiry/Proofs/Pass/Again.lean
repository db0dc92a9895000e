import LazyExpiry.Proofs.Pass.Balance

/-!
# Looking ahead again

Whoever looks ahead finds what the next item will be made of, so asking whether there is
one changes nothing (`nextItem?_again`). A history of such calls can be compared with the
one that is left when only the calls for items are made (`run?_itemCalls`) : the items are
the same as far as the latter goes, and so are all the answers if none of the other calls
failed. A call that fails takes the failure away from the call for an item that would have
met it, and in its place that call goes on.
-/

namespace LazyExpiry

namespace LiveEntries

variable {ω κ α ρ : Type} [Context ω] [Cursor ω κ (Stamped α)]

/-! ## One call -/

/-- A pass that has looked ahead looks at the same again. -/
theorem hasNext?_again {s s' : LiveEntries κ α ρ × ω} {b : Bool}
    (h : hasNext? s = some (.ok b s')) : hasNext? s' = some (.ok b s') := by
  obtain ⟨it, w⟩ := s
  rcases hl : it.lookahead with - | ⟨key, value⟩ | -
  · rw [hasNext?_fresh hl] at h
    obtain ⟨found, -, hs⟩ := Option.map_eq_some_iff.mp h
    rcases found with ⟨- | ⟨key, value⟩, n, w'⟩ | ⟨e, n, w'⟩
    · cases hs
      exact hasNext?_exhausted rfl
    · cases hs
      exact hasNext?_buffered rfl
    · cases hs
  · rw [hasNext?_buffered hl] at h
    cases h
    exact hasNext?_buffered hl
  · rw [hasNext?_exhausted hl] at h
    cases h
    exact hasNext?_exhausted hl

/-- Having looked ahead makes no difference to the next item. -/
theorem nextItem?_again {s s' : LiveEntries κ α ρ × ω} {b : Bool}
    (h : hasNext? s = some (.ok b s')) : nextItem? s' = nextItem? s := by
  rw [nextItem?, nextItem?, h, hasNext?_again h]

/-- A call for an item meets a failure that looking ahead would have met. -/
theorem nextItem?_of_hasNext?_error {s s' : LiveEntries κ α ρ × ω} {e : StoreError}
    (h : hasNext? s = some (.error e s')) : nextItem? s = some (.error e s') := by
  rw [nextItem?, h, Option.map_some]

/-! ## Runs of calls -/

/-- A run of calls, with nobody else about. -/
def calls? (calls : List PassCall) (s : LiveEntries κ α ρ × ω) :
    Option (List (PassEvent ρ) × LiveEntries κ α ρ × ω) :=
  run? (calls.map .call) s

/-- Whether there is an item, the next item and the count of skipped entries are asked for. -/
def Plain (calls : List PassCall) : Prop := ∀ c ∈ calls, c ≠ .next ∧ c ≠ .removeCurrent

/-- The calls for items among the calls. -/
def itemCalls (calls : List PassCall) : List PassCall := calls.filter (· = .nextItem)

variable {s t : LiveEntries κ α ρ × ω} {history : List (PassEvent ρ)} {c : PassCall}
  {calls : List PassCall}

theorem calls?_cons : calls? (c :: calls) s = (call? c s).bind fun r =>
    (calls? calls r.world).map fun done => (⟨c, r.outcome⟩ :: done.1, done.2) := rfl

theorem calls?_append {first second : List PassCall} :
    calls? (first ++ second) s = (calls? first s).bind fun done =>
      (calls? second done.2).map fun rest => (done.1 ++ rest.1, rest.2) := by
  induction first generalizing s with
  | nil => simp [calls?, run?]
  | cons c first ih =>
    rw [List.cons_append, calls?_cons, calls?_cons, Option.bind_assoc]
    refine congrArg (Option.bind _) (funext fun r => ?_)
    rw [ih, Option.map_bind, Option.bind_map]
    refine congrArg (Option.bind _) (funext fun done => ?_)
    simp only [Function.comp_apply, Option.map_map, List.cons_append]
    rfl

theorem calls?_append_eq_some {first second : List PassCall}
    (h : calls? (first ++ second) s = some (history, t)) :
    ∃ before mid after, calls? first s = some (before, mid) ∧ calls? second mid = some (after, t) ∧
      history = before ++ after := by
  rw [calls?_append] at h
  obtain ⟨⟨before, mid⟩, hfirst, hrest⟩ := Option.bind_eq_some_iff.mp h
  obtain ⟨⟨after, t'⟩, hsecond, heq⟩ := Option.map_eq_some_iff.mp hrest
  cases heq
  exact ⟨before, mid, after, hfirst, hsecond, rfl⟩

theorem calls?_append_of_eq_some {first second : List PassCall} {mid : LiveEntries κ α ρ × ω}
    {before after : List (PassEvent ρ)} (hfirst : calls? first s = some (before, mid))
    (hsecond : calls? second mid = some (after, t)) :
    calls? (first ++ second) s = some (before ++ after, t) := by
  rw [calls?_append, hfirst, Option.bind_some, hsecond, Option.map_some]

theorem itemsIn_cons (e : PassEvent ρ) (history : List (PassEvent ρ)) :
    itemsIn (e :: history) = e.item?.toList ++ itemsIn history := by
  simp only [itemsIn, List.filterMap_cons]
  rcases e.item? with - | item <;> rfl

theorem itemsIn_append (before after : List (PassEvent ρ)) :
    itemsIn (before ++ after) = itemsIn before ++ itemsIn after := List.filterMap_append

/-- A call for an item can be made first : the same items come of it, and the same pass. -/
theorem calls?_nextItem_first (hcalls : Plain calls)
    (h : calls? (calls ++ [.nextItem]) s = some (history, t)) :
    ∃ calls' history', Plain calls' ∧ calls? (.nextItem :: calls') s = some (history', t) ∧
      itemsIn history' = itemsIn history := by
  have plain : ∀ {calls : List PassCall}, Plain calls → Plain (calls ++ [.nextItem]) := by
    intro calls hcalls c hc
    rcases List.mem_append.mp hc with hc | hc
    · exact hcalls c hc
    · rw [List.mem_singleton.mp hc]
      simp
  induction calls generalizing s history with
  | nil => exact ⟨[], history, by simp [Plain], h, rfl⟩
  | cons c calls ih =>
    have hrest : Plain calls := fun c hc => hcalls c (List.mem_cons_of_mem _ hc)
    rw [List.cons_append] at h
    obtain ⟨r, history', hr, hrun, rfl⟩ := run?_call_eq_some h
    match c with
    | .nextItem => exact ⟨calls ++ [.nextItem], _, plain hrest, h, rfl⟩
    | .skipped =>
      cases hr
      obtain ⟨calls', again, hplain, hagain, hitems⟩ := ih hrest hrun
      exact ⟨calls', again, hplain, hagain, by rw [hitems, itemsIn_cons]; rfl⟩
    | .hasNext =>
      obtain ⟨looked, hl, rfl⟩ := Option.map_eq_some_iff.mp hr
      rcases looked with ⟨b, s'⟩ | ⟨e, s'⟩
      · obtain ⟨calls', again, hplain, hagain, hitems⟩ := ih hrest hrun
        refine ⟨calls', again, hplain, ?_, by rw [hitems, itemsIn_cons]; rfl⟩
        rw [calls?_cons, call?] at hagain ⊢
        rwa [← nextItem?_again hl]
      · refine ⟨calls ++ [.nextItem], ⟨.nextItem, .error e⟩ :: history', plain hrest, ?_, ?_⟩
        · have hmeets : call? .nextItem s = some (.error e s') := by
            rw [call?, nextItem?_of_hasNext?_error hl]
            rfl
          have hlater : calls? (calls ++ [.nextItem]) s' = some (history', t) := hrun
          rw [calls?_cons, hmeets, Option.bind_some, Result.world_error, hlater]
          rfl
        · rw [itemsIn_cons, itemsIn_cons]
          rfl
    | .next => exact absurd rfl (hcalls .next List.mem_cons_self).1
    | .removeCurrent => exact absurd rfl (hcalls .removeCurrent List.mem_cons_self).2

/-- Whatever was called before, the calls for items alone hand out the same items, as far
as they go. -/
theorem itemCalls_prefix {before : List PassCall} (hbefore : Plain before) (hcalls : Plain calls)
    (h : calls? (before ++ calls) s = some (history, t)) :
    ∃ bare s', calls? (itemCalls calls) s = some (bare, s') ∧ itemsIn bare <+: itemsIn history := by
  induction calls generalizing before s history with
  | nil => exact ⟨[], s, rfl, List.nil_prefix⟩
  | cons c calls ih =>
    have hrest : Plain calls := fun c hc => hcalls c (List.mem_cons_of_mem _ hc)
    have hc : Plain (before ++ [c]) := by
      intro d hd
      rcases List.mem_append.mp hd with hd | hd
      · exact hbefore d hd
      · rw [List.mem_singleton.mp hd]
        exact hcalls c List.mem_cons_self
    rw [List.append_cons] at h
    by_cases hitem : c = .nextItem
    · subst hitem
      obtain ⟨first, mid, second, hfirst, hsecond, rfl⟩ := calls?_append_eq_some h
      obtain ⟨calls', first', hplain, hfirst', hitems⟩ := calls?_nextItem_first hbefore hfirst
      obtain ⟨r, first'', hr, hrun, rfl⟩ := run?_call_eq_some hfirst'
      obtain ⟨bare, s', hbare, hle⟩ := ih hplain hrest (calls?_append_of_eq_some hrun hsecond)
      refine ⟨⟨.nextItem, r.outcome⟩ :: bare, s', ?_, ?_⟩
      · rw [itemCalls, List.filter_cons_of_pos (by simp), calls?_cons, hr, Option.bind_some]
        rw [itemCalls] at hbare
        rw [hbare, Option.map_some]
      · rw [itemsIn_append, ← hitems, itemsIn_cons, itemsIn_cons, List.append_assoc,
          List.prefix_append_right_inj, ← itemsIn_append]
        exact hle
    · rw [itemCalls, List.filter_cons_of_neg (by simpa using hitem)]
      exact ih hc hrest h

/-- If no other call failed, the calls for items alone are answered as they were. -/
theorem itemCalls_answers (hcalls : Plain calls) {t' : LiveEntries κ α ρ × ω}
    (hs : t = s ∨ ∃ b, hasNext? s = some (.ok b t)) (h : calls? calls t = some (history, t'))
    (hok : ∀ e ∈ history, e.call = .hasNext → e.outcome.isOk) :
    ∃ s', calls? (itemCalls calls) s = some (history.filter (·.call = .nextItem), s') := by
  induction calls generalizing s t history with
  | nil =>
    cases h
    exact ⟨s, rfl⟩
  | cons c calls ih =>
    have hrest : Plain calls := fun c hc => hcalls c (List.mem_cons_of_mem _ hc)
    obtain ⟨r, history', hr, hrun, rfl⟩ := run?_call_eq_some h
    have hok' : ∀ e ∈ history', e.call = .hasNext → e.outcome.isOk := fun e he =>
      hok e (List.mem_cons_of_mem _ he)
    match c with
    | .nextItem =>
      have hsame : nextItem? t = nextItem? s := by
        rcases hs with rfl | ⟨b, hb⟩
        · rfl
        · exact nextItem?_again hb
      obtain ⟨s', hs'⟩ := ih (s := r.world) hrest (.inl rfl) hrun hok'
      refine ⟨s', ?_⟩
      rw [call?, hsame] at hr
      rw [itemCalls] at hs'
      rw [itemCalls, List.filter_cons_of_pos (by simp), List.filter_cons_of_pos (by simp),
        calls?_cons, call?, hr, Option.bind_some, hs', Option.map_some]
    | .skipped =>
      cases hr
      rw [itemCalls, List.filter_cons_of_neg (by simp), List.filter_cons_of_neg (by simp)]
      exact ih hrest hs hrun hok'
    | .hasNext =>
      obtain ⟨looked, hl, rfl⟩ := Option.map_eq_some_iff.mp hr
      rcases looked with ⟨b, t₁⟩ | ⟨e, t₁⟩
      · rw [itemCalls, List.filter_cons_of_neg (by simp), List.filter_cons_of_neg (by simp)]
        refine ih hrest ?_ hrun hok'
        rcases hs with rfl | ⟨b', hb'⟩
        · exact .inr ⟨b, hl⟩
        · rw [hasNext?_again hb'] at hl
          cases hl
          exact .inr ⟨b, hb'⟩
      · exact absurd (hok _ List.mem_cons_self rfl) (by simp [Except.isOk, Except.toBool])
    | .next => exact absurd rfl (hcalls .next List.mem_cons_self).1
    | .removeCurrent => exact absurd rfl (hcalls .removeCurrent List.mem_cons_self).2

end LiveEntries

end LazyExpiry
