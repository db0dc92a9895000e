import LazyExpiry.Proofs.Pass.Turns

/-!
# What a search comes to

A turn says in full what the pull that it is comes to (`TakesTurn.pull_eq`). So a search is
known from the turns that can be taken : it returns if and only if these lead past expired
entries to another answer, and then with that answer, in the world after these turns
(`sought_iff`).
-/

namespace LazyExpiry

variable {ω κ α ρ : Type}

/-- What a pull comes to that leaves this world. -/
def Turn.result (t : Turn κ α) (w : ω) : Result ω (Pull κ α) :=
  match t.answer? with
  | some (.ok (some e)) => .ok (.live e.1 e.2) w
  | some (.ok none) => .ok .ended w
  | some (.error e) => .error e w
  | none => .ok .expired w

section Turns

variable [Context ω] [Cursor ω κ (Stamped α)] {w w' w'' : ω} {t : Turn κ α}
  {turns : List (Turn κ α)}

theorem TakesTurn.pull_eq (h : TakesTurn w t w') : pull w = t.result w' := by
  obtain ⟨u, w₁, -, hworld, houtcome⟩ := pull_turn (κ := κ) (α := α) ⟨w, []⟩
  unfold TakesTurn at h
  obtain ⟨rfl, hasked⟩ := Logged.mk.injEq .. ▸ h.symm.trans hworld
  obtain rfl : t = u := Turn.asked_inj hasked
  have hplain := (Logged.mirrors_world (κ := κ) (α := α)).pull (⟨w, []⟩ : Logged ω κ α)
  dsimp only at hplain
  rw [hplain, Turn.result]
  rcases hp : pull (⟨w, []⟩ : Logged ω κ α) with ⟨_ | _ | _, r⟩ | ⟨e, r⟩ <;>
    rw [hp] at hworld houtcome <;> obtain rfl : r = _ := hworld <;>
    simp only [Result.outcome_ok, Result.outcome_error] at houtcome <;>
    rw [houtcome] <;> rfl

/-- Turns that are taken after others are taken with them. -/
theorem TakesTurns.append {more : List (Turn κ α)} (h : TakesTurns w turns w')
    (hmore : TakesTurns w' more w'') : TakesTurns w (turns ++ more) w'' := by
  induction h with
  | done => exact hmore
  | turn hturn _ ih => exact .turn hturn (ih hmore)

end Turns

namespace LiveEntries

variable [Context ω] [Cursor ω κ (Stamped α)] {w : ω} {skipped : UInt64}
  {r : Result (UInt64 × ω) (Option (κ × Option α))}

/-- Turns past expired entries to another answer are a search. -/
theorem sought_of_takesTurns {last : Turn κ α} {w' : ω} (hlast : last.answer? = some r.outcome) :
    ∀ {passed : List (Turn κ α)} {w : ω} {skipped : UInt64}, (∀ t ∈ passed, t.expired = true) →
      TakesTurns w (passed ++ [last]) w' → r.world = (skipped + .ofNat passed.length, w') →
        Sought skipped w r
  | [], w, skipped, _, .turn hturn .done, hworld => by
    have hpull := hturn.pull_eq
    rw [Turn.result, hlast] at hpull
    have hworld : r.world = (skipped, w') :=
      hworld.trans (congrArg (·, w') (UInt64.add_zero skipped))
    rcases r with ⟨- | ⟨key, value⟩, s⟩ | ⟨e, s⟩ <;> cases hworld
    · exact .ended hpull
    · exact .found hpull
    · exact .failed hpull
  | t :: passed, w, skipped, hpassed, .turn hturn hrest, hworld => by
    have hnone : t.answer? = none := by simpa [Turn.expired] using hpassed t List.mem_cons_self
    have hpull := hturn.pull_eq
    rw [Turn.result, hnone] at hpull
    refine .passed hpull (sought_of_takesTurns hlast
      (fun u hu => hpassed u (List.mem_cons_of_mem _ hu)) hrest ?_)
    rw [hworld, List.length_cons, skipped_succ]

/-- A search returns if and only if the cursor comes to an answer that is no expired entry. -/
theorem sought_iff : Sought skipped w r ↔ ∃ turns w', Looked .fresh turns r.outcome ∧
    TakesTurns w turns w' ∧ r.world = (skipped + .ofNat (turns.countP Turn.expired), w') := by
  constructor
  · intro h
    obtain ⟨r', hr', rfl⟩ :=
      Sought.of_mirror (w := (⟨w, []⟩ : Logged ω κ α)) Logged.mirrors_world h
    obtain ⟨turns, w', hlooked, htakes, hworld⟩ := hr'.turns
    refine ⟨turns, w', ?_, htakes, ?_⟩
    · rwa [Result.view_outcome]
    · rw [Result.view_world, hworld]
  · rintro ⟨turns, w', hlooked, htakes, hworld⟩
    generalize hout : r.outcome = answer at hlooked
    cases hlooked with
    | @sought passed last _ hpassed hlast =>
      have hcount : (passed ++ [last]).countP Turn.expired = passed.length := by
        rw [List.countP_append, List.countP_eq_length.mpr hpassed]
        simp [Turn.expired, hlast]
      exact sought_of_takesTurns (hout ▸ hlast) hpassed htakes (hcount ▸ hworld)

/-- So does a look from a pass that knows nothing, with the same answer. -/
theorem hasNext?_of_takesTurns {it : LiveEntries κ α ρ} (hfresh : it.lookahead = .fresh)
    {turns : List (Turn κ α)} {answer : Except StoreError (Option (κ × Option α))} {w' : ω}
    (hlooked : Looked .fresh turns answer) (htakes : TakesTurns w turns w') :
    ∃ looked, hasNext? (it, w) = some looked ∧ looked.outcome = answer.map Option.isSome := by
  rcases answer with e | found
  · have hsought : Sought it.skipped w
        (.error e (it.skipped + .ofNat (turns.countP Turn.expired), w')) :=
      sought_iff.mpr ⟨turns, w', hlooked, htakes, rfl⟩
    rw [hasNext?_fresh hfresh, hsought.seek?_eq]
    exact ⟨_, rfl, rfl⟩
  · have hsought : Sought it.skipped w
        (.ok found (it.skipped + .ofNat (turns.countP Turn.expired), w')) :=
      sought_iff.mpr ⟨turns, w', hlooked, htakes, rfl⟩
    rw [hasNext?_fresh hfresh, hsought.seek?_eq]
    rcases found with - | e <;> exact ⟨_, rfl, rfl⟩

end LiveEntries

end LazyExpiry
