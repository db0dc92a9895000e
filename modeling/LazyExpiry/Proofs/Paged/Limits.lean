import LazyExpiry.Proofs.Paged.Reels
import LazyExpiry.Proofs.Views.Pages

/-!
# The limit of a paged pass

A pass is given the number of pages it may ask for, since its source need not come to an end. To a
pass that is over by its limit a higher one makes no difference (`collectFromBy_of_le`,
`deliverFrom_of_le`). A pass that is not over has been served a page at each of the requests that it
may make, and so it is over by its limit if its source ends by then (`Limited`).

Whether a source ends is a matter of the source alone (`EndsWithin`), whatever is done to the world
between its pages. The pages of a store whose entries stay the same do (`endsWithin_of_toServe`).
-/

namespace LazyExpiry

variable {ω κ α π ρ υ : Type}

/-! ## Sources that end -/

/-- Whenever it is asked in worlds with `I`, the source has its end or a failure as its answer to
the `n`-th request at the latest. -/
def EndsWithin [PageSource (π × ω) κ (Stamped α)] (I : ω → Prop) : Nat → π → Prop
  | 0, _ => False
  | n + 1, source => ∀ met page s, I met →
    PageSource.nextPage (source, met) = .ok (some page) s → EndsWithin I n s.1

theorem EndsWithin.mono [PageSource (π × ω) κ (Stamped α)] {I : ω → Prop} {n m : Nat} {source : π}
    (h : EndsWithin I n source) (hle : n ≤ m) : EndsWithin I m source := by
  induction n generalizing m source with
  | zero => cases h
  | succ n ih =>
    obtain ⟨m, rfl⟩ := Nat.exists_eq_add_one_of_ne_zero (Nat.ne_zero_of_lt hle)
    exact fun met page s hmet hnext => ih (h met page s hmet hnext) (Nat.le_of_succ_le_succ hle)

/-- A source with fewer entries to serve than requests ends by these, as long as the store has the
same entries. -/
theorem endsWithin_of_toServe [Ord κ] [Std.TransOrd κ] {start : World κ α} {n : Nat}
    {source : Memory.Pages κ} (h : (toServe start source).length < n) :
    EndsWithin (fun w : World κ α => w.memory.poisoned = false ∧
      w.memory.table = start.memory.table) n source := by
  induction n generalizing source with
  | zero => cases h
  | succ n ih =>
    rintro met page s ⟨hlock, htable⟩ hnext
    have hsame : ∀ source : Memory.Pages κ, toServe met source = toServe start source :=
      fun source => by rw [toServe, toServe, htable]
    by_cases hserve : toServe met source = []
    · obtain ⟨source', hend⟩ := World.nextPage_of_nil hlock hserve
      cases hend.symm.trans hnext
    · obtain ⟨w', hpage, -⟩ := World.nextPage_of_cons hlock hserve
      cases hpage.symm.trans hnext
      have hless := length_toServe_served_lt hserve
      rw [hsame] at hless
      rw [← hsame] at h
      exact ih (Nat.lt_of_lt_of_le hless (Nat.le_of_lt_succ h))

/-! ## Passes at their limit -/

namespace PagedEntries

section Limits

variable [Context ω] [PageSource (π × ω) κ (Stamped α)] {project : κ → Option α → ρ}
  {limit limit' : Nat}

/-- A collecting pass that is over by its limit is the same under a higher one. -/
theorem collectFromBy_of_le {join : List (Task ω υ) → Action ω (List υ)}
    {callback : Nat → ρ → ω → Deferred ω υ × ω} {pages : Nat} {results : List υ} {source : π}
    {w : ω} (hle : limit ≤ limit') (h : (collectFromBy join project callback limit pages results
      source w).outcome ≠ .ok none) :
    collectFromBy join project callback limit' pages results source w =
      collectFromBy join project callback limit pages results source w := by
  induction limit generalizing limit' pages results source w with
  | zero => exact absurd rfl h
  | succ limit ih =>
    obtain ⟨limit', rfl⟩ := Nat.exists_eq_add_one_of_ne_zero (Nat.ne_zero_of_lt hle)
    rw [collectFromBy] at h ⊢
    rw [collectFromBy]
    rcases hn : PageSource.nextPage (source, w) with ⟨- | page, s⟩ | ⟨e, s⟩ <;>
      simp only [hn] at h ⊢
    rcases hj : join (callEach project callback (Context.now s.2).1 results.length page
        (Context.now s.2).2).1 (callEach project callback (Context.now s.2).1 results.length page
          (Context.now s.2).2).2 with ⟨answers, w'⟩ | ⟨e, w'⟩ <;>
      rw [hj] at h
    · exact ih (Nat.le_of_succ_le_succ hle) h
    · rfl

/-- A delivering pass that is over by its limit is the same under a higher one. -/
theorem deliverFrom_of_le {callback : Nat → ρ → Action ω Unit} {pages delivered : Nat} {source : π}
    {w : ω} (hle : limit ≤ limit') (h : (deliverFrom project callback limit pages delivered source
      w).outcome ≠ .ok none) :
    deliverFrom project callback limit' pages delivered source w =
      deliverFrom project callback limit pages delivered source w := by
  induction limit generalizing limit' pages delivered source w with
  | zero => exact absurd rfl h
  | succ limit ih =>
    obtain ⟨limit', rfl⟩ := Nat.exists_eq_add_one_of_ne_zero (Nat.ne_zero_of_lt hle)
    rw [deliverFrom] at h ⊢
    rw [deliverFrom]
    rcases hn : PageSource.nextPage (source, w) with ⟨- | page, s⟩ | ⟨e, s⟩ <;>
      simp only [hn] at h ⊢
    rcases hg : giveEach project callback (Context.now s.2).1 delivered page
        (Context.now s.2).2 with ⟨delivered', w'⟩ | ⟨e, w'⟩ <;>
      rw [hg] at h
    · exact ih (Nat.le_of_succ_le_succ hle) h
    · rfl

end Limits

end PagedEntries

/-- What a limit makes of a pass over a source that leaves these reels and comes to that. -/
structure Limited [PageSource (π × ω) κ (Stamped α)] {τ : Type} (limit : Nat) (source : π)
    (reels : List (Reel ω κ α ρ υ)) (outcome : Except StoreError (Option τ)) : Prop where
  /-- If the pass is not over, then it has asked as often as it may, and was served a page each
  time. -/
  spent : outcome = .ok none →
    reels.length = limit ∧ ∀ s ∈ reels, ∃ page, s.answer = .ok (some page)
  /-- If the source ends by that many requests in the worlds in which it is asked, then the pass is
  over. -/
  returns : ∀ {I : ω → Prop} {n : Nat}, EndsWithin I n source → n ≤ limit →
    (∀ s ∈ reels, I s.met) → outcome ≠ .ok none

section Limited

variable [PageSource (π × ω) κ (Stamped α)] {τ : Type} {limit : Nat} {source : π}

theorem limited_zero : Limited 0 source ([] : List (Reel ω κ α ρ υ))
    (.ok none : Except StoreError (Option τ)) where
  spent _ := ⟨rfl, by simp⟩
  returns hends hle := by cases Nat.le_zero.mp hle ▸ hends

/-- A pass that is over with its first reel. -/
theorem limited_over {reels : List (Reel ω κ α ρ υ)} {outcome : Except StoreError (Option τ)}
    (h : outcome ≠ .ok none) : Limited limit source reels outcome where
  spent hnone := absurd hnone h
  returns _ _ _ := h

/-- After a page, what a limit makes of the rest of a pass it makes of the pass. -/
theorem Limited.page {τ' : Type} {met : ω} {page : List (κ × Stamped α)} {s : π × ω}
    {events : List (PagedEvent ω κ α ρ υ)} {reels : List (Reel ω κ α ρ υ)}
    {outcome : Except StoreError (Option τ)} {outcome' : Except StoreError (Option τ')}
    (h : Limited limit s.1 reels outcome)
    (hnext : PageSource.nextPage (source, met) = .ok (some page) s)
    (hsame : outcome' = .ok none → outcome = .ok none) :
    Limited (limit + 1) source (⟨met, .ok (some page), events⟩ :: reels) outcome' where
  spent hnone := by
    obtain ⟨hlength, hpages⟩ := h.spent (hsame hnone)
    exact ⟨congrArg (· + 1) hlength, List.forall_mem_cons.mpr ⟨⟨page, rfl⟩, hpages⟩⟩
  returns {I n} hends hle hmet := by
    obtain ⟨hfirst, hothers⟩ := List.forall_mem_cons.mp hmet
    exact fun hnone => h.returns (hends.mono hle met page s hfirst hnext) (Nat.le_refl _) hothers
      (hsame hnone)

end Limited

theorem eq_ok_none_of_map {τ : Type} {outcome : Except StoreError (Option υ)} {f : υ → τ}
    (h : outcome.map (Option.map f) = .ok none) : outcome = .ok none := by
  rcases outcome with e | - | a
  · cases h
  · rfl
  · cases h

theorem PagedEntries.Unfolds.limited [PageSource (π × ω) κ (Stamped α)]
    {project : κ → Option α → ρ} {Closes : Closing ω κ α ρ υ} {limit : Nat} {source : π}
    {index : Nat} {reels : List (Reel ω κ α ρ υ)} {outcome : Except StoreError (Option (List υ))}
    (h : Unfolds project Closes limit source index reels outcome) :
    Limited limit source reels outcome := by
  induction h with
  | limit => exact limited_zero
  | ended _ => exact limited_over (by simp)
  | failed _ => exact limited_over (by simp)
  | page hnext _ _ _ ih => exact ih.page hnext eq_ok_none_of_map
  | broken _ _ _ => exact limited_over (by simp)

end LazyExpiry
