import LazyExpiry.Proofs.Lock.Attempts
import LazyExpiry.Proofs.Pass.Run
import LazyExpiry.Session.Run

/-!
# Passes behind a broken lock

When the lock breaks, a pass may stand anywhere : before its first entry, with an entry that it
has found and not handed out, with its removal window open, or at its end. It needs the store only
to search and to remove. So an entry that it keeps is still handed out, an end stays an end,
a search fails, and so does a removal, which leaves the window open (`LiveEntries.whenLocked`, the
table of all calls in all states). The cursor of the pass stays where it is.

A paged pass needs its source for a page only. One that takes itself for drained has nothing to
ask for, and the pass comes to its end with the results so far ; any other pass fails, also when
the lock breaks in the middle of it (`PagedEntries.collectFrom_of_broken`).
-/

namespace LazyExpiry

variable {κ α ρ υ : Type}

/-! ## Cursors and sources under the watch -/

/-- A cursor of the store in memory, under the watch. -/
abbrev DeskCursor (κ α : Type) := WatchedCursor (Memory.Position κ) κ (Stamped α)

/-- A page source over the store in memory, under the watch. -/
abbrev DeskPages (κ α : Type) := WatchedPages (Memory.Pages κ) κ (Stamped α)

namespace Desk

variable [Ord κ] [Std.TransOrd κ] {d : Desk κ α}

theorem advance_of_broken (hd : d.Broken) (position : Memory.Position κ) :
    Cursor.advance ((.stored position : DeskCursor κ α), d) =
      .error Memory.lockPoisoned (.stored position, d.write (.call { kind := .advance })) := by
  change Watched.advance ((.stored position : DeskCursor κ α), d) = _
  simp only [Watched.advance, hd.toIdle.call_eq]
  exact congrArg (Result.mapWorld _) (World.advance_of_poisoned hd.poisoned position)

theorem removeCurrent_of_broken (hd : d.Broken) (position : Memory.Position κ) :
    ∃ d', d.Tried position.attempts d' ∧
      Cursor.removeCurrent ((.stored position : DeskCursor κ α), d) =
        .error position.failure (.stored position, d') := by
  have hwrite := tried_write d (.call { kind := .removeCurrent })
  refine ⟨_, hwrite.before (tried_withWorld position.attempts _), ?_⟩
  change Watched.removeCurrent ((.stored position : DeskCursor κ α), d) = _
  simp only [Watched.removeCurrent, hd.toIdle.call_eq]
  exact congrArg (Result.mapWorld _) (World.removeLast_of_poisoned hd.poisoned position)

theorem nextPage_of_drained (hd : d.Idle) {source : Memory.Pages κ} (h : source.drained = true) :
    PageSource.nextPage ((.stored source : DeskPages κ α), d) =
      .ok none (.stored source, d.write (.call { kind := .nextPage })) := by
  change Watched.nextPage ((.stored source : DeskPages κ α), d) = _
  simp only [Watched.nextPage, hd.call_eq]
  exact congrArg (Result.mapWorld _) (World.nextPage_of_drained d.world h)

theorem nextPage_of_broken (hd : d.Broken) {source : Memory.Pages κ} (h : source.drained = false) :
    PageSource.nextPage ((.stored source : DeskPages κ α), d) =
      .error Memory.lockPoisoned (.stored source, d.write (.call { kind := .nextPage })) := by
  change Watched.nextPage ((.stored source : DeskPages κ α), d) = _
  simp only [Watched.nextPage, hd.toIdle.call_eq]
  exact congrArg (Result.mapWorld _) (World.nextPage_of_poisoned hd.poisoned h)

end Desk

/-! ## Passes entry by entry -/

namespace LiveEntries

/-- What a call on a pass comes to behind a broken lock, and the pass after it. -/
def whenLocked (it : LiveEntries κ α ρ) (position : Memory.Position κ) (c : PassCall) :
    Except StoreError (PassAnswer ρ) × LiveEntries κ α ρ :=
  let shut := { it with removable := false }
  match c, it.lookahead with
  | .hasNext, .fresh => (.error Memory.lockPoisoned, shut)
  | .hasNext, .buffered _ _ => (.ok (.flag true), shut)
  | .hasNext, .exhausted => (.ok (.flag false), shut)
  | .nextItem, .fresh => (.error Memory.lockPoisoned, shut)
  | .nextItem, .buffered key value =>
    (.ok (.item (it.project key value)), { it with lookahead := .fresh, removable := true })
  | .nextItem, .exhausted => (.error .endOfSequence, shut)
  | .next, .fresh => (.error Memory.lockPoisoned, { shut with lookahead := .exhausted })
  | .next, .buffered key value =>
    (.ok (.item (it.project key value)), { it with lookahead := .fresh, removable := true })
  | .next, .exhausted => (.ok .ended, shut)
  | .removeCurrent, _ =>
    (.error (if it.removable then position.failure else .invalidIteratorState), it)
  | .skipped, _ => (.ok (.count it.skipped), it)

/-- What a call on a pass tries there. -/
def attempts (it : LiveEntries κ α ρ) (position : Memory.Position κ) : PassCall → Attempts
  | .removeCurrent => if it.removable then position.attempts else {}
  | _ => {}

/-- What a pass comes to there when it is collected as a sequence. -/
def collectedWhenLocked (it : LiveEntries κ α ρ) : Except StoreError (List ρ) :=
  match it.lookahead with
  | .exhausted => .ok []
  | _ => .error Memory.lockPoisoned

variable [Ord κ] [Std.TransOrd κ] {d : Desk κ α} {it : LiveEntries κ α ρ}

theorem hasNext?_of_broken (hd : d.Broken) (h : it.lookahead = .fresh)
    (position : Memory.Position κ) :
    hasNext? (it, (.stored position : DeskCursor κ α), d) = some (.error Memory.lockPoisoned
      ({ it with removable := false }, .stored position,
        d.write (.call { kind := .advance }))) := by
  have hpull : (pull ((.stored position : DeskCursor κ α), d) : Result _ (Pull κ α)) =
      .error Memory.lockPoisoned (.stored position, d.write (.call { kind := .advance })) := by
    rw [pull, Desk.advance_of_broken hd]
  rw [hasNext?_fresh h, (Sought.failed hpull).seek?_eq]
  rfl

theorem call_of_broken (hd : d.Broken) (it : LiveEntries κ α ρ) (position : Memory.Position κ)
    (c : PassCall) : ∃ d', d.Tried (it.attempts position c) d' ∧
      (call c (it, (.stored position : DeskCursor κ α), d)).outcome =
        (it.whenLocked position c).1 ∧
      (call c (it, (.stored position : DeskCursor κ α), d)).world =
        ((it.whenLocked position c).2, .stored position, d') := by
  suffices h : ∃ r d', call? c (it, (.stored position : DeskCursor κ α), d) = some r ∧
      d.Tried (it.attempts position c) d' ∧ r.outcome = (it.whenLocked position c).1 ∧
        r.world = ((it.whenLocked position c).2, .stored position, d') by
    obtain ⟨r, d', hcall, htried⟩ := h
    obtain rfl := Option.some.inj (hcall.symm.trans (call?_eq_some c _))
    exact ⟨d', htried⟩
  have hsame := Desk.Tried.refl d
  have hwrite := Desk.tried_write d (.call { kind := .advance })
  obtain ⟨project, lookahead, removable, skipped⟩ := it
  match c, lookahead with
  | .hasNext, .fresh =>
    exact ⟨_, _, by rw [call?, hasNext?_of_broken hd rfl _]; rfl, hwrite, rfl, rfl⟩
  | .hasNext, .buffered key value =>
    exact ⟨_, _, by rw [call?, hasNext?_buffered rfl]; rfl, hsame, rfl, rfl⟩
  | .hasNext, .exhausted =>
    exact ⟨_, _, by rw [call?, hasNext?_exhausted rfl]; rfl, hsame, rfl, rfl⟩
  | .nextItem, .fresh =>
    exact ⟨_, _, by rw [call?, nextItem?, hasNext?_of_broken hd rfl _]; rfl, hwrite, rfl, rfl⟩
  | .nextItem, .buffered key value =>
    exact ⟨_, _, by rw [call?, nextItem?_of_hasNext? (hasNext?_buffered rfl) rfl]; rfl, hsame,
      rfl, rfl⟩
  | .nextItem, .exhausted =>
    exact ⟨_, _, by rw [call?, nextItem?, hasNext?_exhausted rfl]; rfl, hsame, rfl, rfl⟩
  | .next, .fresh =>
    exact ⟨_, _, by rw [call?, next?_of_hasNext?_error (hasNext?_of_broken hd rfl _)]; rfl, hwrite,
      rfl, rfl⟩
  | .next, .buffered key value =>
    exact ⟨_, _, by
      rw [call?, next?_of_hasNext?_true (hasNext?_buffered rfl),
        nextItem?_of_hasNext? (hasNext?_buffered rfl) rfl]
      rfl, hsame, rfl, rfl⟩
  | .next, .exhausted =>
    exact ⟨_, _, by rw [call?, next?_of_hasNext?_false (hasNext?_exhausted rfl)]; rfl, hsame,
      rfl, rfl⟩
  | .removeCurrent, lookahead =>
    cases removable with
    | false => exact ⟨_, _, rfl, hsame, rfl, rfl⟩
    | true =>
      obtain ⟨d', htried, hremove⟩ := Desk.removeCurrent_of_broken hd position
      exact ⟨_, d', by rw [call?, removeCurrent_eq, if_pos rfl, hremove], htried, rfl, rfl⟩
  | .skipped, lookahead => exact ⟨_, _, rfl, hsame, rfl, rfl⟩

/-- Collecting fails once the pass has to search, and leaves it at its end. -/
theorem collect_of_broken (hd : d.Broken) (it : LiveEntries κ α ρ)
    (position : Memory.Position κ) : ∃ d', d.Tried {} d' ∧
      (collect (it, (.stored position : DeskCursor κ α), d)).outcome = it.collectedWhenLocked ∧
      (collect (it, (.stored position : DeskCursor κ α), d)).world =
        ({ it with lookahead := .exhausted, removable := false }, .stored position, d') := by
  have hfresh : ∀ it : LiveEntries κ α ρ, it.lookahead = .fresh →
      collect (it, (.stored position : DeskCursor κ α), d) = .error Memory.lockPoisoned
        ({ it with lookahead := .exhausted, removable := false }, .stored position,
          d.write (.call { kind := .advance })) := by
    intro it h
    have hnext := next?_of_hasNext?_error (hasNext?_of_broken hd h position)
    rw [next?_eq_some, Option.some.injEq] at hnext
    rw [collect_eq, hnext]
  have hwrite := Desk.tried_write d (.call { kind := .advance })
  obtain ⟨project, lookahead, removable, skipped⟩ := it
  match lookahead with
  | .fresh => exact ⟨_, hwrite, by rw [hfresh _ rfl]; rfl, by rw [hfresh _ rfl]; rfl⟩
  | .buffered key value =>
    have hnext : next? (⟨project, .buffered key value, removable, skipped⟩,
        (.stored position : DeskCursor κ α), d) = some (.ok (some (project key value))
          (⟨project, .fresh, true, skipped⟩, .stored position, d)) := by
      rw [next?_of_hasNext?_true (hasNext?_buffered rfl),
        nextItem?_of_hasNext? (hasNext?_buffered rfl) rfl]
      rfl
    rw [collect_of_item hnext, hfresh _ rfl]
    exact ⟨_, hwrite, rfl, rfl⟩
  | .exhausted =>
    rw [collect_of_ended (next?_of_hasNext?_false (hasNext?_exhausted rfl))]
    exact ⟨d, .refl d, rfl, rfl⟩

end LiveEntries

/-! ## Passes page by page -/

namespace PagedEntries

variable [Ord κ] [Std.TransOrd κ] {d : Desk κ α} {source : Memory.Pages κ}

/-- What the next request of a paged pass leads to behind a broken lock : the end, or the
failure. -/
def whenLocked (source : Memory.Pages κ) (answer : υ) : Except StoreError (Option υ) :=
  if source.drained then .ok (some answer) else .error Memory.lockPoisoned

omit [Ord κ] [Std.TransOrd κ] in
theorem map_whenLocked (source : Memory.Pages κ) (f : υ → ρ) (answer : υ) :
    (whenLocked source answer).map (Option.map f) = whenLocked source (f answer) := by
  unfold whenLocked
  split <;> rfl

/-- A collecting pass ends with the results so far, or fails. -/
theorem collectFrom_of_broken (hd : d.Broken) (source : Memory.Pages κ)
    (rule : Nat → JoinRule) (project : κ → Option α → ρ)
    (callback : Nat → ρ → Desk κ α → Deferred (Desk κ α) υ × Desk κ α) (limit pages : Nat)
    (results : List υ) :
    let r := collectFrom rule project callback (limit + 1) pages results
      (.stored source : DeskPages κ α) d
    r.outcome = whenLocked source results ∧ d.Tried {} r.world := by
  have hwrite := Desk.tried_write d (.call { kind := .nextPage })
  cases hsource : source.drained with
  | true =>
    rw [collectFrom, Desk.nextPage_of_drained hd.toIdle hsource, whenLocked, if_pos hsource]
    exact ⟨rfl, hwrite.after (Desk.tried_note _ _)⟩
  | false =>
    rw [collectFrom, Desk.nextPage_of_broken hd hsource, whenLocked,
      if_neg (Bool.eq_false_iff.mp hsource)]
    exact ⟨rfl, hwrite⟩

/-- A delivering pass ends, or fails. -/
theorem deliverFrom_of_broken (hd : d.Broken) (source : Memory.Pages κ)
    (project : κ → Option α → ρ) (callback : Nat → ρ → Action (Desk κ α) Unit)
    (limit pages delivered : Nat) :
    let r := deliverFrom project callback (limit + 1) pages delivered
      (.stored source : DeskPages κ α) d
    r.outcome = whenLocked source () ∧ d.Tried {} r.world := by
  have hwrite := Desk.tried_write d (.call { kind := .nextPage })
  cases hsource : source.drained with
  | true =>
    rw [deliverFrom, Desk.nextPage_of_drained hd.toIdle hsource, whenLocked, if_pos hsource]
    exact ⟨rfl, hwrite.after (Desk.tried_note _ _)⟩
  | false =>
    rw [deliverFrom, Desk.nextPage_of_broken hd hsource, whenLocked,
      if_neg (Bool.eq_false_iff.mp hsource)]
    exact ⟨rfl, hwrite⟩

/-- How passes that are under way go on with a source, wherever they stand : they end with what
they have, or fail, and leave the store alone. -/
structure UnderWay (d : Desk κ α) (source : Memory.Pages κ) : Prop where
  collects : ∀ {ρ υ : Type} (rule : Nat → JoinRule) (project : κ → Option α → ρ)
    (callback : Nat → ρ → Desk κ α → Deferred (Desk κ α) υ × Desk κ α) (limit pages : Nat)
    (results : List υ),
    let r := collectFrom rule project callback (limit + 1) pages results
      (.stored source : DeskPages κ α) d
    r.outcome = whenLocked source results ∧ d.Tried {} r.world
  delivers : ∀ {ρ : Type} (project : κ → Option α → ρ)
    (callback : Nat → ρ → Action (Desk κ α) Unit) (limit pages delivered : Nat),
    let r := deliverFrom project callback (limit + 1) pages delivered
      (.stored source : DeskPages κ α) d
    r.outcome = whenLocked source () ∧ d.Tried {} r.world

theorem underWay_of_broken (hd : d.Broken) (source : Memory.Pages κ) : UnderWay d source where
  collects := collectFrom_of_broken hd source
  delivers := deliverFrom_of_broken hd source

end PagedEntries

end LazyExpiry
