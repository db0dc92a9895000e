import LazyExpiry.Proofs.Views.Pages

/-!
# All ways to read show the same entries

Point reads, passes that go one by one, and paged passes that collect or deliver have their
own loops and their own ways to go on from a key. Over a store in memory that nobody writes
to, by a clock that stands still, they all show `World.live`, whatever the page size
(`views_agree`).
-/

namespace LazyExpiry

variable {κ α ρ : Type} [Ord κ] [Std.TransOrd κ]

/-- Opens a pass and takes all its items. -/
def Direct.drain (opening : Action (World κ α) (LiveEntries κ α ρ × Memory.Position κ)) :
    Action (World κ α) (List ρ) := fun w =>
  (opening w).bind fun opened w =>
    (LiveEntries.collect (opened.1, opened.2, w)).mapWorld fun s => s.2.2

namespace Async

/-- Opens a paged pass and collects its items, through works that wait and hand them back. -/
def collected (limit : Nat) (waits : Nat → ρ → Nat)
    (called : Deferred (World κ α) (PagedEntries (Memory.Pages κ) κ α ρ) × World κ α) :
    Result (World κ α) (Option (List ρ)) :=
  (called.1.await called.2).bind fun it w => it.collectEach limit (PagedEntries.handBack waits) w

/-- Opens a paged pass and has its items delivered to a list. -/
def delivered (limit : Nat)
    (called : Deferred (World κ α) (PagedEntries (Memory.Pages κ) κ α ρ) × World κ α) :
    Result (List ρ × World κ α) (Option Unit) :=
  ((called.1.await called.2).mapWorld fun w => ([], w)).bind fun it s =>
    it.deliverEach limit PagedEntries.record s

/-- A paged pass that may ask for more than `n` pages shows those items both ways. -/
structure Shows (n : Nat) (items : List ρ)
    (called : Deferred (World κ α) (PagedEntries (Memory.Pages κ) κ α ρ) × World κ α) : Prop where
  collected : ∀ {limit : Nat} (waits : Nat → ρ → Nat), n < limit →
    (collected limit waits called).outcome = .ok (some items)
  delivered : ∀ {limit : Nat}, n < limit →
    ∃ w', delivered limit called = .ok (some ()) (items, w')

theorem shows_pass [Std.LawfulEqOrd κ] {w : World κ α} (hlock : w.memory.poisoned = false)
    (hstride : w.clock.stride = 0) (project : κ → Option α → ρ) :
    Shows w.memory.table.size (w.live.map fun e => project e.1 e.2) (pass project w) := by
  have hfrozen := Frozen.refl hlock hstride
  have hserve := toServe_fresh w w.memory.pageSize
  have hfew : (toServe w { pageSize := w.memory.pageSize }).length = w.memory.table.size :=
    congrArg List.length hserve
  constructor
  · intro limit waits hlimit
    obtain ⟨w', hcollect, -⟩ := PagedEntries.collectFrom_live project
      (PagedEntries.handsBack_handBack waits) JoinRule.ofCount limit 0 [] hlock hstride (.refl w)
      (Nat.lt_of_le_of_lt (Nat.le_of_eq hfew) hlimit)
    rw [hserve, List.nil_append, ← World.live_eq hlock] at hcollect
    exact congrArg Result.outcome hcollect
  · intro limit hlimit
    obtain ⟨w', hdeliver⟩ := PagedEntries.deliverFrom_live project limit 0 0 [] hfrozen
      (Nat.lt_of_le_of_lt (Nat.le_of_eq hfew) hlimit)
    rw [hserve, List.nil_append, ← World.live_eq hlock] at hdeliver
    exact ⟨w', hdeliver⟩

end Async

/-- The same world with pages of `n` entries. -/
def World.paged (n : Nat) (w : World κ α) : World κ α :=
  { w with memory := { w.memory with pageSize := .ofNat n } }

/-- The point reads of a store, its passes and its paged passes show the same live entries,
with pages of any size. -/
theorem World.views_agree [Std.LawfulEqOrd κ] [DecidableEq κ] {w : World κ α}
    (hlock : w.memory.poisoned = false) (hstride : w.clock.stride = 0) (n : Nat) :
    (Direct.drain Direct.entries (w.paged n)).outcome = .ok w.live ∧
      (Direct.drain Direct.iter (w.paged n)).outcome = .ok w.live ∧
      (Direct.drain Direct.keys (w.paged n)).outcome = .ok (w.live.map Prod.fst) ∧
      (Direct.drain Direct.values (w.paged n)).outcome = .ok (w.live.map Prod.snd) ∧
      Async.Shows w.memory.table.size w.live (Async.entries (w.paged n)) ∧
      Async.Shows w.memory.table.size (w.live.map Prod.fst) (Async.keys (w.paged n)) ∧
      Async.Shows w.memory.table.size (w.live.map Prod.snd) (Async.values (w.paged n)) ∧
      ∀ key, (Direct.contains key (w.paged n)).outcome =
        .ok (decide (key ∈ w.live.map Prod.fst)) := by
  have hlive : (w.paged n).live = w.live := by
    rw [World.live_eq (w := w.paged n) hlock, World.live_eq hlock]
    rfl
  have hentries : (w.live.map fun e => (e.1, e.2)) = w.live := List.map_id' w.live
  have hsync {ρ : Type} (project : κ → Option α → ρ) :=
    Direct.outcome_list (w := w.paged n) hlock hstride project
  have hpaged {ρ : Type} (project : κ → Option α → ρ) :=
    Async.shows_pass (w := w.paged n) hlock hstride project
  rw [hlive] at hsync hpaged
  refine ⟨?_, ?_, hsync fun key _ => key, hsync fun _ value => value, ?_,
    hpaged fun key _ => key, hpaged fun _ value => value, ?_⟩
  · exact (hsync Prod.mk).trans (by rw [hentries])
  · exact (hsync Prod.mk).trans (by rw [hentries])
  · have hshows := hpaged (Prod.mk : κ → Option α → κ × Option α)
    rw [hentries] at hshows
    exact hshows
  · intro key
    rw [World.contains_eq_live (w := w.paged n) hlock, hlive]

/-- A store whose first page of one holds only an expired value, and then a null. -/
def World.patchy : World Nat Nat where
  memory := { table := ⟨[(1, ⟨some 10, 1⟩), (2, ⟨none, 1⟩), (3, ⟨some 30, 2⟩)], by decide⟩ }
  policy := .writtenEven

/-- With pages of one, two entries are shown and the expired one is not. -/
theorem World.views_agree_patchy :
    (Direct.drain Direct.entries (World.patchy.paged 0)).outcome = .ok [(2, none), (3, some 30)] ∧
      (Async.collected 4 (fun _ _ => 1) (Async.entries (World.patchy.paged 0))).outcome =
        .ok (some [(2, none), (3, some 30)]) ∧
      (Direct.contains 1 (World.patchy.paged 0)).outcome = .ok false := by
  obtain ⟨hentries, -, -, -, hpaged, -, -, hcontains⟩ :=
    World.views_agree (w := World.patchy) rfl rfl 0
  exact ⟨hentries, hpaged.collected _ (by decide), hcontains 1⟩

end LazyExpiry
