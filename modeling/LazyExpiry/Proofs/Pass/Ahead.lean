import LazyExpiry.Proofs.Pass.Shared
import LazyExpiry.Proofs.Schedule.Gains

/-!
# How far a pass can go

The entries beyond its last key are all that a pass over a store in memory has before it, and
each that is pulled is one fewer (`Walks.length_add`). A call that looks ahead pulls entries that
are expired and at most one other, so it advances the cursor at most once more than there are
entries before it (`advances_hasNext`). Writes between the calls can put entries ahead of the
pass, as many as they write. So all that a pass ever pulls is what was stored at the start and
what others have written since (`pulled_film?`), removals notwithstanding.
-/

namespace LazyExpiry

variable {κ α ρ : Type}

/-! ## Advances -/

/-- The cursor was advanced. -/
def Asked.isAdvance : Asked κ α → Bool
  | advanced _ => true
  | _ => false

/-- A turn advances the cursor once. -/
theorem countP_asked (turns : List (Turn κ α)) :
    (turns.flatMap Turn.asked).countP Asked.isAdvance = turns.length := by
  induction turns with
  | nil => rfl
  | cons t turns ih =>
    have hturn : t.asked.countP Asked.isAdvance = 1 := by
      match t with
      | .null _ _ _ | .value _ _ _ _ _ | .ended | .failed _ => rfl
    rw [List.flatMap_cons, List.countP_append, hturn, ih, List.length_cons, Nat.add_comm]

theorem length_pulledKeys (turns : List (Turn κ α)) :
    (pulledKeys turns).length = turns.countP Turn.pulled := by
  rw [pulledKeys, List.length_filterMap_eq_countP]
  exact List.countP_congr fun t _ => by rw [Option.isSome_map]; rfl

/-- Looking ahead, only the last turn may pull nothing. -/
theorem Looked.length_le {known : Lookahead κ α} {turns : List (Turn κ α)}
    {answer : Except StoreError (Option (κ × Option α))} (h : Looked known turns answer) :
    turns.length ≤ (pulledKeys turns).length + 1 := by
  rw [length_pulledKeys, Turn.countP_pulled]
  cases h with
  | kept => simp
  | exhausted => simp
  | @sought passed last _ hpassed _ =>
    have hexpired : passed.countP Turn.expired = passed.length :=
      List.countP_eq_length.mpr hpassed
    rw [List.countP_append, hexpired, List.length_append, List.length_singleton]
    omega

variable [Ord κ] [Std.TransOrd κ] {policy : Policy}

/-- What is pulled is no longer ahead. -/
theorem Walks.length_add {table : Table κ (Stamped α)} {last last' : Option κ}
    {turns : List (Turn κ α)} (h : Walks policy table last turns last') :
    (pulledKeys turns).length + (table.after last').length = (table.after last).length := by
  induction h with
  | done => exact Nat.zero_add _
  | @entry last last' e rest t now turns hafter hentry _ _ ih =>
    have hkeys : pulledKeys (t :: turns) = e.1 :: pulledKeys turns :=
      List.filterMap_cons_some (by rw [hentry]; rfl)
    rw [Table.after_of_after_eq_cons hafter] at ih
    rw [hkeys, hafter, List.length_cons, List.length_cons, ← ih]
    omega
  | ended _ _ ih => exact ih

namespace LiveEntries

/-- A search for the next live entry comes to its end, and advances the cursor at most once for
every entry ahead and once more. -/
theorem advances_hasNext (it : LiveEntries κ α ρ) (position : Memory.Position κ) {w : World κ α}
    (hw : Intact policy w) :
    ∃ r, hasNext? (it, ({ world := (position, w) } :
        Logged (Memory.Position κ × World κ α) κ α)) = some r ∧
      r.view Logged.world = hasNext (it, position, w) ∧
      r.world.2.log.countP Asked.isAdvance ≤ 1 + (w.memory.table.after position.last).length := by
  have hplain := hasNext?_view (Logged.mirrors_world (κ := κ) (α := α))
    (it, ({ world := (position, w) } : Logged (Memory.Position κ × World κ α) κ α))
  dsimp only at hplain
  rw [hasNext?_eq_some, eq_comm, Option.map_eq_some_iff] at hplain
  obtain ⟨r, hr, hview⟩ := hplain
  refine ⟨r, hr, hview, ?_⟩
  obtain ⟨turns, answer, ha⟩ := hasNext?_looksAhead hr
  obtain ⟨s', htakes, -⟩ := ha.takes
  have hlength := ha.looked.length_le
  have hwalks := (walks_of_takesTurns hw htakes).1.length_add
  have hlog : r.world.2.log = turns.flatMap Turn.asked := by
    have := ha.log_eq
    rwa [Result.world_map] at this
  rw [hlog, countP_asked]
  omega

/-- Each step of others writes at most so many entries, in a store whose lock is sound. -/
def Writing (policy : Policy) (steps : List (PassStep (World κ α) × Nat)) : Prop :=
  ∀ {change n}, (.elsewhere change, n) ∈ steps → ∀ {w : World κ α}, Intact policy w →
    ∃ lines, Carried lines w (change w) ∧ (lines.map Line.puts).sum ≤ n

theorem pulled_film? {steps : List (PassStep (World κ α) × Nat)} (hsteps : Writing policy steps)
    {s s' : LiveEntries κ α ρ × Memory.Position κ × World κ α} (hs : Intact policy s.2.2)
    {film : List (SharedTake κ α ρ)}
    (h : film? (steps.map fun step => step.1.lift beside) s = some (film, s')) :
    (pulledKeys (turnsIn film)).length ≤
      (s.2.2.memory.table.after s.2.1.last).length + (steps.map Prod.snd).sum := by
  induction steps generalizing s film with
  | nil =>
    cases h
    exact Nat.zero_le _
  | cons step steps ih =>
    replace ih := @ih fun hmem => hsteps (List.mem_cons_of_mem _ hmem)
    rw [List.map_cons, List.sum_cons]
    obtain ⟨c | change, n⟩ := step
    · obtain ⟨r, film', hr, hfilm, rfl⟩ := film?_call_eq_some h
      obtain ⟨hwalks, hintact, hsub⟩ := walks_of_call? hs hr
      have hturns : turnsIn (.of s c r :: film') = (Take.of s c r).turns ++ turnsIn film' :=
        List.flatMap_cons
      have hwalked := hwalks.length_add
      have hgains := Table.gains_of_sublist hsub r.world.2.world.1.last
      have hrest : (pulledKeys (turnsIn film')).length ≤
          (r.world.2.world.2.memory.table.after r.world.2.world.1.last).length +
            (steps.map Prod.snd).sum :=
        ih (s := (r.world.1, r.world.2.world)) hintact hfilm
      rw [hturns, pulledKeys_append, List.length_append]
      omega
    · obtain ⟨lines, hcarried, hn⟩ := hsteps List.mem_cons_self hs
      have hgains := hcarried.gains s.2.1.last
      have hrest : (pulledKeys (turnsIn film)).length ≤
          ((change s.2.2).memory.table.after s.2.1.last).length + (steps.map Prod.snd).sum :=
        ih (s := (s.1, s.2.1, change s.2.2)) ⟨hcarried.policy_eq.trans hs.policy_eq,
          hcarried.not_poisoned hs.not_poisoned⟩ h
      omega

end LiveEntries

end LazyExpiry
