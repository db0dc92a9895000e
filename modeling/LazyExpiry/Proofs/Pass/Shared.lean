import Mathlib.Data.List.Nodup
import LazyExpiry.Proofs.Pass.Conserved
import LazyExpiry.Proofs.Pass.Window
import LazyExpiry.Proofs.Views.Walk

/-!
# A pass over a store that others change

The cursor of a store in memory keeps the last key and no more, and each turn looks for
the first entry beyond it in the table as it is then (`Walks`). Between two calls others
may do to the table what they like, removing that very key included, so nothing links the
table of one call to that of the next. What does link the calls is the key : it only
grows, and a key that is there all the time cannot be stepped over (`Walked`).

`shared_pass` says what follows for the items : their keys ascend, each was stored and
passed the check when it was pulled, and none that stayed is missing at the end.
-/

namespace LazyExpiry

variable {κ α ρ : Type}

/-! ## Turns in a table -/

/-- The keys of the entries that were pulled. -/
def pulledKeys (turns : List (Turn κ α)) : List κ :=
  turns.filterMap fun t => t.entry?.map Prod.fst

/-- The live keys are among them, in the same order. -/
theorem sublist_pulledKeys (turns : List (Turn κ α)) :
    ((turns.filterMap Turn.found?).map Prod.fst).Sublist (pulledKeys turns) := by
  induction turns with
  | nil => exact .slnil
  | cons t turns ih =>
    rcases hfound : t.found? with - | ⟨key, value⟩
    · rw [List.filterMap_cons_none hfound, pulledKeys, List.filterMap_cons]
      split
      · exact ih
      · exact ih.cons _
    · obtain ⟨stored, now, hentry⟩ := Turn.entry?_of_found? hfound
      have hkeys : pulledKeys (t :: turns) = key :: pulledKeys turns :=
        List.filterMap_cons_some (by rw [hentry]; rfl)
      rw [List.filterMap_cons_some hfound, List.map_cons, hkeys]
      exact ih.cons_cons key

theorem pulledKeys_append (turns turns' : List (Turn κ α)) :
    pulledKeys (turns ++ turns') = pulledKeys turns ++ pulledKeys turns' := List.filterMap_append

variable [Ord κ]

/-- The turns of a cursor that goes from key to key through a table. -/
inductive Walks (policy : Policy) (table : Table κ (Stamped α)) :
    Option κ → List (Turn κ α) → Option κ → Prop where
  | done {last : Option κ} : Walks policy table last [] last
  | entry {last last' : Option κ} {e : κ × Stamped α} {rest : List (κ × Stamped α)}
    {t : Turn κ α} {now : Timestamp} {turns : List (Turn κ α)} :
    table.after last = e :: rest → t.entry? = some (e.1, e.2, now) → t.JudgedBy policy →
      Walks policy table (some e.1) turns last' → Walks policy table last (t :: turns) last'
  | ended {last last' : Option κ} {turns : List (Turn κ α)} :
    table.after last = [] → Walks policy table last turns last' →
      Walks policy table last (.ended :: turns) last'

section Memory

variable [Std.TransOrd κ] {policy : Policy} {position : Memory.Position κ} {w : World κ α}
  {t : Turn κ α} {s' : Memory.Position κ × World κ α}

/-- At the end of the table a turn meets the end. -/
theorem takesTurn_of_nil (hlock : w.memory.poisoned = false)
    (hafter : w.memory.table.after position.last = []) (h : TakesTurn (position, w) t s') :
    t = .ended ∧ s' = (position, w) := by
  unfold TakesTurn at h
  rw [pull, Logged.advance_eq, advance_of_nil hlock hafter] at h
  obtain ⟨hworld, hasked⟩ := Logged.mk.inj h
  exact ⟨Turn.asked_inj hasked.symm, hworld.symm⟩

/-- Before the end it pulls the first entry beyond the position. -/
theorem takesTurn_of_cons (hlock : w.memory.poisoned = false) {e : κ × Stamped α}
    {rest : List (κ × Stamped α)} (hafter : w.memory.table.after position.last = e :: rest)
    (h : TakesTurn (position, w) t s') :
    (∃ now, t.entry? = some (e.1, e.2, now)) ∧ t.JudgedBy w.policy ∧ s'.1.last = some e.1 ∧
      SameStore w s'.2 := by
  unfold TakesTurn at h
  rw [pull, Logged.advance_eq, advance_of_cons hlock hafter] at h
  obtain ⟨key, - | v, writtenAt⟩ := e
  · obtain ⟨hworld, hasked⟩ := Logged.mk.inj h
    obtain rfl : t = .null key writtenAt w.clock.read.1 := Turn.asked_inj hasked.symm
    exact ⟨⟨_, rfl⟩, trivial, hworld ▸ rfl, hworld ▸ ⟨rfl, rfl, hlock⟩⟩
  · simp only [Result.mapWorld_ok, judge, Context.isLive, Context.now, Logged.ask] at h
    by_cases hlive : w.policy writtenAt w.clock.read.1 = true <;>
      simp only [hlive, if_true] at h <;> obtain ⟨hworld, hasked⟩ := Logged.mk.inj h
    · obtain rfl : t = .value key v writtenAt w.clock.read.1 true := Turn.asked_inj hasked.symm
      exact ⟨⟨_, rfl⟩, hlive.symm, hworld ▸ rfl, hworld ▸ ⟨rfl, rfl, hlock⟩⟩
    · obtain rfl : t = .value key v writtenAt w.clock.read.1 false := Turn.asked_inj hasked.symm
      exact ⟨⟨_, rfl⟩, (Bool.eq_false_iff.mpr hlive).symm, hworld ▸ rfl,
        hworld ▸ ⟨rfl, rfl, hlock⟩⟩

/-- So the turns of a search walk through the table as it is at the call. -/
theorem walks_of_takesTurns {turns : List (Turn κ α)} (hw : Intact policy w)
    (h : TakesTurns (position, w) turns s') :
    Walks policy w.memory.table position.last turns s'.1.last ∧ SameStore w s'.2 := by
  generalize hs : (position, w) = s at h
  induction h generalizing position w with
  | done =>
    subst hs
    exact ⟨.done, .refl hw.not_poisoned⟩
  | @turn s s₁ s'' t turns htakes _ ih =>
    subst hs
    obtain ⟨position₁, w₁⟩ := s₁
    rcases hafter : w.memory.table.after position.last with - | ⟨e, rest⟩
    · obtain ⟨rfl, heq⟩ := takesTurn_of_nil hw.not_poisoned hafter htakes
      cases heq
      obtain ⟨hwalks, hsame⟩ := ih hw rfl
      exact ⟨.ended hafter hwalks, hsame⟩
    · obtain ⟨⟨now, hentry⟩, hjudged, hlast, hsame⟩ :=
        takesTurn_of_cons hw.not_poisoned hafter htakes
      obtain ⟨hwalks, hsame'⟩ := ih (hsame.intact hw) rfl
      rw [hsame.table_eq, show position₁.last = some e.1 from hlast] at hwalks
      exact ⟨.entry hafter hentry (hw.policy_eq ▸ hjudged) hwalks, hsame.trans hsame'⟩

end Memory

namespace Walks

variable {policy : Policy} {table : Table κ (Stamped α)} {last last' : Option κ}
  {turns : List (Turn κ α)}

/-- The keys ascend, from beyond the last one to the new last one. -/
theorem ascending [Std.TransOrd κ] (h : Walks policy table last turns last') :
    (pulledKeys turns).Pairwise (compare · · = .lt) ∧
      (∀ k ∈ pulledKeys turns, Table.beyond last k = true) ∧
      ∀ k, Table.beyond last' k = true →
        Table.beyond last k = true ∧ ∀ q ∈ pulledKeys turns, compare q k = .lt := by
  induction h with
  | done => exact ⟨.nil, by simp [pulledKeys], fun k hk => ⟨hk, by simp [pulledKeys]⟩⟩
  | @entry last last' e rest t now turns hafter hentry _ _ ih =>
    obtain ⟨hpairwise, hbeyond, hlast⟩ := ih
    have hkeys : pulledKeys (t :: turns) = e.1 :: pulledKeys turns :=
      List.filterMap_cons_some (by rw [hentry]; rfl)
    have he : Table.beyond last e.1 = true :=
      (Table.mem_after.mp (hafter ▸ List.mem_cons_self : e ∈ table.after last)).2
    have hstep : ∀ k, Table.beyond (some e.1) k = true → compare e.1 k = .lt := fun k hk => by
      simpa using hk
    rw [hkeys]
    refine ⟨List.pairwise_cons.mpr ⟨fun q hq => hstep q (hbeyond q hq), hpairwise⟩, ?_, ?_⟩
    · intro k hk
      rcases List.mem_cons.mp hk with rfl | hk
      · exact he
      · exact Table.beyond_trans he (hstep k (hbeyond k hk))
    · intro k hk
      obtain ⟨hek, hq⟩ := hlast k hk
      refine ⟨Table.beyond_trans he (hstep k hek), fun q hmem => ?_⟩
      rcases List.mem_cons.mp hmem with rfl | hmem
      · exact hstep k hek
      · exact hq q hmem
  | ended _ _ ih => exact ih

/-- A cursor does not fail. -/
theorem not_failed (h : Walks policy table last turns last') (e : StoreError) :
    .failed e ∉ turns := by
  induction h with
  | done => simp
  | entry _ hentry _ _ ih =>
    intro hmem
    rcases List.mem_cons.mp hmem with rfl | hmem
    · cases hentry
    · exact ih hmem
  | ended _ _ ih => simpa using ih

variable [Std.LawfulEqOrd κ]

/-- What is pulled is stored. -/
theorem stored (h : Walks policy table last turns last') :
    ∀ t ∈ turns, t.JudgedBy policy ∧
      ∀ {key stored now}, t.entry? = some (key, stored, now) → table.get? key = some stored := by
  induction h with
  | done => simp
  | @entry last _ e rest t now turns hafter hentry hjudged _ ih =>
    intro u hu
    rcases List.mem_cons.mp hu with rfl | hu
    · refine ⟨hjudged, fun {key stored now'} hu => ?_⟩
      rw [hentry] at hu
      cases hu
      have hmem : e ∈ table.after last := hafter ▸ List.mem_cons_self
      exact Table.mem_entries_iff.mp (Table.mem_after.mp hmem).1
    · exact ih u hu
  | ended _ _ ih =>
    intro u hu
    rcases List.mem_cons.mp hu with rfl | hu
    · exact ⟨trivial, fun hentry => by cases hentry⟩
    · exact ih u hu

/-- A stored key that passes the check at every reading is not stepped over : it is found,
or still ahead. -/
theorem found_or_ahead (h : Walks policy table last turns last') {key : κ} {stored : Stamped α}
    (hstored : table.get? key = some stored) (hbeyond : Table.beyond last key = true)
    (hlive : ∀ t ∈ turns, ∀ {e : κ × Stamped α × Timestamp}, t.entry? = some e →
      (check policy (some stored) e.2.2).isSome = true) :
    key ∈ (turns.filterMap Turn.found?).map Prod.fst ∨
      Table.beyond last' key = true ∧ .ended ∉ turns := by
  have ahead : ∀ {last}, Table.beyond last key = true → (key, stored) ∈ table.after last :=
    fun h => Table.mem_after.mpr ⟨Table.get?_eq_some_iff.mp hstored, h⟩
  induction h with
  | done => exact .inr ⟨hbeyond, by simp⟩
  | @entry last _ e rest t now turns hafter hentry hjudged _ ih =>
    have hmem := ahead hbeyond
    rw [hafter] at hmem
    rcases List.mem_cons.mp hmem with rfl | hrest
    · obtain ⟨value, hcheck⟩ := Option.isSome_iff_exists.mp (hlive t List.mem_cons_self hentry)
      have hfound : t.found? = some (key, value) := by
        rw [Turn.found?_eq_check hjudged, hentry]
        simp [hcheck]
      exact .inl (List.mem_map.mpr ⟨_, List.mem_filterMap.mpr ⟨t, List.mem_cons_self, hfound⟩, rfl⟩)
    · have hasc : Ascending (e :: rest) := hafter ▸ table.ascending_after last
      have hlt : compare e.1 key = .lt := (List.pairwise_cons.mp hasc).1 _ hrest
      rcases ih (by simpa using hlt) fun u hu => hlive u (List.mem_cons_of_mem _ hu) with
        hfound | ⟨hahead, hended⟩
      · obtain ⟨d, hd, hkey⟩ := List.mem_map.mp hfound
        refine .inl (List.mem_map.mpr ⟨d, ?_, hkey⟩)
        obtain ⟨u, hu, hfu⟩ := List.mem_filterMap.mp hd
        exact List.mem_filterMap.mpr ⟨u, List.mem_cons_of_mem _ hu, hfu⟩
      · refine .inr ⟨hahead, fun hmem => ?_⟩
        rcases List.mem_cons.mp hmem with rfl | hmem
        · cases hentry
        · exact hended hmem
  | ended hafter _ _ =>
    have hmem := ahead hbeyond
    rw [hafter] at hmem
    cases hmem

end Walks

/-! ## Calls on a shared store -/

/-- A call on a pass over a store in memory. -/
abbrev SharedTake (κ α ρ : Type) [Ord κ] := Take (Memory.Position κ × World κ α) κ α ρ

/-- The table that a call met. -/
def SharedTake.table (t : SharedTake κ α ρ) : Table κ (Stamped α) := t.before.2.memory.table

/-- The key was stored when the call was made, and what was stored passed the check at every
reading of that call. -/
def SharedTake.Shows (policy : Policy) (t : SharedTake κ α ρ) (key : κ) : Prop :=
  ∃ stored, t.table.get? key = some stored ∧
    ∀ u ∈ t.turns, ∀ {e : κ × Stamped α × Timestamp}, u.entry? = some e →
      (check policy (some stored) e.2.2).isSome = true

namespace LiveEntries

/-- The live entries that were handed out. -/
def handedIn {ω : Type} (film : List (Take ω κ α ρ)) : List (κ × Option α) :=
  (foundIn film).take (itemsIn (eventsIn film)).length

/-- Call by call the cursor goes on from the last key, in the table of that call. -/
inductive Walked (policy : Policy) : List (SharedTake κ α ρ) → Option κ → Prop where
  | nil : Walked policy [] none
  | snoc {film : List (SharedTake κ α ρ)} {t : SharedTake κ α ρ} {last last' : Option κ} :
    Walked policy film last → Walks policy t.table last t.turns last' →
      Walked policy (film ++ [t]) last'

section Walked

variable {policy : Policy} {project : κ → Option α → ρ} {film : List (SharedTake κ α ρ)}
  {last : Option κ} {c : PassCall} {s : LiveEntries κ α ρ × Memory.Position κ × World κ α}
  {r : Result (LiveEntries κ α ρ × Logged (Memory.Position κ × World κ α) κ α) (PassAnswer ρ)}

theorem handedIn_sublist (film : List (SharedTake κ α ρ)) :
    (handedIn film).Sublist (foundIn film) :=
  List.take_sublist _ _

/-- Once there is no further entry, every live entry has been handed out. -/
theorem Balanced.handedIn_eq {it : LiveEntries κ α ρ} (h : Balanced project film it)
    (hclosed : film.any Take.closes = true) : handedIn film = foundIn film := by
  obtain ⟨handed, hfound, hitems⟩ := h.found_eq
  rw [h.exhausted_iff.mpr hclosed] at hfound
  replace hfound : foundIn film = handed := hfound.trans (List.append_nil _)
  rw [handedIn, hitems, List.length_map, hfound, List.take_length]

theorem Walked.walks (h : Walked policy film last) :
    ∀ t ∈ film, ∃ last last', Walks policy t.table last t.turns last' := by
  induction h with
  | nil => simp
  | snoc _ hwalks ih =>
    intro t ht
    rcases List.mem_append.mp ht with ht | ht
    · exact ih t ht
    · rw [List.mem_singleton.mp ht]
      exact ⟨_, _, hwalks⟩

/-- A key that is shown at every call until it is found is not stepped over. -/
theorem Walked.found_or_ahead [Std.LawfulEqOrd κ] (h : Walked policy film last) {key : κ}
    (hshown : ∀ {before t after}, film = before ++ t :: after →
      key ∉ (foundIn before).map Prod.fst → SharedTake.Shows policy t key) :
    key ∈ (foundIn film).map Prod.fst ∨ Table.beyond last key = true ∧ .ended ∉ turnsIn film := by
  induction h with
  | nil => exact .inr ⟨rfl, by simp [turnsIn]⟩
  | @snoc film t last last' _ hwalks ih =>
    have hfilm := ih fun {before u after} hsplit hnot =>
      hshown (by rw [hsplit, List.append_assoc, List.cons_append]) hnot
    rw [foundIn_snoc, List.map_append, turnsIn_snoc, List.mem_append, List.mem_append]
    by_cases hfound : key ∈ (foundIn film).map Prod.fst
    · exact .inl (.inl hfound)
    · obtain ⟨hahead, hended⟩ := hfilm.resolve_left hfound
      obtain ⟨stored, hstored, hlive⟩ := hshown rfl hfound
      rcases hwalks.found_or_ahead hstored hahead hlive with hfound' | ⟨hahead', hended'⟩
      · exact .inl (.inr hfound')
      · exact .inr ⟨hahead', fun hmem => hmem.elim hended hended'⟩

/-- A cursor in memory does not fail, so only its end closes a film. -/
theorem Walked.ended_of_closes (h : Walked policy film last) (hlaw : Lawful project film)
    {t : SharedTake κ α ρ} (ht : t ∈ film) (hcloses : t.closes = true) : .ended ∈ t.turns := by
  rcases Take.closes_iff.mp hcloses with hended | ⟨hcall, hout⟩
  · exact hended
  obtain ⟨last, last', hwalks⟩ := h.walks t ht
  obtain ⟨past, later, hfilm⟩ := List.append_of_mem ht
  obtain ⟨-, answer, hlooked, hreply⟩ := (hlaw hfilm).of_looks (by rw [hcall]; rfl)
  rw [hreply, hcall] at hout
  rcases answer with e | - | e
  · exact absurd hlooked.failed_mem (hwalks.not_failed e)
  · cases hout
  · cases hout

variable [Std.TransOrd κ]

theorem Intact.removeCurrent {p : Memory.Position κ × World κ α} (h : Intact policy p.2) :
    Intact policy (Cursor.removeCurrent p).world.2 := by
  obtain ⟨⟨- | key⟩, w⟩ := p
  · exact h
  · simp only [Cursor.removeCurrent, World.atPosition, Action.focus, Memory.removeLast,
      Memory.delete_of_not_poisoned h.not_poisoned]
    exact ⟨h.policy_eq, h.not_poisoned⟩

/-- A removal leaves some of the entries. -/
theorem Intact.sublist_removeCurrent {p : Memory.Position κ × World κ α} (h : Intact policy p.2) :
    (Cursor.removeCurrent p).world.2.memory.table.entries.Sublist p.2.memory.table.entries := by
  obtain ⟨⟨- | key⟩, w⟩ := p
  · exact List.Sublist.refl _
  · simp only [Cursor.removeCurrent, World.atPosition, Action.focus, Memory.removeLast,
      Memory.delete_of_not_poisoned h.not_poisoned]
    exact List.filter_sublist

/-- A call goes on from the last key, through the table that it met, and stores nothing there. -/
theorem walks_of_call? (hw : Intact policy s.2.2)
    (hr : LiveEntries.call? c
      (s.1, ({ world := s.2 } : Logged (Memory.Position κ × World κ α) κ α)) = some r) :
    Walks policy s.2.2.memory.table s.2.1.last (Take.of s c r).turns r.world.2.world.1.last ∧
      Intact policy r.world.2.world.2 ∧
      r.world.2.world.2.memory.table.entries.Sublist s.2.2.memory.table.entries := by
  obtain ⟨it, position, w⟩ := s
  have ahead : ∀ {turns answer}, LooksAhead c
      (it, ({ world := (position, w) } : Logged (Memory.Position κ × World κ α) κ α)) turns answer
        r →
      Walks policy w.memory.table position.last (Take.of (it, position, w) c r).turns
          r.world.2.world.1.last ∧ Intact policy r.world.2.world.2 ∧
        r.world.2.world.2.memory.table.entries.Sublist w.memory.table.entries := by
    intro turns answer ha
    obtain ⟨s', htakes, hworld⟩ := ha.takes
    obtain ⟨hwalks, hsame⟩ := walks_of_takesTurns hw htakes
    have hturns : (Take.of (it, position, w) c r).turns = turns := ha.turns_eq.2
    rw [hturns]
    -- a note of the end leaves the position and the store alone
    rcases hworld with hworld | ⟨n, hworld⟩ <;> rw [hworld]
    · exact ⟨hwalks, hsame.intact hw, hsame.table_eq ▸ List.Sublist.refl _⟩
    · exact ⟨hwalks, ⟨(hsame.intact hw).policy_eq, (hsame.intact hw).not_poisoned⟩,
        hsame.table_eq ▸ List.Sublist.refl _⟩
  have idle : (Take.of (it, position, w) c r).turns = [] →
      r.world.2.world.1.last = position.last → Walks policy w.memory.table position.last
        (Take.of (it, position, w) c r).turns r.world.2.world.1.last := by
    intro hturns hlast
    rw [hturns, hlast]
    exact .done
  have hcomes := comesTo_of_call? hr
  match c with
  | .hasNext | .nextItem | .next =>
    obtain ⟨turns, answer, ha⟩ := hcomes
    exact ahead ha
  | .removeCurrent =>
    have hpoint : Intact policy (position, w).2 := hw
    rcases hcomes.1 with hworld | hworld
    · refine ⟨idle (by rw [Take.turns, Take.of, hworld]; rfl) (by rw [hworld]), ?_⟩
      rw [hworld]
      exact ⟨hw, List.Sublist.refl _⟩
    · refine ⟨idle (by rw [Take.turns, Take.of, hworld]; rfl) ?_, ?_⟩ <;> rw [hworld]
      · exact tracks_position.removeCurrent (position, w)
      · exact ⟨Intact.removeCurrent hpoint, Intact.sublist_removeCurrent hpoint⟩
  | .skipped =>
    obtain rfl : r = .ok (.count it.skipped) (it, { world := (position, w) }) := hcomes
    exact ⟨idle rfl rfl, hw, List.Sublist.refl _⟩

/-- A call goes on from the last key. -/
theorem Walked.call? (h : Walked policy film s.2.1.last) (hw : Intact policy s.2.2)
    (hr : LiveEntries.call? c
      (s.1, ({ world := s.2 } : Logged (Memory.Position κ × World κ α) κ α)) = some r) :
    Walked policy (film ++ [.of s c r]) r.world.2.world.1.last ∧
      Intact policy r.world.2.world.2 := by
  obtain ⟨hwalks, hintact, -⟩ := walks_of_call? hw hr
  exact ⟨.snoc h hwalks, hintact⟩

/-- Over a store whose lock others leave sound, a film walks on call by call. -/
theorem walked_of_film? {w : World κ α} (hw : Intact policy w) {steps : List (PassStep (World κ α))}
    (helsewhere : ∀ {change}, .elsewhere change ∈ steps →
      ∀ {w : World κ α}, Intact policy w → Intact policy (change w))
    {s' : LiveEntries κ α ρ × Memory.Position κ × World κ α}
    (h : film? (steps.map (.lift beside)) ({ project }, ({} : Memory.Position κ), w) =
      some (film, s')) : Walked policy film s'.2.1.last ∧ Intact policy s'.2.2 := by
  refine film?_invariant (I := fun film s => Walked policy film s.2.1.last ∧ Intact policy s.2.2)
    (fun _ hinv hr => hinv.1.call? hinv.2 hr) (fun {change past s} hmem hinv => ?_) ⟨.nil, hw⟩ h
  obtain ⟨_ | change', hmem', heq⟩ := List.mem_map.mp hmem <;> cases heq
  exact ⟨hinv.1, helsewhere hmem' hinv.2⟩

theorem Walked.ascending (h : Walked policy film last) :
    (pulledKeys (turnsIn film)).Pairwise (compare · · = .lt) ∧
      ∀ k, Table.beyond last k = true → ∀ q ∈ pulledKeys (turnsIn film), compare q k = .lt := by
  induction h with
  | nil => exact ⟨.nil, fun k _ q hq => by cases hq⟩
  | snoc _ hwalks ih =>
    obtain ⟨hpairwise, hlast⟩ := ih
    obtain ⟨hpairwise', hbeyond, hlast'⟩ := hwalks.ascending
    rw [turnsIn_snoc, pulledKeys_append]
    refine ⟨List.pairwise_append.mpr ⟨hpairwise, hpairwise', fun p hp q hq =>
      hlast q (hbeyond q hq) p hp⟩, fun k hk q hq => ?_⟩
    obtain ⟨hk', hq'⟩ := hlast' k hk
    rcases List.mem_append.mp hq with hq | hq
    · exact hlast k hk' q hq
    · exact hq' q hq

theorem Walked.pairwise_handedIn {last : Option κ} (h : Walked policy film last) :
    ((handedIn film).map Prod.fst).Pairwise (compare · · = .lt) :=
  h.ascending.1.sublist
    (((handedIn_sublist film).map _).trans (sublist_pulledKeys (turnsIn film)))

end Walked

/-! ## The rule -/

section Rule

variable [Std.TransOrd κ] [Std.LawfulEqOrd κ] [DecidableEq κ] {policy : Policy}
  {project : κ → Option α → ρ} {film : List (SharedTake κ α ρ)}

/-- What a film of a pass over a shared store shows. -/
structure SharedPass (policy : Policy) (project : κ → Option α → ρ)
    (film : List (SharedTake κ α ρ)) : Prop where
  /-- The items are made of the entries as they were pulled. -/
  items_eq : itemsIn (eventsIn film) = (handedIn film).map fun e => project e.1 e.2
  /-- Their keys ascend strictly, so no key comes twice. -/
  ascending : (handedIn film).Pairwise fun a b => compare a.1 b.1 = .lt
  /-- A live entry was stored when it was pulled, and passed the check at the time read then. -/
  pulled : ∀ t ∈ film, ∀ u ∈ t.turns, ∀ {key value}, u.found? = some (key, value) →
    ∃ stored now, u.entry? = some (key, stored, now) ∧ t.table.get? key = some stored ∧
      check policy (some stored) now = some value
  /-- When there is no further entry, a key that was shown at every call until it was handed
  out has been handed out, and once. -/
  complete : ∀ {past t later}, film = past ++ t :: later → t.event.call = .hasNext →
    t.event.outcome = .ok (.flag false) → ∀ {key},
      (∀ {before u after}, past ++ [t] = before ++ u :: after →
        key ∉ (handedIn before).map Prod.fst → SharedTake.Shows policy u key) →
      ((handedIn (past ++ [t])).map Prod.fst).count key = 1

/-- A film that ends with there being no further entry shows every key that stayed. -/
theorem Walked.complete {past : List (SharedTake κ α ρ)} {t : SharedTake κ α ρ} {last : Option κ}
    {it : LiveEntries κ α ρ} (h : Walked policy (past ++ [t]) last)
    (hlaw : Lawful project (past ++ [t])) (hbalanced : Balanced project (past ++ [t]) it)
    (hcall : t.event.call = .hasNext) (hout : t.event.outcome = .ok (.flag false)) {key : κ}
    (hshown : ∀ {before u after}, past ++ [t] = before ++ u :: after →
      key ∉ (handedIn before).map Prod.fst → SharedTake.Shows policy u key) :
    ((handedIn (past ++ [t])).map Prod.fst).count key = 1 := by
  have hclosed : (past ++ [t]).any Take.closes = true := by
    obtain ⟨-, answer, hlooked, hreply⟩ := (hlaw rfl).of_looks (by rw [hcall]; rfl)
    rw [hout, hcall] at hreply
    obtain rfl : answer = .ok none := by
      rcases answer with e | - | e
      · cases hreply
      · rfl
      · cases hreply
    rw [List.any_append, Bool.or_eq_true]
    rcases hlooked.ended with hknown | hended
    · obtain ⟨u, hu, hcloses⟩ := closes_of_knows hknown
      exact .inl (List.any_eq_true.mpr ⟨u, hu, hcloses⟩)
    · exact .inr (List.any_eq_true.mpr
        ⟨t, List.mem_singleton_self t, Take.closes_iff.mpr (.inl hended)⟩)
  obtain ⟨u, hu, hcloses⟩ := List.any_eq_true.mp hclosed
  have hended : .ended ∈ turnsIn (past ++ [t]) :=
    List.mem_flatMap.mpr ⟨u, hu, h.ended_of_closes hlaw hu hcloses⟩
  have hfound : key ∈ (foundIn (past ++ [t])).map Prod.fst := by
    refine (h.found_or_ahead fun hsplit hnot => hshown hsplit fun hmem => hnot ?_).resolve_right
      fun hahead => hahead.2 hended
    exact ((handedIn_sublist _).map _).subset hmem
  rw [← hbalanced.handedIn_eq hclosed] at hfound
  refine List.count_eq_one_of_mem ?_ hfound
  exact nodup_of_ascending h.pairwise_handedIn

/-- Whatever others do to the store between the calls, short of breaking its lock, and
however the clock moves : the calls return, and what they hand out is what was stored when
it was pulled, in ascending order, with no key missing that stayed. -/
theorem shared_pass (project : κ → Option α → ρ) {w : World κ α} (hw : Intact policy w)
    {steps : List (PassStep (World κ α))}
    (helsewhere : ∀ {change}, .elsewhere change ∈ steps →
      ∀ {w : World κ α}, Intact policy w → Intact policy (change w)) :
    ∃ film it position w',
      film? (steps.map (.lift beside)) ({ project }, ({} : Memory.Position κ), w) =
        some (film, it, position, w') ∧
      run? (steps.map (.lift beside)) ({ project }, ({} : Memory.Position κ), w) =
        some (eventsIn film, it, position, w') ∧
      SharedPass policy project film := by
  obtain ⟨⟨history, it, position, w'⟩, hrun⟩ := Option.isSome_iff_exists.mp
    (isSome_run? (steps.map (.lift beside)) (({ project } : LiveEntries κ α ρ),
      ({} : Memory.Position κ), w))
  obtain ⟨film, hfilm, rfl⟩ := film?_of_run? hrun
  obtain ⟨hbalanced, hlaw⟩ := balanced_of_film? hfilm
  obtain ⟨hwalked, -⟩ := walked_of_film? hw helsewhere hfilm
  refine ⟨film, it, position, w', hfilm, hrun, ?_, ?_, ?_, ?_⟩
  · obtain ⟨handed, hfound, hitems⟩ := hbalanced.found_eq
    rw [handedIn, hitems, List.length_map, hfound, List.take_left]
  · exact List.pairwise_map.mp hwalked.pairwise_handedIn
  · intro t ht u hu key value hfound
    obtain ⟨last, last', hwalks⟩ := hwalked.walks t ht
    obtain ⟨hjudged, hstored⟩ := hwalks.stored u hu
    obtain ⟨stored, now, hentry⟩ := Turn.entry?_of_found? hfound
    refine ⟨stored, now, hentry, hstored hentry, ?_⟩
    rw [Turn.found?_eq_check hjudged, hentry] at hfound
    simpa using hfound
  · intro past t later hsplit hcall hout key hshown
    rw [hsplit, List.append_cons] at hfilm
    obtain ⟨first, second, mid, heq, hfirst, -⟩ := film?_append_eq_some hfilm
    obtain ⟨steps₁, steps₂, rfl, rfl, rfl⟩ := List.map_eq_append_iff.mp heq
    obtain ⟨hbalanced', hlaw'⟩ := balanced_of_film? hfirst
    obtain ⟨hwalked', -⟩ := walked_of_film? hw
      (fun hmem => helsewhere (List.mem_append_left _ hmem)) hfirst
    exact hwalked'.complete hlaw' hbalanced' hcall hout hshown

end Rule

/-! A store that is changed in front of the cursor and behind it. -/

/-- Two live entries, one of them an explicit null. -/
def sparse : World Nat Nat where
  memory := { table := ⟨[(1, ⟨some 10, 0⟩), (3, ⟨none, 0⟩)], by decide⟩ }
  policy := .always

/-- Others remove every entry and store the keys again, with another one between them. -/
def churn (w : World Nat Nat) : World Nat Nat :=
  let w := (Direct.putAll [(1, some 11), (2, some 20)] (Direct.clear w).world).world
  (Direct.put 3 none w).world

/-- Others remove the entry that is kept, and the clock moves on. -/
def withdraw (w : World Nat Nat) : World Nat Nat :=
  { (Direct.remove 2 w).world with clock := { time := 1000 } }

/-- What is called, and what others do in between. -/
def sharedSteps : List (PassStep (World Nat Nat)) :=
  [.call .nextItem, .elsewhere churn, .call .hasNext, .elsewhere withdraw, .call .nextItem,
    .call .next, .call .hasNext]

/-- What becomes of the calls. -/
def sharedHistory : List (PassEvent (Nat × Option Nat)) :=
  [⟨.nextItem, .ok (.item (1, some 10))⟩, ⟨.hasNext, .ok (.flag true)⟩,
    ⟨.nextItem, .ok (.item (2, some 20))⟩, ⟨.next, .ok (.item (3, none))⟩,
    ⟨.hasNext, .ok (.flag false)⟩]

theorem run?_sharedSteps : ∃ s, run? (sharedSteps.map (.lift beside))
    (({ project := Prod.mk } : LiveEntries Nat Nat (Nat × Option Nat)),
      ({} : Memory.Position Nat), sparse) = some (sharedHistory, s) := by
  have first : seek? 0 (({} : Memory.Position Nat), sparse) =
      some (.ok (some (1, some 10)) (0, { last := some 1 }, { sparse with asked := 1 })) :=
    Sought.seek?_eq (.found rfl)
  have second : seek? 0 (({ last := some 1 } : Memory.Position Nat),
      churn { sparse with asked := 1 }) =
      some (.ok (some (2, some 20)) (0, { last := some 2 },
        { churn { sparse with asked := 1 } with asked := 2 })) :=
    Sought.seek?_eq (.found rfl)
  have third : seek? 0 (({ last := some 2 } : Memory.Position Nat),
      withdraw { churn { sparse with asked := 1 } with asked := 2 }) =
      some (.ok (some (3, none)) (0, { last := some 3 },
        withdraw { churn { sparse with asked := 1 } with asked := 2 })) :=
    Sought.seek?_eq (.found rfl)
  have fourth : seek? 0 (({ last := some 3 } : Memory.Position Nat),
      withdraw { churn { sparse with asked := 1 } with asked := 2 }) =
      some (.ok none (0, { last := some 3 },
        withdraw { churn { sparse with asked := 1 } with asked := 2 })) :=
    Sought.seek?_eq (.ended rfl)
  simp only [sharedSteps, List.map, PassStep.lift, run?, call?, nextItem?, next?, hasNext?, first,
    second, third, fourth, beside, Option.map_some, Option.bind_some, settle, handOut,
    Result.map_ok, Result.world_ok]
  exact ⟨_, rfl⟩

theorem intact_sharedSteps {change : World Nat Nat → World Nat Nat}
    (h : .elsewhere change ∈ sharedSteps) {w : World Nat Nat} (hw : Intact .always w) :
    Intact .always (change w) := by
  simp only [sharedSteps, List.mem_cons, List.not_mem_nil, PassStep.elsewhere.injEq, reduceCtorEq,
    or_false, false_or] at h
  rcases h with rfl | rfl
  · exact (hw.clear.putAll _).put 3 none
  · exact ⟨(hw.remove 2).policy_eq, (hw.remove 2).not_poisoned⟩

/-- The first key is not handed out again, though others stored it again, the entry that they
withdrew is handed out as it was pulled, and the null is handed out once. -/
theorem shared_pass_churn :
    ∃ film : List (SharedTake Nat Nat (Nat × Option Nat)), eventsIn film = sharedHistory ∧
      SharedPass .always Prod.mk film ∧
      handedIn film = [(1, some 10), (2, some 20), (3, none)] := by
  obtain ⟨s, hs⟩ := run?_sharedSteps
  obtain ⟨film, it, position, w', -, hrun, hpass⟩ :=
    shared_pass (Prod.mk : Nat → Option Nat → Nat × Option Nat)
      (⟨rfl, rfl⟩ : Intact .always sparse) intact_sharedSteps
  rw [hs, Option.some.injEq, Prod.mk.injEq] at hrun
  refine ⟨film, hrun.1.symm, hpass, ?_⟩
  have hitems := hpass.items_eq
  rw [← hrun.1, List.map_id'' fun _ => rfl] at hitems
  rw [← hitems]
  rfl

end LiveEntries

end LazyExpiry
