import Mathlib.Logic.Relation
import LazyExpiry.Proofs.Schedule.Lapse
import LazyExpiry.Proofs.Views.Walk

/-!
# Keys in the sight of an open pass

A call on a pass does one of five things to the entry that the pass keeps and to its cursor, and
only what is live beyond the cursor decides between them (`LiveEntries.Moved`, `moved_call`).
So a key that has lapsed comes into the sight of no pass that is opened afterwards
(`Lapsed.unseen`).

An entry that stays lies ahead of such a pass until some call goes by it. The clock at that call
settles whether the entry is seen, for good : what lies behind a cursor does not come back, and
what is kept is handed out at last (`OpenPass.Ahead.stepped`, `OpenPass.Passed.stepped`,
`OpenPass.Seen.stepped`, `Holds.sees`).
-/

namespace LazyExpiry

variable {κ α ρ : Type}

/-! ## What one call does to a pass -/

namespace LiveEntries

/-- What a call does to the entry that a pass keeps and to its cursor, with the item that it hands
out, if those are the live entries beyond the cursor. -/
inductive Moved (live : List (κ × Option α)) (it : LiveEntries κ α ρ) (position : Memory.Position κ)
    (it' : LiveEntries κ α ρ) (position' : Memory.Position κ) : Option ρ → Prop where
  | idle : it'.lookahead = it.lookahead → position'.last = position.last →
    Moved live it position it' position' none
  | handed {key : κ} {value : Option α} : it.lookahead = .buffered key value →
    it'.lookahead = .fresh → position'.last = position.last →
    Moved live it position it' position' (some (it.project key value))
  | kept {key : κ} {value : Option α} : it.lookahead = .fresh → live.head? = some (key, value) →
    it'.lookahead = .buffered key value → position'.last = some key →
    Moved live it position it' position' none
  | found {key : κ} {value : Option α} : it.lookahead = .fresh → live.head? = some (key, value) →
    it'.lookahead = .fresh → position'.last = some key →
    Moved live it position it' position' (some (it.project key value))
  | ended : it.lookahead = .fresh → live.head? = none → it'.lookahead = .exhausted →
    Moved live it position it' position' none

section Moved

variable {live : List (κ × Option α)} {it it' : LiveEntries κ α ρ}
  {position position' : Memory.Position κ}

/-- The entry that is kept after a look is the one that `nextItem` hands out. -/
theorem Moved.handOut (h : Moved live it position it' position' none) {key : κ} {value : Option α}
    (hkept : it'.lookahead = .buffered key value) {it'' : LiveEntries κ α ρ}
    (hfresh : it''.lookahead = .fresh) :
    Moved live it position it'' position' (some (it.project key value)) := by
  generalize hnone : (none : Option ρ) = item at h
  cases h with
  | idle hl hp => exact .handed (hl.symm.trans hkept) hfresh hp
  | handed => cases hnone
  | kept hl hhead hl' hp =>
    obtain ⟨rfl, rfl⟩ := Lookahead.buffered.inj (hl'.symm.trans hkept)
    exact .found hl hhead hfresh hp
  | found => cases hnone
  | ended hl hhead hl' => cases hl'.symm.trans hkept

variable [Ord κ] {w : World κ α}

/-- The live entries beyond a cursor. -/
def liveBeyond (position : Memory.Position κ) (w : World κ α) : List (κ × Option α) :=
  liveAmong w.policy w.clock.time (w.memory.table.after position.last)

theorem ascending_liveBeyond (position : Memory.Position κ) (w : World κ α) :
    (liveBeyond position w).Pairwise fun a b => compare a.1 b.1 = .lt :=
  ascending_liveAmong _ _ (w.memory.table.ascending_after position.last)

variable [Std.TransOrd κ] (hlock : w.memory.poisoned = false) (hstride : w.clock.stride = 0)

include hlock hstride

theorem moved_hasNext? {r : Result (LiveEntries κ α ρ × Memory.Position κ × World κ α) Bool}
    (h : hasNext? (it, position, w) = some r) :
    (∃ live s, r = .ok live s) ∧ r.world.1.project = it.project ∧
      Moved (liveBeyond position w) it position r.world.1 r.world.2.1 none := by
  rcases hasNext?_cases h with ⟨b, rfl⟩ | ⟨found, hfound, hfresh, rfl⟩
  · exact ⟨⟨_, _, rfl⟩, rfl, .idle rfl rfl⟩
  · obtain ⟨n, position', w', -, hsought, -⟩ :=
      sought_of_after _ it.skipped (Frozen.refl hlock hstride) (rfl : w.memory.table.after
        position.last = _)
    obtain rfl := Option.some.inj (hfound.symm.trans hsought.seek?_eq)
    rcases hhead : (liveAmong w.policy w.clock.time (w.memory.table.after position.last)).head?
      with - | ⟨key, value⟩
    · exact ⟨⟨_, _, rfl⟩, rfl, .ended hfresh hhead rfl⟩
    · rw [hhead] at hsought
      obtain ⟨stored, hstands, -⟩ := hsought.standsAt tracks_position
      exact ⟨⟨_, _, rfl⟩, rfl, .kept hfresh hhead rfl hstands⟩

theorem moved_nextItem? {r : Result (LiveEntries κ α ρ × Memory.Position κ × World κ α) ρ}
    (h : nextItem? (it, position, w) = some r) : r.world.1.project = it.project ∧
      Moved (liveBeyond position w) it position r.world.1 r.world.2.1 r.outcome.toOption := by
  rcases nextItem?_cases h with ⟨s', key, value, hlook, hkept, rfl⟩ | ⟨looked, e, hlook, rfl⟩
  · obtain ⟨-, hproject, hmoved⟩ := moved_hasNext? hlock hstride hlook
    have hitem : s'.1.project key value = it.project key value := by
      rw [← hproject, Result.world_ok]
    refine ⟨hproject, ?_⟩
    simp only [Result.outcome_ok, Except.toOption, hitem]
    exact hmoved.handOut hkept rfl
  · obtain ⟨-, hproject, hmoved⟩ := moved_hasNext? hlock hstride hlook
    exact ⟨hproject, hmoved⟩

/-- Every call on a pass moves it by the live entries beyond its cursor. -/
theorem moved_call (c : PassCall)
    {r : Result (LiveEntries κ α ρ × Memory.Position κ × World κ α) (PassAnswer ρ)}
    (hr : call c (it, position, w) = r) : r.world.1.project = it.project ∧
      Moved (liveBeyond position w) it position r.world.1 r.world.2.1
        (PassEvent.item? ⟨c, r.outcome⟩) := by
  match c with
  | .hasNext =>
    obtain ⟨⟨live, s, hok⟩, hmoved⟩ :=
      moved_hasNext? hlock hstride (hasNext?_eq_some (it, position, w))
    rw [call, hok, Result.map_ok] at hr
    rw [hok] at hmoved
    subst hr
    exact hmoved
  | .nextItem =>
    have hmoved := moved_nextItem? hlock hstride (nextItem?_eq_some (it, position, w))
    rw [call] at hr
    rcases hn : nextItem (it, position, w) with ⟨item, s⟩ | ⟨e, s⟩ <;> rw [hn] at hr hmoved <;>
      subst hr <;> exact hmoved
  | .next =>
    rw [call] at hr
    rcases next?_cases (next?_eq_some (it, position, w)) with
      ⟨handed, hitem, hn⟩ | ⟨s', hlook, hn⟩ | ⟨e, s', hlook, -⟩
    · have hmoved := moved_nextItem? hlock hstride hitem
      rw [hn] at hr
      rcases handed with ⟨item, s⟩ | ⟨e, s⟩ <;> subst hr <;> exact hmoved
    · have hmoved := moved_hasNext? hlock hstride hlook
      rw [hn] at hr
      subst hr
      exact hmoved.2
    · obtain ⟨⟨live, s, hok⟩, -⟩ := moved_hasNext? hlock hstride hlook
      cases hok
  | .removeCurrent =>
    subst hr
    have hposition := tracks_position.removeCurrent (position, w)
    rw [call, removeCurrent_eq]
    split
    · rcases hrem : Cursor.removeCurrent (position, w) with ⟨_, w'⟩ | ⟨e, w'⟩ <;>
        rw [hrem] at hposition <;> exact ⟨rfl, .idle rfl hposition⟩
    · exact ⟨rfl, .idle rfl rfl⟩
  | .skipped =>
    subst hr
    exact ⟨rfl, .idle rfl rfl⟩

end Moved

end LiveEntries

/-! ## A key and an open pass -/

namespace OpenPass

/-- The items of a pass come with their keys. -/
def Keyed (p : OpenPass κ α ρ) : Prop := ∀ key value, (p.pass.project key value).1 = key

/-- A pass neither keeps an entry under that key nor has handed one out. -/
structure Unseen (key : κ) (p : OpenPass κ α ρ) : Prop where
  kept : ∀ value, p.pass.lookahead ≠ .buffered key value
  handed : ∀ event ∈ p.past, ∀ item, event.item? = some item → item.1 ≠ key

/-- A pass keeps that entry or has handed it out. -/
def Seen (key : κ) (value : Option α) (p : OpenPass κ α ρ) : Prop :=
  p.pass.lookahead = .buffered key value ∨
    ∃ event ∈ p.past, event.item? = some (p.pass.project key value)

/-- A pass has gone by a key. -/
def Passed [Ord κ] (key : κ) (p : OpenPass κ α ρ) : Prop :=
  p.pass.lookahead = .exhausted ∨ Table.beyond p.position.last key = false

/-- A pass has yet to come to a key, and is not at its end. -/
structure Ahead [Ord κ] (key : κ) (p : OpenPass κ α ρ) : Prop extends Unseen key p where
  beyond : Table.beyond p.position.last key = true
  not_exhausted : p.pass.lookahead ≠ .exhausted

/-- The second pass is the first after a call, if those are the live entries beyond its cursor. -/
structure Stepped (live : List (κ × Option α)) (p p' : OpenPass κ α ρ) : Prop where
  project_eq : p'.pass.project = p.pass.project
  moved : ∃ event, p'.past = p.past ++ [event] ∧
    LiveEntries.Moved live p.pass p.position p'.pass p'.position event.item?

variable {live : List (κ × Option α)} {p p' : OpenPass κ α ρ} {key : κ} {value : Option α}

theorem Keyed.stepped (h : p.Keyed) (hs : Stepped live p p') : p'.Keyed := by
  rw [Keyed, hs.project_eq]
  exact h

theorem unseen_snoc {event : PassEvent (κ × ρ)} (h : p.Unseen key)
    (hpast : p'.past = p.past ++ [event]) (hkept : ∀ value, p'.pass.lookahead ≠ .buffered key value)
    (hitem : ∀ item, event.item? = some item → item.1 ≠ key) : p'.Unseen key := by
  refine ⟨hkept, fun e he => ?_⟩
  rw [hpast] at he
  rcases List.mem_append.mp he with he | he
  · exact h.handed e he
  · rw [List.mem_singleton.mp he]
    exact hitem

/-- A key is not seen unless a search comes to it. -/
theorem Unseen.stepped (h : p.Unseen key) (hkeyed : p.Keyed) (hs : Stepped live p p')
    (hlive : ∀ value, p.pass.lookahead = .fresh → live.head? = some (key, value) →
      p'.position.last ≠ some key) : p'.Unseen key := by
  obtain ⟨event, hpast, hmoved⟩ := hs.moved
  generalize hi : event.item? = item at hmoved
  cases hmoved with
  | idle hl _ => exact unseen_snoc h hpast (hl ▸ h.kept) (by simp [hi])
  | @handed k u hl hl' _ =>
    refine unseen_snoc h hpast (by simp [hl']) fun item hitem => ?_
    obtain rfl := Option.some.inj (hi.symm.trans hitem)
    rw [hkeyed]
    rintro rfl
    exact h.kept u hl
  | @kept k u hl hhead hl' hp =>
    refine unseen_snoc h hpast (fun value hvalue => ?_) (by simp [hi])
    obtain ⟨rfl, rfl⟩ := Lookahead.buffered.inj (hl'.symm.trans hvalue)
    exact hlive _ hl hhead hp
  | @found k u hl hhead hl' hp =>
    refine unseen_snoc h hpast (by simp [hl']) fun item hitem => ?_
    obtain rfl := Option.some.inj (hi.symm.trans hitem)
    rw [hkeyed]
    rintro rfl
    exact hlive u hl hhead hp
  | ended _ _ hl' => exact unseen_snoc h hpast (by simp [hl']) (by simp [hi])

/-- What was seen stays seen : an entry that is kept is handed out at last. -/
theorem Seen.stepped (h : p.Seen key value) (hs : Stepped live p p') : p'.Seen key value := by
  obtain ⟨event, hpast, hmoved⟩ := hs.moved
  rw [Seen, hs.project_eq, hpast]
  rcases h with hkept | ⟨e, he, hitem⟩
  · generalize hi : event.item? = item at hmoved
    cases hmoved with
    | idle hl _ => exact .inl (hl.trans hkept)
    | handed hl _ _ =>
      obtain ⟨rfl, rfl⟩ := Lookahead.buffered.inj (hl.symm.trans hkept)
      exact .inr ⟨event, by simp, hi⟩
    | kept hl _ _ _ | found hl _ _ _ | ended hl _ _ => cases hl.symm.trans hkept
  · exact .inr ⟨e, List.mem_append_left _ he, hitem⟩

end OpenPass

/-! ## Calls on a pass in a store -/

section Store

variable [Ord κ] {w : World κ α} {p p' : OpenPass κ α ρ} {key : κ}
  {lifetime : Lifetime}

theorem mem_liveBeyond {position : Memory.Position κ} {value : Option α} :
    (key, value) ∈ LiveEntries.liveBeyond position w ↔ ∃ stored,
      (key, stored) ∈ w.memory.table.entries ∧ Table.beyond position.last key = true ∧
        check w.policy (some stored) w.clock.time = some value := by
  rw [LiveEntries.liveBeyond, mem_liveAmong]
  simp only [Table.mem_after, and_assoc]

/-- Nothing that lies behind a cursor comes into its sight again. -/
theorem OpenPass.Passed.stepped [Std.TransOrd κ] (h : p.Passed key)
    (hs : OpenPass.Stepped (LiveEntries.liveBeyond p.position w) p p') :
    p'.Passed key ∧ (p.Keyed → p.Unseen key → p'.Unseen key) := by
  have behind : ∀ {k value}, p.pass.lookahead = .fresh →
      (LiveEntries.liveBeyond p.position w).head? = some (k, value) →
        Table.beyond p.position.last key = false ∧ Table.beyond p.position.last k = true := by
    intro k value hfresh hhead
    obtain ⟨-, -, hbeyond, -⟩ := mem_liveBeyond.mp (List.mem_of_mem_head? hhead)
    refine ⟨h.resolve_left fun hl => ?_, hbeyond⟩
    cases hl.symm.trans hfresh
  have past : ∀ {k value}, p.pass.lookahead = .fresh →
      (LiveEntries.liveBeyond p.position w).head? = some (k, value) →
        p'.position.last = some k → p'.Passed key := by
    intro k value hfresh hhead hposition
    obtain ⟨hkey, hk⟩ := behind hfresh hhead
    refine .inr (Bool.eq_false_iff.mpr fun hbeyond => ?_)
    rw [hposition, Table.beyond_some, beq_iff_eq] at hbeyond
    rw [Table.beyond_trans hk hbeyond] at hkey
    cases hkey
  refine ⟨?_, fun hkeyed hunseen => ?_⟩
  · obtain ⟨event, -, hmoved⟩ := hs.moved
    generalize event.item? = item at hmoved
    cases hmoved with
    | idle hl hp =>
      rw [Passed, hl, hp]
      exact h
    | handed hl _ hp =>
      refine .inr (hp ▸ h.resolve_left fun hl' => ?_)
      cases hl'.symm.trans hl
    | kept hl hhead _ hp | found hl hhead _ hp => exact past hl hhead hp
    | ended _ _ hl' => exact .inl hl'
  · refine hunseen.stepped hkeyed hs fun value hfresh hhead => ?_
    obtain ⟨hkey, hk⟩ := behind hfresh hhead
    rw [hk] at hkey
    cases hkey

variable [Std.LawfulEqOrd κ]

/-- Nothing that is live is stored under a key that has lapsed. -/
theorem Lapsed.not_mem_live {since : Timestamp} (h : Lapsed lifetime key since w)
    (position : Memory.Position κ) (value : Option α) :
    (key, value) ∉ LiveEntries.liveBeyond position w := by
  intro hmem
  obtain ⟨stored, hstored, -, hcheck⟩ := mem_liveBeyond.mp hmem
  have hnone := h.check_eq _ h.since_le
  rw [Table.get?_eq_some_iff.mpr hstored, ← h.policy_eq, hcheck] at hnone
  cases hnone

/-- An entry that stays is live before its limit and not from then on. -/
theorem Holds.mem_liveBeyond_iff {v : α} {writtenAt : Timestamp}
    (h : Holds lifetime key ⟨some v, writtenAt⟩ w) {position : Memory.Position κ}
    (hbeyond : Table.beyond position.last key = true) {value : Option α} :
    (key, value) ∈ LiveEntries.liveBeyond position w ↔
      w.clock.time < lifetime.expiresAt writtenAt ∧ some v = value := by
  have hcheck := check_lifetime_value lifetime v writtenAt w.clock.time
  rw [mem_liveBeyond, h.policy_eq]
  constructor
  · rintro ⟨stored, hstored, -, hsome⟩
    rw [← Table.get?_eq_some_iff, h.get?_eq, Option.some.injEq] at hstored
    rw [← hstored, hcheck] at hsome
    split at hsome
    · exact ⟨‹_›, Option.some.inj hsome⟩
    · cases hsome
  · rintro ⟨hlt, rfl⟩
    exact ⟨_, Table.get?_eq_some_iff.mp h.get?_eq, hbeyond, hcheck.trans (if_pos hlt)⟩

/-- A search in sight of an entry stops short of it, or goes by it and finds it if it is live. -/
theorem Holds.head_cases [Std.TransOrd κ] {v : α} {writtenAt : Timestamp}
    (h : Holds lifetime key ⟨some v, writtenAt⟩ w) {position : Memory.Position κ}
    (hbeyond : Table.beyond position.last key = true) :
    let head := (LiveEntries.liveBeyond position w).head?
    (∃ k value, head = some (k, value) ∧ Table.beyond (some k) key = true ∧ k ≠ key) ∨
      (∀ k value, head = some (k, value) → Table.beyond (some k) key = false) ∧
        if w.clock.time < lifetime.expiresAt writtenAt then head = some (key, some v)
        else ∀ value, head ≠ some (key, value) := by
  intro head
  have hlive : w.clock.time < lifetime.expiresAt writtenAt →
      (key, some v) ∈ LiveEntries.liveBeyond position w := fun hlt =>
    (h.mem_liveBeyond_iff hbeyond).mpr ⟨hlt, rfl⟩
  rcases hhead : head with - | ⟨k, u⟩
  · have hover : ¬w.clock.time < lifetime.expiresAt writtenAt := fun hlt => by
      have hmem := hlive hlt
      rw [List.head?_eq_none_iff.mp hhead] at hmem
      cases hmem
    refine .inr ⟨by simp, ?_⟩
    rw [if_neg hover]
    simp
  · obtain ⟨rest, hcons⟩ := List.head?_eq_some_iff.mp hhead
    by_cases hk : k = key
    · subst hk
      obtain ⟨hlt, rfl⟩ := (h.mem_liveBeyond_iff hbeyond).mp (hcons ▸ List.mem_cons_self)
      refine .inr ⟨fun k' value hsome => ?_, ?_⟩
      · cases hsome
        exact Table.beyond_self _
      · rw [if_pos hlt]
    by_cases hahead : Table.beyond (some k) key = true
    · exact .inl ⟨k, u, rfl, hahead, hk⟩
    · have hover : ¬w.clock.time < lifetime.expiresAt writtenAt := fun hlt => by
        have hmem := hlive hlt
        have hasc := LiveEntries.ascending_liveBeyond position w
        rw [hcons] at hmem hasc
        rcases List.mem_cons.mp hmem with heq | hmem
        · exact hk (congrArg Prod.fst heq).symm
        · exact hahead (beq_iff_eq.mpr ((List.pairwise_cons.mp hasc).1 _ hmem))
      refine .inr ⟨fun k' value hsome => ?_, ?_⟩
      · cases hsome
        exact Bool.eq_false_iff.mpr hahead
      · rw [if_neg hover]
        intro value hsome
        cases hsome
        exact hk rfl

/-- A call on a pass leaves a key ahead, or goes by it. It is seen then if the entry is live by
the clock at that time, and else it is not. -/
theorem OpenPass.Ahead.stepped [Std.TransOrd κ] {v : α} {writtenAt : Timestamp} (h : p.Ahead key)
    (hkeyed : p.Keyed) (hw : Holds lifetime key ⟨some v, writtenAt⟩ w)
    (hs : OpenPass.Stepped (LiveEntries.liveBeyond p.position w) p p') :
    p'.Ahead key ∨ p'.Passed key ∧
      if w.clock.time < lifetime.expiresAt writtenAt then p'.Seen key (some v)
      else p'.Unseen key := by
  have hne : p.position.last ≠ some key := fun heq => by
    have hbeyond := h.beyond
    rw [heq, Table.beyond_self] at hbeyond
    cases hbeyond
  have hunseen := h.toUnseen.stepped hkeyed hs
  have hhead := hw.head_cases h.beyond
  obtain ⟨event, hpast, hmoved⟩ := hs.moved
  -- a search that finds an entry, which is kept or handed out at once
  have searched : ∀ {k u}, (LiveEntries.liveBeyond p.position w).head? = some (k, u) →
      p'.position.last = some k → p'.pass.lookahead ≠ .exhausted → p'.Seen k u →
        p'.Ahead key ∨ p'.Passed key ∧
          if w.clock.time < lifetime.expiresAt writtenAt then p'.Seen key (some v)
          else p'.Unseen key := by
    intro k u hfound hp hmore hseen
    rcases hhead with ⟨k', u', hhead, hbeyond, hk⟩ | ⟨hpassed, hjudged⟩
    · obtain ⟨rfl, rfl⟩ := Prod.mk.inj (Option.some.inj (hfound.symm.trans hhead))
      refine .inl ⟨hunseen fun value _ _ heq => ?_, hp ▸ hbeyond, hmore⟩
      exact hk (Option.some.inj (hp.symm.trans heq))
    · refine .inr ⟨.inr (hp ▸ hpassed k u hfound), ?_⟩
      split at hjudged
      · rw [if_pos ‹_›]
        obtain ⟨rfl, rfl⟩ := Prod.mk.inj (Option.some.inj (hfound.symm.trans hjudged))
        exact hseen
      · rw [if_neg ‹_›]
        exact hunseen fun value _ heq => absurd heq (hjudged value)
  generalize hi : event.item? = item at hmoved
  cases hmoved with
  | idle hl hp =>
    exact .inl ⟨hunseen fun _ _ _ => hp ▸ hne, hp ▸ h.beyond, hl ▸ h.not_exhausted⟩
  | handed hl hl' hp =>
    exact .inl ⟨hunseen fun _ _ _ => hp ▸ hne, hp ▸ h.beyond, by simp [hl']⟩
  | kept _ hfound hl' hp => exact searched hfound hp (by simp [hl']) (.inl hl')
  | found _ hfound hl' hp =>
    refine searched hfound hp (by simp [hl']) (.inr ⟨event, by simp [hpast], ?_⟩)
    rw [hs.project_eq]
    exact hi
  | ended _ hnone hl' =>
    rcases hhead with ⟨k, u, hfound, -⟩ | ⟨-, hjudged⟩
    · cases hnone.symm.trans hfound
    · refine .inr ⟨.inl hl', ?_⟩
      split at hjudged
      · cases hnone.symm.trans hjudged
      · rw [if_neg ‹_›]
        exact hunseen fun value _ heq => absurd heq (hjudged value)

end Store

/-! ## Passes in a schedule -/

section Schedule

variable [Ord κ] [Std.TransOrd κ] {lifetime : Lifetime} {key : κ} {a b c : Journaled κ α ρ}

/-- The pass that is open under a handle. -/
abbrev Journaled.pass? (a : Journaled κ α ρ) (handle : Nat) : Option (OpenPass κ α ρ) :=
  a.system.scene.passes handle

/-- Opens a pass under a handle. -/
def Journaled.opened (a : Journaled κ α ρ) (handle : Nat) (project : κ → Option α → ρ) :
    Journaled κ α ρ :=
  (Deed.move (.act (.openPass handle project))).perform a

/-- A call on a pass moves it by the live entries that the store holds then. -/
theorem Timed.stepped (h : Timed lifetime b.world) (handle : Nat) (c : PassCall)
    {p : OpenPass κ α ρ} (hp : b.pass? handle = some p) : ∃ p',
      ((Deed.move (.act (.onPass handle c))).perform b).pass? handle = some p' ∧
        OpenPass.Stepped (LiveEntries.liveBeyond p.position b.world) p p' := by
  obtain ⟨r, hr⟩ : ∃ r, LiveEntries.call c (p.pass, p.position, b.world) = r := ⟨_, rfl⟩
  obtain ⟨hproject, hmoved⟩ := LiveEntries.moved_call h.not_poisoned h.stride_eq c hr
  refine ⟨{ pass := r.world.1, position := r.world.2.1, past := p.past ++ [⟨c, r.outcome⟩] }, ?_,
    hproject, _, rfl, hmoved⟩
  subst hr
  simp only [Journaled.pass?, Deed.perform, Deed.change, Move.make, Act.perform, hp, Scene.onPass,
    Function.update_self]

/-- A deed leaves the pass under a handle alone, unless it opens one there or calls it. -/
theorem Deed.pass?_cases (d : Deed κ α ρ) (b : Journaled κ α ρ) (handle : Nat) :
    (d.perform b).pass? handle = b.pass? handle ∨
      (∃ project, d = .move (.act (.openPass handle project))) ∨
      ∃ c p, d = .move (.act (.onPass handle c)) ∧ b.pass? handle = some p := by
  match d with
  | .move (.act (.openPass other project)) =>
    by_cases ho : handle = other
    · exact .inr (.inl ⟨project, by rw [ho]⟩)
    · exact .inl (Function.update_of_ne ho _ _)
  | .move (.act (.onPass other c)) =>
    rcases hp : b.pass? other with - | p
    · refine .inl ?_
      simp only [Journaled.pass?, Deed.perform, Deed.change, Move.make, Act.perform, hp]
    · by_cases ho : handle = other
      · exact .inr (.inr ⟨c, p, by rw [ho], ho ▸ hp⟩)
      · refine .inl ?_
        simp only [Journaled.pass?, Deed.perform, Deed.change, Move.make, Act.perform, hp,
          Scene.onPass, Function.update_of_ne ho]
  | .move (.act (.direct _)) => exact .inl (congrFun (Scene.passes_follow _ _ _) handle)
  | .move (.complete ticket) =>
    refine .inl ?_
    rcases hp : b.system.pending ticket with - | p
    · simp only [Journaled.pass?, Deed.perform, Deed.change, Move.make, hp]
    · simp only [Journaled.pass?, Deed.perform, Deed.change, Move.make, hp, Scene.passes_follow]
  | .requestPage source =>
    refine .inl ?_
    simp only [Journaled.pass?, Deed.perform, Deed.change, PageSource.nextPage,
      Result.world_mapWorld]
    rfl
  | .move (.act (.setClock _)) | .move (.act (.advanceClock _)) | .move (.call _ _) |
    .move (.drop _) | .readClock | .judge _ _ | .note _ | .callPaged _ | .openPaged _ _ | .size |
    .stats => exact .inl rfl

/-- A pass that was opened is a fresh one. -/
theorem Journaled.pass?_opened (a : Journaled κ α ρ) (key : κ) (handle : Nat)
    (project : κ → Option α → ρ) : ∃ p, (a.opened handle project).pass? handle = some p ∧
      p.Keyed ∧ p.Ahead key ∧ p.pass.project = fun k value => (k, project k value) :=
  ⟨_, Function.update_self _ _ _, fun _ _ => rfl, ⟨⟨nofun, nofun⟩, rfl, nofun⟩, rfl⟩

/-- Leaves what is stored under a key, and opens no other pass under that handle. -/
def Deed.Attends (key : κ) (handle : Nat) (d : Deed κ α ρ) (st : System κ α ρ) : Prop :=
  d.Spares key st ∧ ∀ project, d ≠ .move (.act (.openPass handle project))

theorem Deed.attends_of_ofPass {d : Deed κ α ρ} (h : d.ofPass = true) (key : κ) (handle : Nat)
    (st : System κ α ρ) : d.Attends key handle st := by
  refine ⟨(spares_of_ofPass h key st).2, fun project => ?_⟩
  rintro rfl
  cases h

/-- Whatever is reached is reached deed by deed. -/
theorem Journaled.Reaches.deedwise {ok : Deed κ α ρ → System κ α ρ → Prop}
    (hpass : ∀ d st, d.ofPass = true → ok d st) (h : Reaches ok a b) :
    Relation.ReflTransGen (fun x y => ∃ d, ok d x.system ∧ y = d.perform x) a b :=
  h.held hpass (fun d _ hok hab => hab.tail ⟨d, hok, rfl⟩) .refl

theorem Journaled.reaches_of_deedwise {ok : Deed κ α ρ → System κ α ρ → Prop}
    (h : Relation.ReflTransGen (fun x y => ∃ d, ok d x.system ∧ y = d.perform x) a b) :
    Reaches ok a b := by
  induction h with
  | refl => exact .here a
  | tail _ hstep ih =>
    obtain ⟨d, hok, rfl⟩ := hstep
    exact ih.deed d hok

variable [Std.LawfulEqOrd κ] [DecidableEq κ]

/-- No pass that is opened once a key has lapsed comes to see the key. -/
theorem Lapsed.unseen {since : Timestamp} (h : Lapsed lifetime key since b.world)
    (hsound : b.system.Sound) (handle : Nat) (project : κ → Option α → ρ)
    (hc : Journaled.Reaches (Deed.Onward key) (b.opened handle project) c) :
    ∀ p, c.pass? handle = some p → p.Unseen key := by
  have hopen : (Deed.move (.act (.openPass handle project)) : Deed κ α ρ).Onward key b.system :=
    ⟨trivial, nofun⟩
  have hall := hc.held (P := fun c => c.system.Sound ∧ Lapsed lifetime key since c.world ∧
    ∀ p, c.pass? handle = some p → p.Keyed ∧ p.Unseen key)
    (fun d st hd => (Deed.spares_of_ofPass hd key st).1) ?_ ?_
  · exact fun p hp => (hall.2.2 p hp).2
  · rintro d c hd ⟨hsound, hlapsed, hunseen⟩
    refine ⟨(hsound.change d).2, hlapsed.perform hsound hd, fun p' hp' => ?_⟩
    rcases d.pass?_cases c handle with hsame | ⟨project', rfl⟩ | ⟨call, p, rfl, hp⟩
    · exact hunseen p' (hsame ▸ hp')
    · obtain ⟨p, hp, hkeyed, hahead, -⟩ := c.pass?_opened key handle project'
      obtain rfl := Option.some.inj (hp.symm.trans hp')
      exact ⟨hkeyed, hahead.toUnseen⟩
    · obtain ⟨q, hq, hstepped⟩ := hlapsed.toTimed.stepped handle call hp
      obtain rfl := Option.some.inj (hq.symm.trans hp')
      obtain ⟨hkeyed, hnot⟩ := hunseen p hp
      refine ⟨hkeyed.stepped hstepped, hnot.stepped hkeyed hstepped fun value _ hhead => ?_⟩
      exact absurd (List.mem_of_mem_head? hhead) (hlapsed.not_mem_live p.position value)
  · obtain ⟨p, hp, hkeyed, hahead, -⟩ := b.pass?_opened key handle project
    have hafter := (hsound.change (.move (.act (.openPass handle project)))).2
    refine ⟨hafter, h.perform hsound hopen, fun p' hp' => ?_⟩
    obtain rfl := Option.some.inj (hp.symm.trans hp')
    exact ⟨hkeyed, hahead.toUnseen⟩

/-- The pass under the handle has yet to come to the key. Or it went by at some call, and has seen
that entry if the clock was below the limit then, and not if it was not. -/
def Journaled.Sees (key : κ) (value : Option α) (limit : Timestamp) (handle : Nat)
    (project : κ → Option α → ρ) (start c : Journaled κ α ρ) : Prop :=
  ∃ p, c.pass? handle = some p ∧ (p.pass.project = fun k value => (k, project k value)) ∧
    (p.Ahead key ∨ ∃ met call p', Reaches (Deed.Attends key handle) start met ∧
      met.pass? handle = some p' ∧ p'.Ahead key ∧
      Reaches (Deed.Attends key handle) ((Deed.move (.act (.onPass handle call))).perform met) c ∧
      p.Passed key ∧
      if met.world.clock.time < limit then p.Seen key value else p.Unseen key)

/-- A pass that is opened while an entry is stored sees it if it comes to it in time. -/
theorem Holds.sees {v : α} {writtenAt : Timestamp}
    (h : Holds lifetime key ⟨some v, writtenAt⟩ b.world) (hsound : b.system.Sound) (handle : Nat)
    (project : κ → Option α → ρ)
    (hc : Journaled.Reaches (Deed.Attends key handle) (b.opened handle project) c) :
    Journaled.Sees key (some v) (lifetime.expiresAt writtenAt) handle project
      (b.opened handle project) c := by
  have hopen : (Deed.move (.act (.openPass handle project)) : Deed κ α ρ).Spares key b.system :=
    nofun
  have hafter := (hsound.change (.move (.act (.openPass handle project)))).2
  have hsteps := hc.deedwise fun d st hd => Deed.attends_of_ofPass hd key handle st
  suffices hall : c.system.Sound ∧ Holds lifetime key ⟨some v, writtenAt⟩ c.world ∧
      Journaled.Sees key (some v) (lifetime.expiresAt writtenAt) handle project
        (b.opened handle project) c from hall.2.2
  clear hc
  induction hsteps with
  | refl =>
    obtain ⟨p, hp, -, hahead, hproject⟩ := b.pass?_opened key handle project
    exact ⟨hafter, h.perform hsound hopen, p, hp, hproject, .inl hahead⟩
  | @tail m c hm hstep ih =>
    obtain ⟨d, hd, rfl⟩ := hstep
    obtain ⟨hsound', hholds, p, hp, hproject, hsees⟩ := ih
    refine ⟨(hsound'.change d).2, hholds.perform hsound' hd.1, ?_⟩
    have hmet := Journaled.reaches_of_deedwise hm
    rcases d.pass?_cases m handle with hsame | ⟨project', rfl⟩ | ⟨call, q, rfl, hq⟩
    · refine ⟨p, hsame.trans hp, hproject, hsees.imp id ?_⟩
      rintro ⟨met, call, p', hto, hp', hahead, hfrom, hjudged⟩
      exact ⟨met, call, p', hto, hp', hahead, hfrom.deed d hd, hjudged⟩
    · exact absurd rfl (hd.2 project')
    · obtain rfl := Option.some.inj (hp.symm.trans hq)
      obtain ⟨p', hp', hstepped⟩ := hholds.toTimed.stepped handle call hp
      have hkeyed : p.Keyed := fun k value => by rw [hproject]
      refine ⟨p', hp', hstepped.project_eq.trans hproject, ?_⟩
      rcases hsees with hahead | ⟨met, call', p'', hto, hp'', hahead, hfrom, hpassed, hjudged⟩
      · refine (hahead.stepped hkeyed hholds hstepped).imp id fun hjudged => ?_
        exact ⟨m, call, p, hmet, hp, hahead, .here _, hjudged⟩
      · obtain ⟨hpassed', hunseen⟩ := hpassed.stepped hstepped
        refine .inr ⟨met, call', p'', hto, hp'', hahead, hfrom.deed _ hd, hpassed', ?_⟩
        split at hjudged
        · rw [if_pos ‹_›]
          exact hjudged.stepped hstepped
        · rw [if_neg ‹_›]
          exact hunseen hkeyed hjudged

end Schedule

end LazyExpiry
