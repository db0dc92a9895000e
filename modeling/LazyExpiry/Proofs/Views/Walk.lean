import Mathlib.Data.List.Basic
import LazyExpiry.Proofs.Point.Reads

/-!
# The live entries, walked through one by one

`World.live` are the live entries of a store in memory by its point reads : the stored keys
in ascending order, each with what `Direct.get` shows under it, if it shows anything. By a
clock that stands still this is the filter `liveAmong` over the entries of the table.

A pass goes by the entries that lie beyond its cursor (`Table.after`). What it still hands
out is the filter over these, by induction on them for one search, and on what is left of
the filter for the whole pass (`collect_eq_live`).
-/

namespace LazyExpiry

variable {κ α ρ : Type}

/-! ## Live ones of stored entries -/

/-- The live ones of some stored entries. -/
def liveAmong (policy : Policy) (now : Timestamp) (entries : List (κ × Stamped α)) :
    List (κ × Option α) :=
  entries.filterMap fun e => (check policy (some e.2) now).map fun value => (e.1, value)

theorem liveAmong_cons_none {policy : Policy} {now : Timestamp} {key : κ} {stored : Stamped α}
    (h : check policy (some stored) now = none) (rest : List (κ × Stamped α)) :
    liveAmong policy now ((key, stored) :: rest) = liveAmong policy now rest :=
  List.filterMap_cons_none (by rw [h]; rfl)

theorem liveAmong_cons_some {policy : Policy} {now : Timestamp} {key : κ} {stored : Stamped α}
    {value : Option α} (h : check policy (some stored) now = some value)
    (rest : List (κ × Stamped α)) :
    liveAmong policy now ((key, stored) :: rest) = (key, value) :: liveAmong policy now rest :=
  List.filterMap_cons_some (by rw [h]; rfl)

theorem mem_liveAmong {policy : Policy} {now : Timestamp} {entries : List (κ × Stamped α)} {key : κ}
    {value : Option α} : (key, value) ∈ liveAmong policy now entries ↔
      ∃ stored, (key, stored) ∈ entries ∧ check policy (some stored) now = some value := by
  simp only [liveAmong, List.mem_filterMap, Option.map_eq_some_iff, Prod.mk.injEq]
  constructor
  · rintro ⟨⟨k, stored⟩, hmem, v, hcheck, rfl, rfl⟩
    exact ⟨stored, hmem, hcheck⟩
  · rintro ⟨stored, hmem, hcheck⟩
    exact ⟨(key, stored), hmem, value, hcheck, rfl, rfl⟩

/-- The live keys are among the stored ones, in the same order. -/
theorem sublist_liveAmong (policy : Policy) (now : Timestamp) (entries : List (κ × Stamped α)) :
    ((liveAmong policy now entries).map Prod.fst).Sublist (entries.map Prod.fst) := by
  induction entries with
  | nil => exact .slnil
  | cons e entries ih =>
    rcases hcheck : check policy (some e.2) now with - | value
    · rw [liveAmong_cons_none hcheck]
      exact ih.cons e.1
    · rw [liveAmong_cons_some hcheck]
      exact ih.cons_cons e.1

/-- The live ones of a front, then those of what is left. -/
theorem liveAmong_take_drop (policy : Policy) (now : Timestamp) (entries : List (κ × Stamped α))
    (n : Nat) : liveAmong policy now (entries.take n) ++ liveAmong policy now (entries.drop n) =
      liveAmong policy now entries := by
  rw [liveAmong, liveAmong, ← List.filterMap_append, List.take_append_drop, liveAmong]

/-! ## Worlds in which time stands still -/

variable [Ord κ]

/-- The second world is the first after reads : the same entries, policy and clock, which
stands still. -/
structure Frozen (w w' : World κ α) : Prop extends SameStore w w' where
  clock_eq : w'.clock = w.clock
  stride_eq : w.clock.stride = 0

variable {w w' : World κ α}

theorem Frozen.refl (hlock : w.memory.poisoned = false) (hstride : w.clock.stride = 0) :
    Frozen w w :=
  ⟨.refl hlock, rfl, hstride⟩

namespace Frozen

theorem note (h : Frozen w w') (event : Event) : Frozen w (Context.note event w') :=
  ⟨⟨h.table_eq, h.policy_eq, h.not_poisoned⟩, h.clock_eq, h.stride_eq⟩

theorem now (h : Frozen w w') : Context.now w' = (w.clock.time, w') := by
  rw [World.now_of_stride (by rw [h.clock_eq, h.stride_eq]), h.clock_eq]

theorem judge (h : Frozen w w') (stored : Stamped α) : ∃ w'',
    LazyExpiry.judge (some stored) w.clock.time w' =
      (check w.policy (some stored) w.clock.time, w'') ∧ Frozen w w'' := by
  obtain ⟨asked, hjudge⟩ := judge_eq_check (some stored) w.clock.time w'
  refine ⟨{ w' with asked }, ?_, ⟨h.table_eq, h.policy_eq, h.not_poisoned⟩, h.clock_eq, h.stride_eq⟩
  rw [hjudge, h.policy_eq]

end Frozen

/-- The second world is the first after looks : the store with its counters, the policy and
the clock are the same. -/
structure Unmoved (w w' : World κ α) : Prop where
  memory_eq : w'.memory = w.memory
  policy_eq : w'.policy = w.policy
  clock_eq : w'.clock = w.clock

theorem Unmoved.refl (w : World κ α) : Unmoved w w := ⟨rfl, rfl, rfl⟩

namespace Unmoved

theorem trans {w'' : World κ α} (h : Unmoved w w') (h' : Unmoved w' w'') : Unmoved w w'' :=
  ⟨h'.memory_eq.trans h.memory_eq, h'.policy_eq.trans h.policy_eq, h'.clock_eq.trans h.clock_eq⟩

theorem frozen (h : Unmoved w w') (hlock : w.memory.poisoned = false)
    (hstride : w.clock.stride = 0) : Frozen w w' where
  table_eq := by rw [h.memory_eq]
  policy_eq := h.policy_eq
  not_poisoned := by rw [h.memory_eq, hlock]
  clock_eq := h.clock_eq
  stride_eq := hstride

theorem note (h : Unmoved w w') (event : Event) : Unmoved w (Context.note event w') :=
  ⟨h.memory_eq, h.policy_eq, h.clock_eq⟩

theorem judge (h : Unmoved w w') (stored : Stamped α) (now : Timestamp) : ∃ w'',
    LazyExpiry.judge (some stored) now w' = (check w.policy (some stored) now, w'') ∧
      Unmoved w w'' := by
  obtain ⟨asked, hjudge⟩ := judge_eq_check (some stored) now w'
  refine ⟨{ w' with asked }, ?_, h.memory_eq, h.policy_eq, h.clock_eq⟩
  rw [hjudge, h.policy_eq]

end Unmoved

/-- Beside another state a judgement is the same. -/
theorem judge_beside {γ : Type} (stored : Option (Stamped α)) (now : Timestamp) (g : γ)
    (w : World κ α) :
    judge stored now (g, w) = ((judge stored now w).1, g, (judge stored now w).2) := by
  rcases stored with - | ⟨- | v, writtenAt⟩ <;> rfl

/-! ## The live entries -/

section Live

variable [Std.TransOrd κ]

/-- The stored keys in ascending order, each with what a read of it shows, if it shows
anything. -/
def World.live (w : World κ α) : List (κ × Option α) :=
  w.memory.table.entries.filterMap fun e =>
    match (Direct.get e.1 w).outcome with
    | .ok (some value) => some (e.1, value)
    | _ => none

theorem World.live_eq [Std.LawfulEqOrd κ] (h : w.memory.poisoned = false) :
    w.live = liveAmong w.policy w.clock.time w.memory.table.entries := by
  refine List.filterMap_congr fun e he => ?_
  have hstored : w.memory.table.get? e.1 = some e.2 := Table.mem_entries_iff.mp he
  obtain ⟨w', hget, -⟩ := Direct.get_eq_check h e.1
  rw [hget, hstored, Result.outcome_ok]
  rcases check w.policy (some e.2) w.clock.time with - | value <;> rfl

omit [Std.TransOrd κ] in
theorem ascending_liveAmong (policy : Policy) (now : Timestamp) {entries : List (κ × Stamped α)}
    (h : Ascending entries) : Ascending (liveAmong policy now entries) := by
  have hkeys : (entries.map Prod.fst).Pairwise (compare · · = .lt) := List.pairwise_map.mpr h
  exact List.pairwise_map.mp (hkeys.sublist (sublist_liveAmong policy now entries))

theorem World.ascending_live [Std.LawfulEqOrd κ] (h : w.memory.poisoned = false) :
    Ascending w.live := by
  rw [World.live_eq h]
  exact ascending_liveAmong _ _ w.memory.table.ascending

/-- A key is contained if it is one of the live entries. -/
theorem World.contains_eq_live [Std.LawfulEqOrd κ] [DecidableEq κ] (h : w.memory.poisoned = false)
    (key : κ) :
    (Direct.contains key w).outcome = .ok (decide (key ∈ w.live.map Prod.fst)) := by
  obtain ⟨w', hcontains, -⟩ := Direct.contains_eq_check h key
  have hmem : key ∈ w.live.map Prod.fst ↔
      (check w.policy (w.memory.table.get? key) w.clock.time).isSome = true := by
    rw [World.live_eq h, List.mem_map, Option.isSome_iff_exists]
    constructor
    · rintro ⟨⟨k, value⟩, hlive, rfl⟩
      obtain ⟨stored, hstored, hcheck⟩ := mem_liveAmong.mp hlive
      exact ⟨value, by rw [Table.get?_eq_some_iff.mpr hstored, hcheck]⟩
    · rintro ⟨value, hcheck⟩
      rcases hget : w.memory.table.get? key with - | stored
      · rw [hget] at hcheck
        cases hcheck
      · rw [hget] at hcheck
        have hlive := mem_liveAmong.mpr ⟨stored, Table.get?_eq_some_iff.mp hget, hcheck⟩
        exact ⟨(key, value), hlive, rfl⟩
  rw [hcontains, Result.outcome_ok, Bool.eq_iff_iff.mpr (hmem.symm.trans decide_eq_true_iff.symm)]

end Live

/-! ## A pass -/

section Walk

variable [Std.TransOrd κ] {position : Memory.Position κ}

theorem advance_of_nil (hlock : w.memory.poisoned = false)
    (hafter : w.memory.table.after position.last = []) :
    Cursor.advance (position, w) = .ok none (position, w) := by
  have hm := Memory.advance_of_nil position hlock hafter
  simp only [Cursor.advance, World.atPosition, Action.focus, hm, Result.mapWorld_ok]

theorem advance_of_cons (hlock : w.memory.poisoned = false) {e : κ × Stamped α}
    {rest : List (κ × Stamped α)} (hafter : w.memory.table.after position.last = e :: rest) :
    Cursor.advance (position, w) =
      .ok (some e) (({ last := some e.1 } : Memory.Position κ), w) := by
  have hm := Memory.advance_of_cons position hlock hafter
  simp only [Cursor.advance, World.atPosition, Action.focus, hm, Result.mapWorld_ok]

theorem pull_of_nil (h : Frozen w w') (hafter : w.memory.table.after position.last = []) :
    pull (position, w') = .ok (.ended : Pull κ α) (position, w') := by
  rw [pull, advance_of_nil h.not_poisoned (h.table_eq ▸ hafter)]

theorem pull_of_cons (h : Frozen w w') {key : κ} {stored : Stamped α}
    {rest : List (κ × Stamped α)}
    (hafter : w.memory.table.after position.last = (key, stored) :: rest) :
    ∃ w'', Frozen w w'' ∧ pull (position, w') =
      .ok (match check w.policy (some stored) w.clock.time with
        | some value => .live key value
        | none => .expired) (({ last := some key } : Memory.Position κ), w'') := by
  obtain ⟨w₁, hjudge, hw₁⟩ := h.judge stored
  have hnow : Context.now (({ last := some key } : Memory.Position κ), w') =
      (w.clock.time, { last := some key }, w') := by
    change ((Context.now w').1, _, (Context.now w').2) = _
    rw [h.now]
  rw [pull, advance_of_cons h.not_poisoned (h.table_eq ▸ hafter)]
  simp only [hnow, judge_beside, hjudge]
  rcases check w.policy (some stored) w.clock.time with - | value
  · exact ⟨_, hw₁.note _, rfl⟩
  · exact ⟨w₁, hw₁, rfl⟩

namespace LiveEntries

/-- A search goes to the next live entry beyond the cursor. -/
theorem sought_of_after : ∀ (entries : List (κ × Stamped α)) {w' : World κ α}
    {position : Memory.Position κ} (skipped : UInt64), Frozen w w' →
      w.memory.table.after position.last = entries →
        ∃ n position' w'', Frozen w w'' ∧
          Sought skipped (position, w') (.ok (liveAmong w.policy w.clock.time entries).head?
            (n, position', w'')) ∧
          liveAmong w.policy w.clock.time (w.memory.table.after position'.last) =
            (liveAmong w.policy w.clock.time entries).tail
  | [], w', position, skipped, h, hafter => by
    refine ⟨skipped, position, w', h, .ended (pull_of_nil h hafter), ?_⟩
    rw [hafter]
    rfl
  | (key, stored) :: rest, w', position, skipped, h, hafter => by
    obtain ⟨w₁, hw₁, hpull⟩ := pull_of_cons h hafter
    have hrest : w.memory.table.after (some key) = rest := Table.after_of_after_eq_cons hafter
    rcases hcheck : check w.policy (some stored) w.clock.time with - | value
    · rw [hcheck] at hpull
      obtain ⟨n, position', w'', hw'', hsought, hleft⟩ :=
        sought_of_after rest (skipped + 1) hw₁ hrest
      rw [liveAmong_cons_none hcheck]
      exact ⟨n, position', w'', hw'', .passed hpull hsought, hleft⟩
    · rw [hcheck] at hpull
      rw [liveAmong_cons_some hcheck]
      exact ⟨skipped, _, w₁, hw₁, .found hpull, by rw [hrest]; rfl⟩

/-- So a pass that keeps no entry looks for it. -/
theorem hasNext?_of_fresh {it : LiveEntries κ α ρ} (position : Memory.Position κ)
    (h : Frozen w w') (hfresh : it.lookahead = .fresh) :
    ∃ n position' w'', Frozen w w'' ∧
      hasNext? (it, position, w') = some (settle { it with removable := false }
        (.ok (liveAmong w.policy w.clock.time (w.memory.table.after position.last)).head?
          (n, position', w''))) ∧
      liveAmong w.policy w.clock.time (w.memory.table.after position'.last) =
        (liveAmong w.policy w.clock.time (w.memory.table.after position.last)).tail := by
  obtain ⟨n, position', w'', hw'', hsought, hleft⟩ := sought_of_after _ it.skipped h rfl
  refine ⟨n, position', w'', hw'', ?_, hleft⟩
  rw [hasNext?_fresh hfresh, hsought.seek?_eq]
  rfl

/-- What a pass that keeps no entry still has before it. -/
structure Before (w : World κ α) (L : List (κ × Option α))
    (s : LiveEntries κ α ρ × Memory.Position κ × World κ α) : Prop where
  frozen : Frozen w s.2.2
  fresh : s.1.lookahead = .fresh
  live_eq : liveAmong w.policy w.clock.time (w.memory.table.after s.2.1.last) = L

theorem Before.next?_cons {s : LiveEntries κ α ρ × Memory.Position κ × World κ α} {key : κ}
    {value : Option α} {L : List (κ × Option α)} (h : Before w ((key, value) :: L) s) :
    ∃ s', next? s = some (.ok (some (s.1.project key value)) s') ∧ Before w L s' ∧
      s'.1.project = s.1.project := by
  obtain ⟨it, position, w'⟩ := s
  obtain ⟨frozen, fresh, live_eq⟩ := h
  obtain ⟨n, position', w'', hw'', hlook, hleft⟩ := hasNext?_of_fresh position frozen fresh
  rw [live_eq] at hlook hleft
  refine ⟨({ it with removable := true, skipped := n, lookahead := .fresh }, position', w''), ?_,
    ⟨hw'', rfl, hleft⟩, rfl⟩
  rw [next?_of_hasNext?_true hlook, nextItem?_of_hasNext? hlook rfl]
  rfl

theorem Before.next?_nil {s : LiveEntries κ α ρ × Memory.Position κ × World κ α}
    (h : Before w [] s) : ∃ s', next? s = some (.ok none s') := by
  obtain ⟨it, position, w'⟩ := s
  obtain ⟨frozen, fresh, live_eq⟩ := h
  obtain ⟨n, position', w'', -, hlook, -⟩ := hasNext?_of_fresh position frozen fresh
  rw [live_eq] at hlook
  exact ⟨_, next?_of_hasNext?_false hlook⟩

/-- A pass hands out what is before it, in order. -/
theorem Before.collect : ∀ {L : List (κ × Option α)}
    {s : LiveEntries κ α ρ × Memory.Position κ × World κ α}, Before w L s →
      ∃ s', LiveEntries.collect s = .ok (L.map fun e => s.1.project e.1 e.2) s'
  | [], _, h => by
    obtain ⟨s', hnext⟩ := h.next?_nil
    exact ⟨s', collect_of_ended hnext⟩
  | (key, value) :: L, s, h => by
    obtain ⟨s₁, hnext, hbefore, hproject⟩ := h.next?_cons
    obtain ⟨s', hcollect⟩ := hbefore.collect
    refine ⟨s', ?_⟩
    rw [collect_of_item hnext, hcollect, Result.map_ok, hproject, List.map_cons]

end LiveEntries

/-- A fresh pass hands out the live entries. -/
theorem Direct.outcome_list [Std.LawfulEqOrd κ] (hlock : w.memory.poisoned = false)
    (hstride : w.clock.stride = 0) (project : κ → Option α → ρ) :
    (list project w).outcome = .ok (w.live.map fun e => project e.1 e.2) := by
  have hbefore : LiveEntries.Before w w.live
      (({ project } : LiveEntries κ α ρ), ({} : Memory.Position κ), w) := by
    refine ⟨.refl hlock hstride, rfl, ?_⟩
    rw [World.live_eq hlock, Table.after_none]
  obtain ⟨s', hcollect⟩ := hbefore.collect
  simp only [list, pass, Store.entries, Result.map_ok, Result.bind_ok, hcollect,
    Result.mapWorld_ok, Result.outcome_ok]

end Walk

end LazyExpiry
