import LazyExpiry.Proofs.Views.Agree
import LazyExpiry.Proofs.Views.Looking

/-!
# Removing on the way

A loop takes the items of a pass one after the other and removes some of them right after it
has taken them (`LiveEntries.sweep?`), either way to take an item being the same loop
(`Taking`). Over a store in memory, by a clock that stands still, such a loop takes every live
entry once, in order, and leaves the store without those that it removed (`sweep_filters`).

The proof is by induction on the live entries that are still ahead. What a removal deletes is
the key at which the cursor stands, and beyond that key the table is what it was
(`Table.after_erase`). So the rest of the loop is one over the smaller store, from the same
place.
-/

namespace LazyExpiry

variable {ω σ κ α γ ρ ν : Type}

/-! ## The loop -/

/-- How a loop takes the items of a pass. -/
inductive Taking where
  /-- By `nextItem`, until that fails for want of an item. -/
  | byItem
  /-- As a sequence, until that ends. -/
  | asSequence

namespace LiveEntries

section Loop

variable [Context ω] [Cursor ω κ (Stamped α)]

/-- The next item that a loop takes, or `none` at the end. -/
def take? (taking : Taking) (s : LiveEntries κ α ρ × ω) :
    Option (Result (LiveEntries κ α ρ × ω) (Option ρ)) :=
  match taking with
  | .byItem => (nextItem? s).map fun
    | .ok item s' => .ok (some item) s'
    | .error .endOfSequence s' => .ok none s'
    | .error e s' => .error e s'
  | .asSequence => next? s

/-- Removes the item that was taken last if `P` holds of it. -/
def removeIf (P : ρ → Bool) (item : ρ) : Action (LiveEntries κ α ρ × ω) Unit := fun s =>
  if P item then removeCurrent s else .ok () s

/-- Takes the items in order, and removes each one of which `P` holds before it takes the
next. Answers the items that were taken, or the first failure to take or to remove one. -/
def sweep? (taking : Taking) (P : ρ → Bool) (s : LiveEntries κ α ρ × ω) :
    Option (Result (LiveEntries κ α ρ × ω) (List ρ)) :=
  take? taking s >>= fun
    | .ok none s' => some (.ok [] s')
    | .ok (some item) s' =>
      match removeIf P item s' with
      | .ok _ s'' => (sweep? (s := s'')) taking P >>= fun rest => some (rest.map (item :: ·))
      | .error e s'' => some (.error e s'')
    | .error e s' => some (.error e s')
partial_fixpoint

end Loop

end LiveEntries

/-- Opens a pass over the entries and sweeps it. -/
def Direct.sweep? [Context σ] [Store σ κ (Stamped α) γ] (taking : Taking)
    (P : κ × Option α → Bool) (w : σ) : Option (Result σ (List (κ × Option α))) :=
  match entries w with
  | .ok opened w => (LiveEntries.sweep? taking P (opened.1, opened.2, w)).map
      (·.mapWorld fun s => s.2.2)
  | .error e w => some (.error e w)

/-! ## Removing keys -/

section Without

variable [Ord κ]

/-- The entries beyond a key stay when that key is erased. -/
theorem Table.after_erase [Std.TransOrd κ] (t : Table κ ν) (k : κ) :
    (t.erase k).after (some k) = t.after (some k) := by
  simp only [after, erase, List.filter_filter]
  refine List.filter_congr fun e _ => ?_
  by_cases hlt : compare k e.1 = .lt
  · have hgt : compare e.1 k = .gt := Std.OrientedCmp.gt_iff_lt.mpr hlt
    simp [hlt, hgt]
  · simp [hlt]

/-- A store after the removal of some keys. -/
def Memory.without : List κ → Memory κ ν → Memory κ ν
  | [], m => m
  | key :: keys, m =>
    without keys
      { m.count fun c => { c with removes := c.removes + 1 } with table := m.table.erase key }

/-- What a removal of some keys leaves : the other entries, with every removal counted. -/
theorem Memory.without_eq [Std.LawfulEqOrd κ] [DecidableEq κ] (keys : List κ) (m : Memory κ ν) :
    (m.without keys).table.entries = m.table.entries.filter (fun e => decide (e.1 ∉ keys)) ∧
      (m.without keys).counters =
        { m.counters with removes := m.counters.removes + UInt64.ofNat keys.length } ∧
      (m.without keys).pageSize = m.pageSize ∧ (m.without keys).poisoned = m.poisoned := by
  induction keys generalizing m with
  | nil => simp [without]
  | cons key keys ih =>
    obtain ⟨hentries, hcounters, hpageSize, hpoisoned⟩ := ih
      { m.count fun c => { c with removes := c.removes + 1 } with table := m.table.erase key }
    refine ⟨?_, ?_, hpageSize, hpoisoned⟩
    · rw [without, hentries, Table.entries_erase, List.filter_filter]
      refine List.filter_congr fun e _ => ?_
      simp [Bool.and_comm]
    · rw [without, hcounters, List.length_cons, UInt64.ofNat_add]
      simp only [count, Counters.mk.injEq, true_and, and_true]
      rw [UInt64.add_assoc, UInt64.add_comm 1]
      rfl

/-- A world after the removal of some keys. -/
def World.without (keys : List κ) (w : World κ α) : World κ α :=
  { w with memory := w.memory.without keys }

/-- Forwarded by a pass whose window is open, a removal takes the key at the cursor away. -/
theorem LiveEntries.removeCurrent_unmoved [Std.TransOrd κ] {w w' : World κ α}
    {it : LiveEntries κ α ρ} (hlock : w.memory.poisoned = false) (h : Unmoved w w')
    (hr : it.removable = true) (key : κ) :
    ∃ w'', removeCurrent (it, ({ last := some key } : Memory.Position κ), w') =
        .ok () ({ it with removable := false }, { last := some key }, w'') ∧
      Unmoved (w.without [key]) w'' := by
  have hlock' : w'.memory.poisoned = false := h.memory_eq ▸ hlock
  refine ⟨{ w' with memory := (Memory.delete key w'.memory).world }, ?_, ?_, h.policy_eq,
    h.clock_eq⟩
  · rw [removeCurrent_of_removable hr, forwardRemoval_position hlock']
  · rw [Memory.delete_of_not_poisoned hlock', h.memory_eq]
    rfl

end Without

/-! ## Taking an item -/

namespace LiveEntries

variable [Ord κ] [Std.TransOrd κ] {w w' : World κ α} {it : LiveEntries κ α ρ}
  {position : Memory.Position κ} {key : κ} {value : Option α} {L : List (κ × Option α)}

section Take

variable (hlock : w.memory.poisoned = false) (hstride : w.clock.stride = 0)

include hlock hstride

/-- Either way to take an item takes the next live entry, and opens the window. -/
theorem take?_of_cons (taking : Taking) (h : Unmoved w w') (hfresh : it.lookahead = .fresh)
    (hlive : liveAmong w.policy w.clock.time (w.memory.table.after position.last) =
      (key, value) :: L) :
    ∃ n w'', take? taking (it, position, w') = some (.ok (some (it.project key value))
        ({ it with removable := true, skipped := n, lookahead := .fresh },
          { last := some key }, w'')) ∧ Unmoved w w'' ∧
      liveAmong w.policy w.clock.time (w.memory.table.after (some key)) = L := by
  obtain ⟨n, w'', hlook, hmoved, hleft⟩ := hasNext?_of_cons hlock hstride position h hfresh hlive
  have hitem := nextItem?_of_hasNext? hlook rfl
  refine ⟨n, w'', ?_, hmoved, hleft⟩
  cases taking with
  | byItem => rw [take?, hitem, Option.map_some]
  | asSequence =>
    rw [take?, next?_of_hasNext?_true hlook, hitem]
    rfl

theorem take?_of_nil (taking : Taking) (h : Unmoved w w') (hfresh : it.lookahead = .fresh)
    (hlive : liveAmong w.policy w.clock.time (w.memory.table.after position.last) = []) :
    ∃ s', take? taking (it, position, w') = some (.ok none s') ∧ Unmoved w s'.2.2 := by
  obtain ⟨s', hlook, hmoved⟩ := hasNext?_of_nil hlock hstride position h hfresh hlive
  refine ⟨s', ?_, hmoved⟩
  cases taking with
  | byItem => rw [take?, nextItem?, hlook, Option.map_some, Option.map_some]
  | asSequence => rw [take?, next?_of_hasNext?_false hlook]

end Take

end LiveEntries

/-! ## Sweeping -/

section Sweeping

variable [Ord κ] [Std.TransOrd κ] {w w' : World κ α} (taking : Taking)

/-- A sweep takes the live entries beyond its cursor, and leaves the store without those of
which `P` holds. -/
theorem LiveEntries.sweep?_of_live (P : ρ → Bool) (L : List (κ × Option α))
    (it : LiveEntries κ α ρ) (position : Memory.Position κ) (hlock : w.memory.poisoned = false)
    (hstride : w.clock.stride = 0) (h : Unmoved w w') (hfresh : it.lookahead = .fresh)
    (hlive : liveAmong w.policy w.clock.time (w.memory.table.after position.last) = L) :
    ∃ s', sweep? taking P (it, position, w') =
        some (.ok (L.map fun e => it.project e.1 e.2) s') ∧
      Unmoved (w.without ((L.filter fun e => P (it.project e.1 e.2)).map Prod.fst)) s'.2.2 := by
  induction L generalizing w w' it position with
  | nil =>
    obtain ⟨s', htake, hmoved⟩ := take?_of_nil hlock hstride taking h hfresh hlive
    exact ⟨s', by rw [sweep?, htake]; rfl, hmoved⟩
  | cons e L ih =>
    obtain ⟨key, value⟩ := e
    obtain ⟨n, w₁, htake, hmoved, hleft⟩ := take?_of_cons hlock hstride taking h hfresh hlive
    by_cases hP : P (it.project key value) = true
    · -- beyond the key that is deleted the smaller store shows what was left
      have hsmaller : liveAmong (w.without [key]).policy (w.without [key]).clock.time
          ((w.without [key]).memory.table.after (some key)) = L := by
        rw [← hleft]
        exact congrArg _ (Table.after_erase w.memory.table key)
      obtain ⟨w₂, hremove, hremoved⟩ := removeCurrent_unmoved hlock hmoved
        (rfl : ({ it with removable := true, skipped := n, lookahead := .fresh } :
          LiveEntries κ α ρ).removable = true) key
      obtain ⟨s', hsweep, hrest⟩ := ih (w := w.without [key])
        { it with removable := false, skipped := n, lookahead := .fresh } { last := some key }
        hlock hstride hremoved rfl hsmaller
      refine ⟨s', ?_, ?_⟩
      · rw [sweep?, htake]
        simp only [Option.bind_eq_bind, Option.bind_some, removeIf, if_pos hP, hremove, hsweep,
          Result.map_ok, List.map_cons]
      · have hfilter : ((key, value) :: L).filter (fun e => P (it.project e.1 e.2)) =
            (key, value) :: L.filter fun e => P (it.project e.1 e.2) := List.filter_cons_of_pos hP
        rw [hfilter]
        exact hrest
    · obtain ⟨s', hsweep, hrest⟩ := ih
        { it with removable := true, skipped := n, lookahead := .fresh } { last := some key } hlock
        hstride hmoved rfl hleft
      refine ⟨s', ?_, ?_⟩
      · rw [sweep?, htake]
        simp only [Option.bind_eq_bind, Option.bind_some, removeIf, if_neg hP, hsweep,
          Result.map_ok, List.map_cons]
      · have hfilter : ((key, value) :: L).filter (fun e => P (it.project e.1 e.2)) =
            L.filter fun e => P (it.project e.1 e.2) := List.filter_cons_of_neg hP
        rw [hfilter]
        exact hrest

/-- Whether a sweep removes an entry : it is live, and `P` holds of it. -/
def isSwept (policy : Policy) (now : Timestamp) (P : κ × Option α → Bool) (e : κ × Stamped α) :
    Bool :=
  (check policy (some e.2) now).any fun value => P (e.1, value)

omit [Ord κ] [Std.TransOrd κ] in
/-- The keys that a sweep removes are those of the live entries of which `P` holds. -/
theorem map_filter_liveAmong (policy : Policy) (now : Timestamp) (P : κ × Option α → Bool)
    (entries : List (κ × Stamped α)) : ((liveAmong policy now entries).filter P).map Prod.fst =
      (entries.filter (isSwept policy now P)).map Prod.fst := by
  induction entries with
  | nil => rfl
  | cons e entries ih =>
    rcases hcheck : check policy (some e.2) now with - | value
    · have hspared : isSwept policy now P e = false := by rw [isSwept, hcheck]; rfl
      rw [liveAmong_cons_none hcheck, List.filter_cons_of_neg (by simp [hspared]), ih]
    · have hswept : isSwept policy now P e = P (e.1, value) := by rw [isSwept, hcheck]; rfl
      rw [liveAmong_cons_some hcheck, List.filter_cons, List.filter_cons, hswept]
      split
      · rw [List.map_cons, List.map_cons, ih]
      · exact ih

omit [Std.TransOrd κ] in
/-- Of the stored entries these are the swept ones, keys being different. -/
theorem mem_map_filter_liveAmong [Std.LawfulEqOrd κ] {policy : Policy} {now : Timestamp}
    {P : κ × Option α → Bool} {t : Table κ (Stamped α)} {e : κ × Stamped α} (he : e ∈ t.entries) :
    e.1 ∈ ((liveAmong policy now t.entries).filter P).map Prod.fst ↔
      isSwept policy now P e = true := by
  rw [map_filter_liveAmong, List.mem_map]
  constructor
  · rintro ⟨d, hd, hkey⟩
    obtain ⟨hd, hswept⟩ := List.mem_filter.mp hd
    have hvalue : d.2 = e.2 := by
      have hget := Table.mem_entries_iff.mp hd
      rw [hkey, Table.mem_entries_iff.mp he] at hget
      exact (Option.some.inj hget).symm
    rwa [Prod.ext hkey hvalue] at hswept
  · exact fun hswept => ⟨e, List.mem_filter.mpr ⟨he, hswept⟩, rfl⟩

/-- What a sweep of a world has left. -/
structure SweptBy (P : κ × Option α → Bool) (w w' : World κ α) : Prop where
  /-- Every entry that was live and of which `P` holds is gone, and every other is as it was. -/
  entries_eq : w'.memory.table.entries =
    w.memory.table.entries.filter fun e => !isSwept w.policy w.clock.time P e
  /-- As many are gone as live entries satisfied `P`. -/
  size_eq : w'.memory.table.size + (w.live.filter P).length = w.memory.table.size
  /-- Each of them counts as a removal, and nothing else does. -/
  counters_eq : w'.memory.counters =
    { w.memory.counters with
      removes := w.memory.counters.removes + UInt64.ofNat (w.live.filter P).length }
  pageSize_eq : w'.memory.pageSize = w.memory.pageSize
  not_poisoned : w'.memory.poisoned = false
  policy_eq : w'.policy = w.policy
  clock_eq : w'.clock = w.clock

/-- The store without the keys of what a sweep removes is the store that it leaves. -/
theorem sweptBy_of_unmoved [Std.LawfulEqOrd κ] {P : κ × Option α → Bool}
    (hlock : w.memory.poisoned = false)
    (h : Unmoved (w.without ((w.live.filter P).map Prod.fst)) w') : SweptBy P w w' := by
  classical
  obtain ⟨hentries, hcounters, hpageSize, hpoisoned⟩ :=
    Memory.without_eq ((w.live.filter P).map Prod.fst) w.memory
  have hmemory : w'.memory = w.memory.without ((w.live.filter P).map Prod.fst) := h.memory_eq
  have hleft : w'.memory.table.entries =
      w.memory.table.entries.filter fun e => !isSwept w.policy w.clock.time P e := by
    rw [hmemory, hentries]
    refine List.filter_congr fun e he => ?_
    have hmem : e.1 ∈ (w.live.filter P).map Prod.fst ↔
        isSwept w.policy w.clock.time P e = true := by
      rw [World.live_eq hlock]
      exact mem_map_filter_liveAmong he
    rcases hswept : isSwept w.policy w.clock.time P e <;> simp [hmem, hswept]
  refine ⟨hleft, ?_, ?_, ?_, ?_, h.policy_eq, h.clock_eq⟩
  · have hlength := congrArg List.length
      (map_filter_liveAmong w.policy w.clock.time P w.memory.table.entries)
    rw [List.length_map, List.length_map, ← World.live_eq hlock] at hlength
    rw [Table.size, Table.size, hleft, hlength, Nat.add_comm]
    exact (List.length_eq_length_filter_add _).symm
  · rw [hmemory, hcounters, List.length_map]
  · rw [hmemory, hpageSize]
  · rw [hmemory, hpoisoned, hlock]

/-- A loop over the entries of a store that removes some of them on the way takes every live
entry once, in order, and removes exactly those of which `P` holds. -/
theorem sweep_filters [Std.LawfulEqOrd κ] (hlock : w.memory.poisoned = false)
    (hstride : w.clock.stride = 0) (taking : Taking) (P : κ × Option α → Bool) :
    Ascending w.live ∧
      (∀ key value, (key, value) ∈ w.live ↔ ∃ stored, w.memory.table.get? key = some stored ∧
        check w.policy (some stored) w.clock.time = some value) ∧
      ∃ w', Direct.sweep? taking P w = some (.ok w.live w') ∧ SweptBy P w w' := by
  refine ⟨?_, fun key value => ?_, ?_⟩
  · exact World.ascending_live hlock
  · rw [World.live_eq hlock, mem_liveAmong]
    simp only [Table.get?_eq_some_iff]
  · have hlive : liveAmong w.policy w.clock.time (w.memory.table.after none) = w.live := by
      rw [Table.after_none, World.live_eq hlock]
    obtain ⟨s', hsweep, hmoved⟩ := LiveEntries.sweep?_of_live taking P w.live
      { project := Prod.mk } {} hlock hstride (.refl w) rfl hlive
    refine ⟨s'.2.2, ?_, sweptBy_of_unmoved hlock hmoved⟩
    simp only [Direct.sweep?, Direct.entries, Direct.pass, Store.entries, Result.map_ok]
    change Option.map _ (LiveEntries.sweep? taking P
      (({ project := Prod.mk } : LiveEntries κ α (κ × Option α)), ({} : Memory.Position κ), w)) = _
    rw [hsweep]
    simp

/-- A null between an expired value and a live one is removed, and both of them stay. -/
theorem sweep_filters_patchy : ∃ w' : World Nat Nat,
    Direct.sweep? .asSequence (fun e => e.2.isNone) World.patchy =
        some (.ok [(2, none), (3, some 30)] w') ∧
      w'.memory.table.entries = [(1, ⟨some 10, 1⟩), (3, ⟨some 30, 2⟩)] ∧
      w'.memory.counters.removes = 1 := by
  obtain ⟨-, -, w', hsweep, hswept⟩ :=
    sweep_filters (w := World.patchy) rfl rfl .asSequence fun e => e.2.isNone
  exact ⟨w', hsweep, hswept.entries_eq, congrArg Counters.removes hswept.counters_eq⟩

end Sweeping

end LazyExpiry
