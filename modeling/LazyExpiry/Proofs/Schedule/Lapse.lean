import LazyExpiry.Proofs.Schedule.Journal
import LazyExpiry.Proofs.Schedule.Linear

/-!
# What deeds leave of one key

Whatever is done to a store, what is stored under a key is written by the lines that write it
and goes by those that drop it (`Line.get?_carry`), and the clock moves when it is told to and
at no other time (`clock_change`). So a key that has lapsed stays lapsed while it is not written
and time does not go back, since a lifetime that is over stays over (`Lapsed.perform`), and an
entry stays as it was written until it is touched (`Holds.perform`). The same holds of all that
is reached by such deeds (`Lapsed.reached`, `Holds.reached`).
-/

namespace LazyExpiry

variable {κ α ρ : Type}

/-! ## Time -/

theorem Clock.time_le_advance (c : Clock) (s : Span) : c.time ≤ (c.advance s).time := by
  have hplus := Timestamp.toNat_plus c.time s.millis
  have hlt := c.time.toNat_lt
  have hsize : UInt64.size = 2 ^ 64 := rfl
  rw [UInt64.le_iff_toNat_le, advance, hplus, hsize]
  omega

/-- What is over at some time is over at any later one. -/
theorem check_lifetime_eq_none_of_le {lifetime : Lifetime} {stored : Option (Stamped α)}
    {now later : Timestamp} (h : check lifetime.isLive stored now = none) (hle : now ≤ later) :
    check lifetime.isLive stored later = none := by
  rcases stored with - | ⟨- | v, writtenAt⟩
  · rfl
  · cases h
  · have hover : ¬now < lifetime.expiresAt writtenAt := by simpa [Lifetime.isLive] using h
    have hlater : ¬later < lifetime.expiresAt writtenAt := fun hlt =>
      hover (UInt64.lt_of_le_of_lt hle hlt)
    simpa [Lifetime.isLive] using hlater

theorem check_lifetime_value (lifetime : Lifetime) (v : α) (writtenAt now : Timestamp) :
    check lifetime.isLive (some ⟨some v, writtenAt⟩) now =
      if now < lifetime.expiresAt writtenAt then some (some v) else none := by
  simp [Lifetime.isLive]

/-! ## One key -/

namespace Line

/-- A line that writes under a key. -/
def Writes (key : κ) : Line κ α → Prop
  | completed _ (.put k _) => k = key
  | completed _ (.putAll batch) => key ∈ batch.map Prod.fst
  | _ => False

/-- A line after which nothing is stored under a key. -/
def Drops (key : κ) : Line κ α → Prop
  | completed _ (.remove k) => k = key
  | completed _ .clear => True
  | removed k => k = key
  | _ => False

variable [Ord κ] [Std.TransOrd κ] [Std.LawfulEqOrd κ] [DecidableEq κ] {key : κ}

/-- A line that does not write a key leaves what is stored there, unless it drops it. -/
theorem get?_carry {line : Line κ α} (h : ¬line.Writes key) (m : Memory κ (Stamped α)) :
    (line.carry m).table.get? key = m.table.get? key ∨
      line.Drops key ∧ (line.carry m).table.get? key = none := by
  have erased : ∀ k : κ, (m.table.erase k).get? key = m.table.get? key ∨
      k = key ∧ (m.table.erase k).get? key = none := by
    intro k
    rw [Table.get?_erase]
    by_cases hk : key = k
    · exact .inr ⟨hk.symm, if_pos hk⟩
    · exact .inl (if_neg hk)
  match line with
  | completed _ (.put k value) =>
    have hk : key ≠ k := fun hk => h hk.symm
    exact .inl ((Table.get?_insert m.table k _ key).trans (if_neg hk))
  | completed calledAt (.putAll batch) =>
    have hbatch : key ∉ (stampAll calledAt batch).map Prod.fst := by
      rw [map_fst_stampAll]
      exact h
    exact .inl (Table.get?_insertAll_of_not_mem hbatch m.table)
  | completed _ (.remove k) => exact erased k
  | removed k => exact erased k
  | completed _ .clear => exact .inr ⟨trivial, rfl⟩
  | completed _ (.get _) | completed _ (.contains _) | completed _ .isEmpty | served 0 |
    served (_ + 1) => exact .inl rfl

end Line

section Lines

variable [Ord κ] [Std.TransOrd κ] [Std.LawfulEqOrd κ] [DecidableEq κ] {key : κ}
  {lines : List (Line κ α)}

theorem get?_carryOut_of_not_writes (h : ∀ line ∈ lines, ¬line.Writes key)
    (m : Memory κ (Stamped α)) : (carryOut lines m).table.get? key = m.table.get? key ∨
      (carryOut lines m).table.get? key = none := by
  refine carryOut_induction (P := fun m' => m'.table.get? key = m.table.get? key ∨
    m'.table.get? key = none) (fun line hline m' hm' => ?_) (.inl rfl)
  rcases Line.get?_carry (h line hline) m' with heq | ⟨-, hnone⟩
  · rwa [heq]
  · exact .inr hnone

theorem get?_carryOut_of_spared (h : ∀ line ∈ lines, ¬line.Writes key ∧ ¬line.Drops key)
    (m : Memory κ (Stamped α)) : (carryOut lines m).table.get? key = m.table.get? key := by
  refine carryOut_induction (P := fun m' => m'.table.get? key = m.table.get? key)
    (fun line hline m' hm' => ?_) rfl
  rcases Line.get?_carry (h line hline).1 m' with heq | ⟨hdrops, -⟩
  · rwa [heq]
  · exact absurd hdrops (h line hline).2

end Lines

/-! ## The clock -/

section Clock

variable [Ord κ]

/-- What a deed makes of a clock. -/
def Deed.clock : Deed κ α ρ → Clock → Clock
  | move m, c => m.clock c
  | _, c => c

/-- A deed that does not turn the clock back. -/
def Deed.Forward (d : Deed κ α ρ) (st : System κ α ρ) : Prop :=
  match d with
  | move (.act (.setClock time)) => st.scene.world.clock.time ≤ time
  | _ => True

theorem Deed.stride_clock (d : Deed κ α ρ) (c : Clock) : (d.clock c).stride = c.stride := by
  match d with
  | move (.act a) => exact a.stride_clock c
  | move (.call _ _) | move (.complete _) | move (.drop _) | requestPage _ | readClock |
    judge _ _ | note _ | callPaged _ | openPaged _ _ | size | stats => rfl

theorem Deed.Forward.time_le {d : Deed κ α ρ} {st : System κ α ρ} (h : d.Forward st) :
    st.scene.world.clock.time ≤ (d.clock st.scene.world.clock).time := by
  match d with
  | move (.act (.setClock time)) => exact h
  | move (.act (.advanceClock span)) => exact Clock.time_le_advance _ span
  | move (.act (.direct _)) | move (.act (.openPass _ _)) | move (.act (.onPass _ _)) |
    move (.call _ _) | move (.complete _) | move (.drop _) | requestPage _ | readClock |
    judge _ _ | note _ | callPaged _ | openPaged _ _ | size | stats => exact UInt64.le_refl _

theorem Deed.forward_of_ofPass {d : Deed κ α ρ} (h : d.ofPass = true) (st : System κ α ρ) :
    d.Forward st := by
  match d with
  | requestPage _ | readClock | judge _ _ | note _ => trivial

theorem World.clock_nextPage (source : Memory.Pages κ) (w : World κ α) :
    (World.nextPage (source, w)).world.2.clock = w.clock := by
  unfold World.nextPage World.atPosition Action.focus
  rcases Memory.nextPage (source, w.memory) with ⟨- | page, s⟩ | ⟨e, s⟩ <;> rfl

variable [Std.TransOrd κ]

/-- A clock that stands still is moved by those deeds alone that move it. -/
theorem System.Sound.clock_change {st : System κ α ρ} (h : st.Sound)
    (hstride : st.scene.world.clock.stride = 0) (d : Deed κ α ρ) :
    (d.change st).scene.world.clock = d.clock st.scene.world.clock := by
  match d with
  | .move (.act a) => exact a.clock_perform hstride
  | .move (.call ticket c) => exact congrArg World.clock (c.world_async hstride)
  | .move (.complete ticket) =>
    rcases hp : st.pending ticket with - | p
    · simp only [Deed.change, Move.make, hp]
      rfl
    · obtain ⟨called, hwork, -⟩ := h.pending ticket p hp
      simp only [Deed.change, Move.make, hp, Scene.world_follow, hwork,
        p.call.await_async called hstride]
      exact p.call.clock_completed _ hstride
  | .move (.drop _) | .judge _ _ | .note _ | .callPaged _ | .openPaged _ _ => rfl
  | .requestPage source =>
    simp only [Deed.change, PageSource.nextPage, Result.world_mapWorld]
    exact World.clock_nextPage source _
  | .readClock => exact congrArg (·.2.clock) (World.now_of_stride hstride)
  | .size => exact World.clock_onMemory Memory.size _
  | .stats => exact World.clock_onMemory Memory.stats _

end Clock

/-! ## Lapsed keys and entries that stay -/

section Keys

variable [Ord κ]

/-- Values live for a lifetime, by a clock that stands still, behind a lock that is sound. -/
structure Timed (lifetime : Lifetime) (w : World κ α) : Prop extends
    Intact lifetime.isLive w where
  stride_eq : w.clock.stride = 0

/-- It is past that time, and from that time on nothing under the key is live. -/
structure Lapsed (lifetime : Lifetime) (key : κ) (since : Timestamp) (w : World κ α) : Prop extends
    Timed lifetime w where
  since_le : since ≤ w.clock.time
  check_eq : ∀ now, since ≤ now → check lifetime.isLive (w.memory.table.get? key) now = none

/-- That is stored under the key. -/
structure Holds (lifetime : Lifetime) (key : κ) (stored : Stamped α) (w : World κ α) : Prop extends
    Timed lifetime w where
  get?_eq : w.memory.table.get? key = some stored

variable [Std.TransOrd κ]

/-- A deed that does not write a key, in a time that does not go back. -/
structure Deed.Onward (key : κ) (d : Deed κ α ρ) (st : System κ α ρ) : Prop where
  forward : d.Forward st
  not_writes : ∀ line ∈ d.lines st, ¬line.Writes key

/-- A deed that leaves what is stored under a key. -/
def Deed.Spares (key : κ) (d : Deed κ α ρ) (st : System κ α ρ) : Prop :=
  ∀ line ∈ d.lines st, ¬line.Writes key ∧ ¬line.Drops key

variable {lifetime : Lifetime} {key : κ} {b c : Journaled κ α ρ} {d : Deed κ α ρ}

/-- A paged pass neither writes a key nor drops it, and leaves the clock alone. -/
theorem Deed.spares_of_ofPass (h : d.ofPass = true) (key : κ) (st : System κ α ρ) :
    d.Onward key st ∧ d.Spares key st := by
  have spared : d.Spares key st := by
    match d with
    | requestPage source =>
      intro line hline
      rw [lines] at hline
      rcases hp : (PageSource.nextPage (source, st)).outcome with e | - | page <;>
        rw [hp] at hline
      · cases hline
      · cases hline
      · rw [List.mem_singleton.mp hline]
        exact ⟨id, id⟩
    | readClock | judge _ _ | note _ => exact List.forall_mem_nil _
  exact ⟨⟨forward_of_ofPass h st, fun line hline => (spared line hline).1⟩, spared⟩

theorem Timed.perform (h : Timed lifetime b.world) (hsound : b.system.Sound) (d : Deed κ α ρ) :
    Timed lifetime (d.perform b).world := by
  obtain ⟨hcarried, hafter⟩ := hsound.change d
  refine ⟨⟨hcarried.policy_eq.trans h.policy_eq, hafter.not_poisoned⟩, ?_⟩
  change (d.change b.system).scene.world.clock.stride = 0
  rw [hsound.clock_change h.stride_eq, d.stride_clock, h.stride_eq]

theorem Timed.reached (h : Timed lifetime b.world) (hsound : b.system.Sound)
    (hc : Journaled.Reaches (fun _ _ => True) b c) :
    c.system.Sound ∧ Timed lifetime c.world :=
  hc.held (P := fun c => c.system.Sound ∧ Timed lifetime c.world) (fun _ _ _ => trivial)
    (fun d _ _ hc => ⟨(hc.1.change d).2, hc.2.perform hc.1 d⟩) ⟨hsound, h⟩

variable [Std.LawfulEqOrd κ] [DecidableEq κ]

/-- Expiry is final, while a key is not written and time does not go back. -/
theorem Lapsed.perform {since : Timestamp} (h : Lapsed lifetime key since b.world)
    (hsound : b.system.Sound) (hd : d.Onward key b.system) :
    Lapsed lifetime key since (d.perform b).world := by
  obtain ⟨hcarried, -⟩ := hsound.change d
  refine ⟨h.toTimed.perform hsound d, ?_, fun now hnow => ?_⟩
  · change since ≤ (d.change b.system).scene.world.clock.time
    rw [hsound.clock_change h.stride_eq]
    exact UInt64.le_trans h.since_le hd.forward.time_le
  · have hmemory := congrArg (·.table.get? key) hcarried.memory_eq
    rcases get?_carryOut_of_not_writes hd.not_writes b.world.memory with heq | hnone
    · rw [← h.check_eq now hnow, ← heq, ← hmemory]
      rfl
    · change check _ ((d.change b.system).scene.world.memory.table.get? key) now = none
      rw [hmemory, hnone]
      rfl

/-- An entry stays until it is touched. -/
theorem Holds.perform {stored : Stamped α} (h : Holds lifetime key stored b.world)
    (hsound : b.system.Sound) (hd : d.Spares key b.system) :
    Holds lifetime key stored (d.perform b).world := by
  obtain ⟨hcarried, -⟩ := hsound.change d
  refine ⟨h.toTimed.perform hsound d, ?_⟩
  have hmemory := congrArg (·.table.get? key) hcarried.memory_eq
  rw [get?_carryOut_of_spared hd, h.get?_eq] at hmemory
  exact hmemory

/-! ### Runs -/

theorem Lapsed.reached {since : Timestamp} (h : Lapsed lifetime key since b.world)
    (hsound : b.system.Sound) (hc : Journaled.Reaches (Deed.Onward key) b c) :
    c.system.Sound ∧ Lapsed lifetime key since c.world :=
  hc.held (P := fun c => c.system.Sound ∧ Lapsed lifetime key since c.world)
    (fun _ st hd => (Deed.spares_of_ofPass hd key st).1)
    (fun d _ hd hc => ⟨(hc.1.change d).2, hc.2.perform hc.1 hd⟩) ⟨hsound, h⟩

theorem Holds.reached {stored : Stamped α} (h : Holds lifetime key stored b.world)
    (hsound : b.system.Sound) (hc : Journaled.Reaches (Deed.Spares key) b c) :
    c.system.Sound ∧ Holds lifetime key stored c.world :=
  hc.held (P := fun c => c.system.Sound ∧ Holds lifetime key stored c.world)
    (fun _ st hd => (Deed.spares_of_ofPass hd key st).2)
    (fun d _ hd hc => ⟨(hc.1.change d).2, hc.2.perform hc.1 hd⟩) ⟨hsound, h⟩

end Keys

/-! ## Point reads -/

section Reads

variable [Ord κ] [Std.TransOrd κ]

/-- Every read of a key shows that, whether it answers at once or is completed now. -/
structure World.Reads (key : κ) (shown : Option (Option α)) (w : World κ α) : Prop where
  get : (Direct.get key w).outcome = .ok shown
  contains : (Direct.contains key w).outcome = .ok shown.isSome
  await_get : ∀ called : World κ α, ((Async.get key called).1.await w).outcome = .ok shown
  await_contains : ∀ called : World κ α,
    ((Async.contains key called).1.await w).outcome = .ok shown.isSome

variable {lifetime : Lifetime} {key : κ} {w : World κ α}

theorem Timed.reads (h : Timed lifetime w) (key : κ) :
    w.Reads key (check lifetime.isLive (w.memory.table.get? key) w.clock.time) := by
  obtain ⟨w₁, hget, -⟩ := Direct.get_eq_check h.not_poisoned key
  obtain ⟨w₂, hcontains, -⟩ := Direct.contains_eq_check h.not_poisoned key
  rw [h.policy_eq] at hget hcontains
  refine ⟨congrArg Result.outcome hget, congrArg Result.outcome hcontains, fun called => ?_,
    fun called => ?_⟩
  · rw [Async.await_get h.not_poisoned, hget, Result.outcome_ok]
  · rw [Async.await_contains h.not_poisoned, hcontains, Result.outcome_ok]

/-- A key has lapsed if a read shows nothing. -/
theorem Timed.lapsed (h : Timed lifetime w) (hget : (Direct.get key w).outcome = .ok none) :
    Lapsed lifetime key w.clock.time w := by
  have hcheck := (h.reads key).get.symm.trans hget
  exact ⟨h, UInt64.le_refl _, fun now hnow =>
    check_lifetime_eq_none_of_le (Except.ok.inj hcheck) hnow⟩

theorem Lapsed.reads {since : Timestamp} (h : Lapsed lifetime key since w) :
    w.Reads key none :=
  h.check_eq _ h.since_le ▸ h.toTimed.reads key

theorem Holds.reads {v : α} {writtenAt : Timestamp} (h : Holds lifetime key ⟨some v, writtenAt⟩ w) :
    w.Reads key (if w.clock.time < lifetime.expiresAt writtenAt then some (some v) else none) := by
  rw [← check_lifetime_value, ← h.get?_eq]
  exact h.toTimed.reads key

end Reads

end LazyExpiry
