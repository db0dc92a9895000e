import LazyExpiry.Watched
import LazyExpiry.Proofs.Pass.Search
import LazyExpiry.Proofs.Point.Transparent
import LazyExpiry.Proofs.Views.Agree
import LazyExpiry.Proofs.Views.Looking

/-!
# Whether there is a live entry

To its readers a store is empty if it has no live entry, and this is found out by a scan. Over
any store the scan is decided by the first answer of a fresh cursor that is no expired entry
(`AnswersFirst`), and the cursor is not advanced beyond it (`Direct.DecidedByScan`).

Over a store in memory, by a clock that stands still, the scan says what the point reads of all
keys say, and what a pass over the entries does. Asked later, the store itself answers, and
counts what has expired. So the two differ on the stores that hold something and nothing but
expired values (`EmptinessAgrees`).
-/

namespace LazyExpiry

variable {σ ω κ α γ : Type}

/-! ## The scan over any store -/

/-- In these turns the cursor answers expired entries, and then this. -/
def AnswersFirst [Context ω] [Cursor ω κ (Stamped α)] (w : ω) (turns : List (Turn κ α))
    (answer : Except StoreError (Option (κ × Option α))) (w' : ω) : Prop :=
  TakesTurns w turns w' ∧ Looked .fresh turns answer

namespace Direct

variable [Context σ] [Store σ κ (Stamped α) γ]

/-- Whether a store is empty is decided by what a fresh cursor of it, at `s`, answers first. -/
structure DecidedByScan (w : σ) (s : γ × σ) : Prop where
  /-- It is not, if that is a live entry. -/
  occupied_iff : (isEmpty? w).map Result.outcome = some (.ok false) ↔
    ∃ turns e s', AnswersFirst s turns (.ok (some e)) s'
  /-- It is, if that is the end. -/
  empty_iff : (isEmpty? w).map Result.outcome = some (.ok true) ↔
    ∃ turns s', AnswersFirst s turns (.ok none) s'
  /-- A failure is passed on. -/
  failed_iff : ∀ e, (isEmpty? w).map Result.outcome = some (.error e) ↔
    ∃ turns s', AnswersFirst s turns (.error e) s'
  /-- The store is asked for the cursor, the cursor for each answer up to that one, and nothing
  else is asked of them. -/
  heard_eq : ∀ (heard : List (Heard κ (Stamped α))) {plain}, isEmpty? w = some plain →
    ∃ r, isEmpty? (⟨w, heard⟩ : Overheard σ κ (Stamped α)) = some r ∧
      r.mapWorld Overheard.world = plain ∧ ∃ turns answer s', AnswersFirst s turns answer s' ∧
        r.outcome = answer.map Option.isNone ∧ r.world.heard = heard ++
          .answered .entries none :: turns.map fun turn => .answered .advance turn.failure?

variable {w w₁ : σ} {cursor : γ}

/-- What is heard of a scan that returns. -/
theorem heard_of_isEmpty? (hopen : Store.entries w = .ok cursor w₁)
    (heard : List (Heard κ (Stamped α))) {plain : Result σ Bool} (h : isEmpty? w = some plain) :
    ∃ r, isEmpty? (⟨w, heard⟩ : Overheard σ κ (Stamped α)) = some r ∧
      r.mapWorld Overheard.world = plain ∧
        ∃ turns answer s', AnswersFirst (cursor, w₁) turns answer s' ∧
          r.outcome = answer.map Option.isNone ∧ r.world.heard = heard ++
            .answered .entries none :: turns.map fun turn => .answered .advance turn.failure? := by
  have hplain := isEmpty?_world (⟨w, heard⟩ : Overheard σ κ (Stamped α))
  rw [h, Option.map_eq_some_iff] at hplain
  obtain ⟨r, hr, hworld⟩ := hplain
  refine ⟨r, hr, hworld, ?_⟩
  cases isEmpty?_scans hr with
  | unopened hentries =>
    rw [hopen] at hentries
    cases hentries
  | scanned hentries htakes hpassed hanswer houtcome hheard =>
    rw [hopen] at hentries
    cases hentries
    exact ⟨_, _, _, ⟨htakes, .sought hpassed hanswer⟩, houtcome, hheard⟩

/-- The answer of a scan is told by what the cursor answers first, if it comes to an answer. -/
theorem isEmpty?_outcome_iff (hopen : Store.entries w = .ok cursor w₁)
    {outcome : Except StoreError Bool} : (isEmpty? w).map Result.outcome = some outcome ↔
      ∃ turns answer s', AnswersFirst (cursor, w₁) turns answer s' ∧
        outcome = answer.map Option.isNone := by
  constructor
  · intro h
    obtain ⟨r, hr, rfl⟩ := Option.map_eq_some_iff.mp h
    obtain ⟨r', -, rfl, turns, answer, s', hfirst, houtcome, -⟩ := heard_of_isEmpty? hopen [] hr
    exact ⟨turns, answer, s', hfirst, (Result.outcome_mapWorld r' _).trans houtcome⟩
  · rintro ⟨turns, answer, s', ⟨htakes, hlooked⟩, rfl⟩
    have hkeys : keys w = .ok ({ project := fun key _ => key }, cursor) w₁ := by
      rw [keys, pass, hopen, Result.map_ok]
    have hfresh : ({ project := fun key _ => key } : LiveEntries κ α κ).lookahead = .fresh := rfl
    obtain ⟨looked, hlook, houtcome⟩ :=
      LiveEntries.hasNext?_of_takesTurns hfresh hlooked htakes
    simp only [isEmpty?, hkeys, hlook, Option.map_some, Option.some.injEq]
    rcases looked with ⟨live, s⟩ | ⟨e, s⟩ <;> rcases answer with e' | - | found <;>
      simp_all [Except.map]

theorem decidedByScan (hopen : Store.entries w = .ok cursor w₁) :
    DecidedByScan w (cursor, w₁) where
  occupied_iff := by
    rw [isEmpty?_outcome_iff hopen]
    constructor
    · rintro ⟨turns, answer, s', hfirst, houtcome⟩
      rcases answer with e | - | e <;> cases houtcome
      exact ⟨turns, e, s', hfirst⟩
    · rintro ⟨turns, e, s', hfirst⟩
      exact ⟨turns, _, s', hfirst, rfl⟩
  empty_iff := by
    rw [isEmpty?_outcome_iff hopen]
    constructor
    · rintro ⟨turns, answer, s', hfirst, houtcome⟩
      rcases answer with e | - | e <;> cases houtcome
      exact ⟨turns, s', hfirst⟩
    · rintro ⟨turns, s', hfirst⟩
      exact ⟨turns, _, s', hfirst, rfl⟩
  failed_iff e := by
    rw [isEmpty?_outcome_iff hopen]
    constructor
    · rintro ⟨turns, answer, s', hfirst, houtcome⟩
      rcases answer with e' | found <;> cases houtcome
      exact ⟨turns, s', hfirst⟩
    · rintro ⟨turns, s', hfirst⟩
      exact ⟨turns, _, s', hfirst, rfl⟩
  heard_eq heard {_} h := heard_of_isEmpty? hopen heard h

end Direct

/-! ## The scan over a store in memory -/

section Memory

variable [Ord κ] [Std.TransOrd κ]

/-- A scan leaves the store in memory as it is. -/
theorem Direct.memory_isEmpty (w : World κ α) : (isEmpty w).world.memory = w.memory :=
  held_isEmpty (P := fun w' => w'.memory = w.memory)
    { advance := fun {s} hs => by
        simp only [Cursor.advance, World.atPosition, Action.focus, Result.world_mapWorld,
          Memory.world_advance]
        exact hs
      now := fun hs => hs
      isLive := fun _ _ hs => hs
      note := fun _ hs => hs } rfl

/-- A value that the policy does not judge live. An explicit null is none. -/
def Outlived (policy : Policy) (now : Timestamp) (stored : Stamped α) : Prop :=
  ∃ v, stored.value = some v ∧ policy stored.writtenAt now = false

theorem check_eq_none_iff {policy : Policy} {now : Timestamp} {stored : Stamped α} :
    check policy (some stored) now = none ↔ Outlived policy now stored := by
  obtain ⟨- | v, writtenAt⟩ := stored
  · simp [Outlived]
  · simp [Outlived]

omit [Ord κ] [Std.TransOrd κ] in
theorem liveAmong_eq_nil_iff {policy : Policy} {now : Timestamp}
    {entries : List (κ × Stamped α)} :
    liveAmong policy now entries = [] ↔ ∀ e ∈ entries, Outlived policy now e.2 := by
  rw [liveAmong, List.filterMap_eq_nil_iff]
  exact forall₂_congr fun e _ => by rw [Option.map_eq_none_iff, check_eq_none_iff]

/-- How a scan agrees with the other reads of a store in memory. -/
structure EmptinessAgrees (w : World κ α) : Prop where
  /-- There is an answer. -/
  answers : ∃ b, (Direct.isEmpty w).outcome = .ok b
  /-- A store is empty if no key has a live value. -/
  empty_iff_contains : (Direct.isEmpty w).outcome = .ok true ↔
    ∀ key, (Direct.contains key w).outcome = .ok false
  /-- A store is empty if a pass over its entries has no item. -/
  empty_iff_entries : (Direct.isEmpty w).outcome = .ok true ↔
    (Direct.drain Direct.entries w).outcome = .ok []
  /-- What the store itself takes for empty is. -/
  empty_of_later : ∀ called, ((Async.isEmpty called).1.await w).outcome = .ok true →
    (Direct.isEmpty w).outcome = .ok true
  /-- The store itself counts what has expired, and is wrong only if there is nothing else. -/
  differ_iff : ∀ called, (Direct.isEmpty w).outcome = .ok true ∧
    ((Async.isEmpty called).1.await w).outcome = .ok false ↔
      w.memory.table.entries ≠ [] ∧
        ∀ e ∈ w.memory.table.entries, Outlived w.policy w.clock.time e.2

variable {w : World κ α} (hlock : w.memory.poisoned = false)

include hlock

theorem Async.outcome_isEmpty (called : World κ α) :
    ((isEmpty called).1.await w).outcome = .ok w.memory.table.entries.isEmpty := by
  have hlook := Memory.observe_of_not_poisoned (x := Table.isEmpty) hlock
  simp only [isEmpty, AsyncStore.isEmpty, World.later, Deferred.await, World.onMemory,
    Action.focus, Memory.isEmpty, hlook, Result.mapWorld_ok, Result.outcome_ok, Table.isEmpty]

theorem emptinessAgrees [Std.LawfulEqOrd κ] (hstride : w.clock.stride = 0) :
    EmptinessAgrees w := by
  classical
  have hscan : (Direct.isEmpty w).outcome = .ok w.live.isEmpty := by
    obtain ⟨w', hempty, -⟩ := Direct.isEmpty_eq hlock hstride
    rw [hempty, Result.outcome_ok]
  have hempty_iff : (Direct.isEmpty w).outcome = .ok true ↔ w.live = [] := by
    rw [hscan, Except.ok.injEq, List.isEmpty_iff]
  have hlive : w.live = [] ↔ ∀ e ∈ w.memory.table.entries, Outlived w.policy w.clock.time e.2 := by
    rw [World.live_eq hlock, liveAmong_eq_nil_iff]
  refine ⟨⟨_, hscan⟩, ?_, ?_, fun called h => ?_, fun called => ?_⟩
  · rw [hempty_iff]
    simp only [World.contains_eq_live hlock, Except.ok.injEq, decide_eq_false_iff_not]
    constructor
    · rintro hnil key
      simp [hnil]
    · intro h
      rw [List.eq_nil_iff_forall_not_mem]
      exact fun e he => h e.1 (List.mem_map_of_mem he)
  · have hdrain := Direct.outcome_list hlock hstride (ρ := κ × Option α) Prod.mk
    rw [List.map_id'] at hdrain
    rw [hempty_iff]
    change _ ↔ (Direct.list Prod.mk w).outcome = .ok []
    rw [hdrain, Except.ok.injEq]
  · rw [Async.outcome_isEmpty hlock, Except.ok.injEq, List.isEmpty_iff] at h
    rw [hempty_iff, hlive, h]
    exact List.forall_mem_nil _
  · rw [Async.outcome_isEmpty hlock, Except.ok.injEq, List.isEmpty_eq_false_iff, hempty_iff,
      hlive]
    exact and_comm

end Memory

/-- Whether a store is empty to its readers is decided by the first answer of a fresh cursor
that is no expired entry, be it a live one, the end or a failure. Over a store in memory this
agrees with the point reads and with the passes, and with the store itself but for what has
expired, and the scan leaves the store and its counters as they are. -/
theorem emptiness_of_scan :
    (∀ {σ κ α γ : Type} [Context σ] [Store σ κ (Stamped α) γ] {w w₁ : σ} {cursor : γ},
      Store.entries w = .ok cursor w₁ → Direct.DecidedByScan w (cursor, w₁)) ∧
    (∀ {κ α : Type} [Ord κ] [Std.TransOrd κ] [Std.LawfulEqOrd κ] {w : World κ α},
      w.memory.poisoned = false → w.clock.stride = 0 → EmptinessAgrees w) ∧
    ∀ {κ α : Type} [Ord κ] [Std.TransOrd κ] (w : World κ α),
      (Direct.isEmpty w).world.memory = w.memory :=
  ⟨Direct.decidedByScan, fun hlock hstride => emptinessAgrees hlock hstride,
    Direct.memory_isEmpty⟩

/-- A store whose cursor replays an expired value, an explicit null and a failure. -/
def World.brittle : Watched (World Nat Nat) Nat (Stamped Nat) Unit where
  world := { policy := .never }
  cursorScript := some [.ok (1, ⟨some 10, 0⟩), .ok (2, ⟨none, 0⟩), .error (.backend "disk on fire")]

/-- A store that holds two values which were never live. -/
def World.stale : World Nat Nat where
  memory := { table := ⟨[(1, ⟨some 10, 4⟩), (2, ⟨some 20, 5⟩)], by decide⟩ }
  policy := .never

/-- The failure behind the null is not met ; and where all is expired, the store itself answers
that it is not empty. -/
theorem emptiness_of_scan_stale :
    (Direct.isEmpty? World.brittle).map Result.outcome = some (.ok false) ∧
      (Direct.isEmpty World.stale).outcome = .ok true ∧
      ((Async.isEmpty World.stale).1.await World.stale).outcome = .ok false := by
  refine ⟨?_, ?_⟩
  · have hopen : Store.entries World.brittle = .ok (.scripted _ none) _ := rfl
    refine (emptiness_of_scan.1 hopen).occupied_iff.mpr
      ⟨[.value 1 10 0 0 false, .null 2 0 0], (2, none), _, .turn rfl (.turn rfl .done), ?_⟩
    have hpassed : ∀ t ∈ [(.value 1 10 0 0 false : Turn Nat Nat)], t.expired = true := by
      simp [Turn.expired, Turn.answer?]
    exact .sought hpassed rfl
  · refine ((emptiness_of_scan.2.1 rfl rfl).differ_iff World.stale).mpr ⟨List.cons_ne_nil _ _, ?_⟩
    simp [World.stale, Outlived, Policy.never]

end LazyExpiry
