import Mathlib.Data.Set.Card
import LazyExpiry.Proofs.Schedule.Journal

/-!
# The accounts of a store are exact

What a store reports of itself is told by its journal : every counter is the one at the start
and the sum, modulo 2^64, of what the lines count (`Counters.after`), and the number of entries
is the number of keys under which anything is stored. What is stored changes by the writes
and removals that are completed, and by nothing else : however many entries are expired, no
read, scan, cursor or page removes one.

Both are facts about single lines (`Line.counters_carry`, `Line.table_carry`).
-/

namespace LazyExpiry

variable {κ α ρ : Type}

/-! ## What a line counts -/

namespace Line

/-- Point reads. -/
def gets : Line κ α → Nat
  | completed _ (.get _) => 1
  | completed _ (.contains _) => 1
  | _ => 0

/-- Entries written, a batch counting every one of its entries. -/
def puts : Line κ α → Nat
  | completed _ (.put _ _) => 1
  | completed _ (.putAll batch) => batch.length
  | _ => 0

/-- Removals, whether or not anything was there. -/
def removes : Line κ α → Nat
  | completed _ (.remove _) => 1
  | removed _ => 1
  | _ => 0

/-- Pages with entries. -/
def pages : Line κ α → Nat
  | served entries => if entries = 0 then 0 else 1
  | _ => 0

/-- A line that tells of no write and no removal. -/
def looks : Line κ α → Bool
  | completed _ c => c.reads
  | removed _ => false
  | served _ => true

end Line

/-- The counters after those lines. -/
def Counters.after (c : Counters) (lines : List (Line κ α)) : Counters where
  gets := c.gets + UInt64.ofNat (lines.map Line.gets).sum
  puts := c.puts + UInt64.ofNat (lines.map Line.puts).sum
  removes := c.removes + UInt64.ofNat (lines.map Line.removes).sum
  pages := c.pages + UInt64.ofNat (lines.map Line.pages).sum

theorem Counters.after_nil (c : Counters) : c.after ([] : List (Line κ α)) = c := by
  simp [after]

theorem Counters.after_cons (c : Counters) (line : Line κ α) (lines : List (Line κ α)) :
    c.after (line :: lines) = (c.after [line]).after lines := by
  simp [after, UInt64.ofNat_add, UInt64.add_assoc]

section Carry

variable [Ord κ] [Std.TransOrd κ]

theorem Line.counters_carry (line : Line κ α) (m : Memory κ (Stamped α)) :
    (line.carry m).counters = m.counters.after [line] := by
  match line with
  | completed _ c =>
    cases c <;>
      simp [carry, PointCall.carry, Memory.count, Counters.after, gets, puts, removes, pages]
  | removed _ | served 0 | served (_ + 1) =>
    simp [carry, Memory.count, Counters.after, gets, puts, removes, pages]

theorem counters_carryOut (lines : List (Line κ α)) (m : Memory κ (Stamped α)) :
    (carryOut lines m).counters = m.counters.after lines := by
  induction lines generalizing m with
  | nil => exact (m.counters.after_nil).symm
  | cons line lines ih =>
    have hline := line.counters_carry m
    rw [Counters.after_cons, ← hline]
    exact ih (line.carry m)

theorem Line.table_carry {line : Line κ α} (h : line.looks = true) (m : Memory κ (Stamped α)) :
    (line.carry m).table = m.table := by
  match line with
  | completed _ (.get _) | completed _ (.contains _) | completed _ .isEmpty => rfl
  | completed _ (.put _ _) | completed _ (.putAll _) | completed _ (.remove _) |
    completed _ .clear | removed _ => cases h
  | served 0 | served (_ + 1) => rfl

theorem table_carryOut {lines : List (Line κ α)} (h : ∀ line ∈ lines, line.looks = true)
    (m : Memory κ (Stamped α)) : (carryOut lines m).table = m.table :=
  carryOut_induction (P := (·.table = m.table))
    (fun line hline m' hm' => (Line.table_carry (h line hline) m').trans hm') rfl

end Carry

/-! ## How much is stored -/

/-- A table has as many entries as there are keys that answer. -/
theorem Table.size_eq_ncard [Ord κ] [Std.TransOrd κ] [Std.LawfulEqOrd κ] {ν : Type}
    (t : Table κ ν) : t.size = {key | t.get? key ≠ none}.ncard := by
  classical
  have hnodup : (t.entries.map Prod.fst).Nodup :=
    nodup_of_ascending (List.pairwise_map.mpr t.ascending)
  have hkeys : {key | t.get? key ≠ none} = ((t.entries.map Prod.fst).toFinset : Set κ) := by
    ext key
    simp [Table.get?_eq_none_iff]
  rw [hkeys, Set.ncard_coe_finset, List.toFinset_card_of_nodup hnodup, List.length_map, Table.size]

/-! ## Looking -/

section Looking

variable [Ord κ] [Std.TransOrd κ]

/-- A deed that is no write and no removal. -/
def Deed.Looks (d : Deed κ α ρ) (st : System κ α ρ) : Prop :=
  match d with
  | move (.act a) => a.looks = true
  | move (.complete ticket) => ∀ p, st.pending ticket = some p → p.call.reads = true
  | _ => True

omit [Std.TransOrd κ] in
theorem Deed.looks_of_ofPass {d : Deed κ α ρ} (h : d.ofPass = true) (st : System κ α ρ) :
    d.Looks st := by
  match d with
  | requestPage _ | readClock | judge _ _ | note _ => trivial

theorem Deed.looks_lines {d : Deed κ α ρ} {st : System κ α ρ} (h : d.Looks st) :
    ∀ line ∈ d.lines st, line.looks = true := by
  match d with
  | move (.act (.direct c)) => exact List.forall_mem_singleton.mpr h
  | move (.act (.onPass handle c)) =>
    have hc : c ≠ .removeCurrent := of_decide_eq_true h
    rcases hp : st.scene.passes handle with - | p
    · simp [lines, Act.lines, hp]
    · simp [lines, Act.lines, hp, PassEvent.lines_of_ne_removeCurrent hc]
  | move (.complete ticket) =>
    rcases hp : st.pending ticket with - | p
    · simp [lines, hp]
    · simpa [lines, hp, Line.looks] using h p hp
  | requestPage source =>
    rw [lines]
    rcases (PageSource.nextPage (source, st)).outcome with e | - | page <;>
      simp [pageLines, Line.looks]
  | move (.act (.setClock _)) | move (.act (.advanceClock _)) | move (.act (.openPass _ _)) |
    move (.call _ _) | move (.drop _) | readClock | judge _ _ | note _ | callPaged _ |
    openPaged _ _ | size | stats => simp [lines, Act.lines]

end Looking

/-! ## Accounts -/

section Accounts

variable [Ord κ] [Std.TransOrd κ] [Std.LawfulEqOrd κ]

/-- Whatever has become of a store that was not poisoned, its statistics are those at the start
and what the journal counts, with the number of keys stored ; and what is stored stays
however long there is no write and no removal. -/
theorem accounts_exact {w : World κ α} (h : w.memory.poisoned = false) {b : Journaled κ α ρ}
    (hb : Journaled.Reaches (fun _ _ => True) { system := { scene := { world := w } } } b) :
    Memory.stats b.world.memory =
        .ok ⟨UInt64.ofNat {key | b.world.memory.table.get? key ≠ none}.ncard,
          w.memory.counters.after b.journal⟩ b.world.memory ∧
      ∀ c, Journaled.Reaches Deed.Looks b c → c.world.memory.table = b.world.memory.table := by
  obtain ⟨hsound, lines, -, hjournal, hcarried⟩ := hb.recorded (fun _ _ _ => trivial)
    (Q := fun _ => True) (fun _ _ _ _ _ => trivial) (System.Sound.start h)
  refine ⟨?_, fun c hc => ?_⟩
  · have hcounters : b.world.memory.counters = w.memory.counters.after b.journal := by
      have hmemory := congrArg Memory.counters hcarried.memory_eq
      rw [hjournal, List.nil_append, ← counters_carryOut]
      exact hmemory
    have hstats := Memory.observe_of_not_poisoned hsound.not_poisoned
      (x := fun t => Stats.mk (UInt64.ofNat t.size) b.world.memory.counters)
    rw [Memory.stats, hstats, Table.size_eq_ncard, hcounters]
  · obtain ⟨-, lines', hlooks, -, hcarried'⟩ := hc.recorded
      (fun d st hd => Deed.looks_of_ofPass hd st) (fun _ _ => Deed.looks_lines) hsound
    have hmemory := congrArg Memory.table hcarried'.memory_eq
    rw [table_carryOut hlooks] at hmemory
    exact hmemory

end Accounts

/-- A batch that expires unread, a write that is completed late, a clearing that never is,
and a removal of nothing. -/
def unread : Journaled Nat Nat Unit :=
  Journaled.run [.move (.act (.direct (.putAll [(1, some 6), (1, some 7), (2, none)]))),
    .move (.act (.setClock 9)), .move (.call 0 (.put 3 (some 8))), .move (.call 1 .clear),
    .move (.act (.direct (.get 1))), .move (.complete 0), .move (.act (.direct (.contains 4))),
    .move (.drop 1), .move (.act (.direct (.remove 4)))]
    { system := { scene := { world := { policy := .nowBelow 5 } } } }

/-- A pass by pages of two that only looks. -/
def leafedThrough : Journaled Nat Nat Unit :=
  (PagedEntries.deliverEach ({ source := { pageSize := .ofNat 2 }, project := fun key _ => key } :
    PagedEntries (Memory.Pages Nat) Nat Nat Nat) 3 (fun _ _ => .ok ()) unread).world

theorem accounts_exact_leafedThrough :
    (Memory.stats leafedThrough.world.memory).outcome =
        .ok ⟨UInt64.ofNat {key | leafedThrough.world.memory.table.get? key ≠ none}.ncard,
          { gets := 2, puts := 4, removes := 1, pages := 2 }⟩ ∧
      leafedThrough.world.memory.table.entries =
        [(1, ⟨some 7, 0⟩), (2, ⟨none, 0⟩), (3, ⟨some 8, 9⟩)] := by
  have hunread : Journaled.Reaches (fun _ _ => True) _ unread :=
    (Journaled.Reaches.here _).run fun _ _ _ => trivial
  have hpaged : Journaled.Reaches (fun _ _ => True) _ leafedThrough :=
    hunread.deliverEach _ _ fun _ _ c => .here c
  have hlooked : Journaled.Reaches Deed.Looks unread leafedThrough :=
    .deliverEach _ _ (.here _) fun _ _ c => .here c
  refine ⟨?_, ?_⟩
  · rw [(accounts_exact rfl hpaged).1]
    rfl
  · rw [(accounts_exact rfl hunread).2 leafedThrough hlooked]
    rfl

end LazyExpiry
