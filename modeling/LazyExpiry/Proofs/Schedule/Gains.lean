import LazyExpiry.Proofs.Schedule.Accounts
import LazyExpiry.Proofs.Views.Pages

/-!
# What is stored ahead of a position

Whoever goes through a store by its keys has the entries beyond a position before him, and
writes can put more of them there. How many a store gains is bounded beyond every position at
once (`Table.Gains`) : a written entry is one more at most, and a removal is none. So a store
gains no more than the lines of its journal write (`Carried.gains`), whatever else was done to
it in between (`Reaches.gains`), and neither does what a paged source has to serve
(`Reaches.toServe_le`).
-/

namespace LazyExpiry

variable {κ ν α ρ : Type} [Ord κ]

namespace Table

/-- Beyond every position there are at most `n` entries more. -/
def Gains (n : Nat) (t u : Table κ ν) : Prop :=
  ∀ position, (u.after position).length ≤ (t.after position).length + n

variable {m n : Nat} {t u v : Table κ ν}

theorem Gains.trans (h : Gains m t u) (h' : Gains n u v) : Gains (m + n) t v := by
  intro position
  have hfirst := h position
  have hsecond := h' position
  omega

theorem gains_of_sublist (h : u.entries.Sublist t.entries) : Gains 0 t u :=
  fun _ => (h.filter _).length_le

theorem length_filter_place_le (p : κ × ν → Bool) (k : κ) (v : ν) (entries : List (κ × ν)) :
    ((place k v entries).filter p).length ≤ (entries.filter p).length + 1 := by
  rw [← List.countP_eq_length_filter, ← List.countP_eq_length_filter]
  induction entries with
  | nil => exact List.countP_le_length
  | cons e rest ih =>
    have one (d : κ × ν) : (if p d = true then 1 else 0) ≤ 1 := by split <;> omega
    have hnew := one (k, v)
    have hover := one (e.1, v)
    unfold place
    split <;> simp only [List.countP_cons] <;> omega

variable [Std.TransOrd κ]

theorem gains_insert (t : Table κ ν) (k : κ) (v : ν) : Gains 1 t (t.insert k v) :=
  fun _ => length_filter_place_le _ k v t.entries

theorem gains_insertAll (batch : List (κ × ν)) (t : Table κ ν) :
    Gains batch.length t (t.insertAll batch) := by
  induction batch generalizing t with
  | nil => exact gains_of_sublist (List.Sublist.refl _)
  | cons e batch ih =>
    rw [insertAll_cons, List.length_cons, Nat.add_comm]
    exact (gains_insert t e.1 e.2).trans (ih _)

end Table

/-! ## Lines -/

section Lines

variable [Std.TransOrd κ]

/-- A store gains at most what a line writes. -/
theorem Line.gains_carry (line : Line κ α) (m : Memory κ (Stamped α)) :
    Table.Gains line.puts m.table (line.carry m).table := by
  have same : Table.Gains 0 m.table m.table := Table.gains_of_sublist (List.Sublist.refl _)
  match line with
  | completed calledAt (.put key value) =>
    exact Table.gains_insert m.table key (⟨value, calledAt⟩ : Stamped α)
  | completed calledAt (.putAll batch) =>
    have hbatch := Table.gains_insertAll (stampAll calledAt batch) m.table
    rwa [stampAll, List.length_map] at hbatch
  | completed _ (.remove _) | removed _ => exact Table.gains_of_sublist List.filter_sublist
  | completed _ .clear => exact Table.gains_of_sublist (List.nil_sublist _)
  | completed _ (.get _) | completed _ (.contains _) | completed _ .isEmpty | served 0 |
    served (_ + 1) => exact same

theorem gains_carryOut (lines : List (Line κ α)) (m : Memory κ (Stamped α)) :
    Table.Gains (lines.map Line.puts).sum m.table (carryOut lines m).table := by
  induction lines generalizing m with
  | nil => exact Table.gains_of_sublist (List.Sublist.refl _)
  | cons line lines ih =>
    rw [List.map_cons, List.sum_cons]
    exact (line.gains_carry m).trans (ih (line.carry m))

theorem Carried.gains {lines : List (Line κ α)} {w w' : World κ α} (h : Carried lines w w') :
    Table.Gains (lines.map Line.puts).sum w.memory.table w'.memory.table := by
  rw [h.memory_eq]
  exact gains_carryOut lines w.memory

end Lines

/-! ## Journals -/

namespace Journaled

/-- Entries written so far, a batch counting every one of its entries. -/
def writes (a : Journaled κ α ρ) : Nat := (a.journal.map Line.puts).sum

variable [Std.TransOrd κ] {ok : Deed κ α ρ → System κ α ρ → Prop} {a b c : Journaled κ α ρ}

theorem Reaches.trans (h : Reaches ok a b) (h' : Reaches ok b c) : Reaches ok a c := by
  induction h' with
  | here => exact h
  | deed d _ hok ih => exact (ih h).deed d hok
  | collectEach rule it limit _ hcall hfinish ih _ _ =>
    exact (ih h).collectEach rule it limit hcall hfinish
  | deliverEach it limit _ hcall ih _ => exact (ih h).deliverEach it limit hcall

/-- A store gains at most what is written to it. -/
theorem Reaches.gains (hpass : ∀ d st, d.ofPass = true → ok d st) (h : Reaches ok a b)
    (hsound : a.system.Sound) : b.system.Sound ∧ ∃ n, b.writes = a.writes + n ∧
      Table.Gains n a.world.memory.table b.world.memory.table := by
  obtain ⟨hafter, lines, -, hjournal, hcarried⟩ := h.recorded hpass (Q := fun _ => True)
    (fun _ _ _ _ _ => trivial) hsound
  refine ⟨hafter, (lines.map Line.puts).sum, ?_, hcarried.gains⟩
  rw [writes, hjournal, List.map_append, List.sum_append, writes]

/-- What a source has to serve grows by what is written at most. -/
theorem Reaches.toServe_le (hpass : ∀ d st, d.ofPass = true → ok d st) (h : Reaches ok a b)
    (hsound : a.system.Sound) (source : Memory.Pages κ) :
    (toServe b.world source).length + a.writes ≤ (toServe a.world source).length + b.writes := by
  obtain ⟨-, n, hwrites, hgains⟩ := h.gains hpass hsound
  have hafter := hgains source.last
  unfold toServe
  split <;> omega

/-- A request is answered by the end if there is nothing to serve, and else by a page of it. -/
theorem nextPage_cases (hlock : a.world.memory.poisoned = false) (source : Memory.Pages κ) :
    (toServe a.world source = [] ∧ ∃ s, PageSource.nextPage (source, a) = .ok none s) ∨
      toServe a.world source ≠ [] ∧ ∃ b, PageSource.nextPage (source, a) =
        .ok (some ((toServe a.world source).take source.pageSize.count))
          (source.served ((toServe a.world source).take source.pageSize.count), b) := by
  by_cases hserve : toServe a.world source = []
  · obtain ⟨source', hnext⟩ := World.nextPage_of_nil hlock hserve
    exact .inl ⟨hserve, _, congrArg (Result.mapWorld _) (congrArg (Result.mapWorld _) hnext)⟩
  · obtain ⟨w', hnext, -⟩ := World.nextPage_of_cons hlock hserve
    exact .inr ⟨hserve, _, congrArg (Result.mapWorld _) (congrArg (Result.mapWorld _) hnext)⟩

end Journaled

end LazyExpiry
