/-!
# Ordered tables

A `Table κ ν` is a finite map kept as its list of entries in strictly ascending key
order, the order being part of the type. What a table holds is read through
`Table.get?`, and each change says what it does to that view : `get?_insert`,
`get?_insertAll`, `get?_erase`, `get?_empty`. The entries are exactly the answers
(`mem_entries_iff`). A value that is written over another one goes under the key that is
there.

`Table.after` lists the entries beyond a position, which is a key or the start. It is
what a cursor and a page source resume from, whether or not the key they stand at is
still in the table.
-/

namespace LazyExpiry

variable {κ ν : Type}

/-- Entries in strictly ascending order of their keys. -/
def Ascending [Ord κ] (entries : List (κ × ν)) : Prop :=
  entries.Pairwise fun a b => compare a.1 b.1 = .lt

instance [Ord κ] (entries : List (κ × ν)) : Decidable (Ascending entries) :=
  inferInstanceAs (Decidable (entries.Pairwise fun a b => compare a.1 b.1 = .lt))

theorem nodup_of_ascending [Ord κ] [Std.TransOrd κ] {keys : List κ}
    (h : keys.Pairwise (compare · · = .lt)) : keys.Nodup :=
  h.imp fun hlt heq => by simp [heq, Std.compare_self] at hlt

/-- A finite map from `κ` to `ν`, as its entries in ascending key order. -/
structure Table (κ ν : Type) [Ord κ] where
  /-- The entries in ascending key order. -/
  entries : List (κ × ν)
  ascending : Ascending entries
  deriving DecidableEq

namespace Table

/-! ## Definitions -/

section Definitions

variable [Ord κ]

/-- The table with no entry. -/
def empty : Table κ ν := ⟨[], .nil⟩

instance : Inhabited (Table κ ν) := ⟨empty⟩

/-- The value under a key. -/
def get? (t : Table κ ν) (k : κ) : Option ν :=
  (t.entries.find? fun e => compare e.1 k == .eq).map Prod.snd

/-- Whether a key has a value. -/
def contains (t : Table κ ν) (k : κ) : Bool := (t.get? k).isSome

/-- The number of entries. -/
def size (t : Table κ ν) : Nat := t.entries.length

/-- Whether there is no entry. -/
def isEmpty (t : Table κ ν) : Bool := t.entries.isEmpty

/-- Whether a key lies beyond a position ; every key lies beyond the start. -/
def beyond : Option κ → κ → Bool
  | none, _ => true
  | some last, k => compare last k == .lt

/-- The entries beyond a position, in ascending order. -/
def after (t : Table κ ν) (position : Option κ) : List (κ × ν) :=
  t.entries.filter fun e => beyond position e.1

/-- The table with nothing under `k`. -/
def erase (t : Table κ ν) (k : κ) : Table κ ν :=
  ⟨t.entries.filter fun e => compare e.1 k != .eq, t.ascending.sublist List.filter_sublist⟩

/-- `entries` with `v` under an equal key that is there, or under `k` before the first
greater one. -/
def place (k : κ) (v : ν) : List (κ × ν) → List (κ × ν)
  | [] => [(k, v)]
  | e :: rest =>
    match compare k e.1 with
    | .lt => (k, v) :: e :: rest
    | .eq => (e.1, v) :: rest
    | .gt => e :: place k v rest

end Definitions

/-! ## Changes -/

theorem key_of_mem_place [Ord κ] {k : κ} {v : ν} {e : κ × ν} :
    ∀ {entries : List (κ × ν)}, e ∈ place k v entries → e.1 = k ∨ e.1 ∈ entries.map Prod.fst
  | [], h => .inl (by simp_all [place])
  | d :: rest, h => by
    rw [List.map_cons, List.mem_cons]
    unfold place at h
    split at h
    · rcases List.mem_cons.mp h with rfl | h
      · exact .inl rfl
      · exact .inr (List.mem_cons.mp (List.mem_map_of_mem h))
    · rcases List.mem_cons.mp h with rfl | h
      · exact .inr (.inl rfl)
      · exact .inr (.inr (List.mem_map_of_mem h))
    · rcases List.mem_cons.mp h with rfl | h
      · exact .inr (.inl rfl)
      · exact (key_of_mem_place h).imp_right .inr

section Changes

variable [Ord κ] [Std.TransOrd κ]

theorem ascending_place (k : κ) (v : ν) :
    ∀ {entries : List (κ × ν)}, Ascending entries → Ascending (place k v entries)
  | [], _ => List.pairwise_singleton _ _
  | e :: rest, h => by
    have ⟨head, tail⟩ := List.pairwise_cons.mp h
    unfold place
    split <;> rename_i hk
    · refine List.pairwise_cons.mpr ⟨fun d hd => ?_, h⟩
      rcases List.mem_cons.mp hd with rfl | hd
      · exact hk
      · exact Std.TransCmp.lt_trans hk (head d hd)
    · exact List.pairwise_cons.mpr ⟨head, tail⟩
    · refine List.pairwise_cons.mpr ⟨fun d hd => ?_, ascending_place k v tail⟩
      rcases key_of_mem_place hd with hkey | hkey
      · exact hkey ▸ Std.OrientedCmp.gt_iff_lt.mp hk
      · obtain ⟨d', hd', hkey⟩ := List.mem_map.mp hkey
        exact hkey ▸ head d' hd'

/-- The table with `v` under `k`, whatever was there. -/
def insert (t : Table κ ν) (k : κ) (v : ν) : Table κ ν :=
  ⟨place k v t.entries, ascending_place k v t.ascending⟩

/-- The table after writing a batch of entries in order, so that a later one of equal
key wins. -/
def insertAll (t : Table κ ν) (batch : List (κ × ν)) : Table κ ν :=
  batch.foldl (fun t e => t.insert e.1 e.2) t

@[simp] theorem insertAll_nil (t : Table κ ν) : t.insertAll [] = t := rfl

@[simp] theorem insertAll_cons (t : Table κ ν) (e : κ × ν) (batch : List (κ × ν)) :
    t.insertAll (e :: batch) = (t.insert e.1 e.2).insertAll batch := rfl

theorem insertAll_append (t : Table κ ν) (batch more : List (κ × ν)) :
    t.insertAll (batch ++ more) = (t.insertAll batch).insertAll more := List.foldl_append

end Changes

/-! ## What a table holds -/

@[simp, grind =] theorem get?_empty [Ord κ] (k : κ) : (empty : Table κ ν).get? k = none := rfl

section View

variable [Ord κ] [Std.LawfulEqOrd κ]

theorem get?_eq_some_iff {t : Table κ ν} {k : κ} {v : ν} :
    t.get? k = some v ↔ (k, v) ∈ t.entries := by
  obtain ⟨entries, h⟩ := t
  simp only [get?]
  induction entries with
  | nil => simp
  | cons e rest ih =>
    have ⟨head, tail⟩ := List.pairwise_cons.mp h
    rw [List.find?_cons]
    by_cases hk : compare e.1 k = .eq
    · have hek : e.1 = k := Std.LawfulEqOrd.eq_of_compare hk
      simp only [hk, beq_self_eq_true, Option.map_some, Option.some.injEq, List.mem_cons]
      constructor
      · rintro rfl
        exact .inl (Prod.ext hek.symm rfl)
      · rintro (rfl | hmem)
        · rfl
        · have := head _ hmem
          simp [hek, Std.compare_self] at this
    · have hbeq : (compare e.1 k == .eq) = false := by simp [hk]
      simp only [hbeq, List.mem_cons]
      rw [ih tail]
      constructor
      · exact .inr
      · rintro (rfl | hmem)
        · exact absurd Std.compare_self hk
        · exact hmem

theorem mem_entries_iff {t : Table κ ν} {e : κ × ν} :
    e ∈ t.entries ↔ t.get? e.1 = some e.2 := get?_eq_some_iff.symm

theorem get?_eq_none_iff {t : Table κ ν} {k : κ} :
    t.get? k = none ↔ ∀ v, (k, v) ∉ t.entries := by
  rw [Option.eq_none_iff_forall_ne_some]
  exact forall_congr' fun v => not_congr get?_eq_some_iff

theorem entries_erase [DecidableEq κ] (t : Table κ ν) (k : κ) :
    (t.erase k).entries = t.entries.filter fun e => decide (e.1 ≠ k) := by
  refine List.filter_congr fun e _ => ?_
  rw [Bool.eq_iff_iff, bne_iff_ne, decide_eq_true_iff]
  exact not_congr Std.compare_eq_iff_eq

theorem mem_erase {t : Table κ ν} {k : κ} {e : κ × ν} :
    e ∈ (t.erase k).entries ↔ e ∈ t.entries ∧ e.1 ≠ k := by
  classical
  rw [entries_erase, List.mem_filter, decide_eq_true_iff]

@[grind =] theorem get?_erase [DecidableEq κ] (t : Table κ ν) (k j : κ) :
    (t.erase k).get? j = if j = k then none else t.get? j := by
  refine Option.ext fun x => ?_
  rw [get?_eq_some_iff, mem_erase]
  split
  · rename_i hj
    simp [hj]
  · rename_i hj
    simp [hj, get?_eq_some_iff]

end View

section Insertion

variable [Ord κ] [Std.TransOrd κ] [Std.LawfulEqOrd κ]

theorem mem_place {k : κ} {v : ν} {e : κ × ν} :
    ∀ {entries : List (κ × ν)}, Ascending entries →
      (e ∈ place k v entries ↔ e = (k, v) ∨ e ∈ entries ∧ e.1 ≠ k)
  | [], _ => by simp [place]
  | d :: rest, h => by
    have ⟨head, tail⟩ := List.pairwise_cons.mp h
    have ne_of_lt : ∀ {a b : κ}, compare a b = .lt → b ≠ a := by
      rintro a _ hab rfl
      simp [Std.compare_self] at hab
    unfold place
    split <;> rename_i hk
    · have apart : ∀ c ∈ d :: rest, c.1 ≠ k := by
        intro c hc
        rcases List.mem_cons.mp hc with rfl | hc
        · exact ne_of_lt hk
        · exact ne_of_lt (Std.TransCmp.lt_trans hk (head c hc))
      rw [List.mem_cons]
      exact or_congr_right ⟨fun hc => ⟨hc, apart e hc⟩, And.left⟩
    · obtain rfl := Std.LawfulEqOrd.eq_of_compare hk
      have apart : ∀ c ∈ rest, c.1 ≠ d.1 := fun c hc => ne_of_lt (head c hc)
      simp only [List.mem_cons]
      refine or_congr_right ⟨fun hc => ⟨.inr hc, apart e hc⟩, ?_⟩
      rintro ⟨rfl | hc, hne⟩
      · exact absurd rfl hne
      · exact hc
    · have hd : d.1 ≠ k := by
        rintro rfl
        simp [Std.compare_self] at hk
      simp only [List.mem_cons, mem_place tail]
      constructor
      · rintro (rfl | rfl | ⟨hc, hne⟩)
        · exact .inr ⟨.inl rfl, hd⟩
        · exact .inl rfl
        · exact .inr ⟨.inr hc, hne⟩
      · rintro (rfl | ⟨rfl | hc, hne⟩)
        · exact .inr (.inl rfl)
        · exact .inl rfl
        · exact .inr (.inr ⟨hc, hne⟩)

@[grind =] theorem get?_insert [DecidableEq κ] (t : Table κ ν) (k : κ) (v : ν) (j : κ) :
    (t.insert k v).get? j = if j = k then some v else t.get? j := by
  refine Option.ext fun x => ?_
  rw [get?_eq_some_iff]
  simp only [insert, mem_place t.ascending, Prod.mk.injEq]
  split
  · rename_i hj
    subst hj
    simp [eq_comm]
  · rename_i hj
    simp [hj, get?_eq_some_iff]

/-- After a batch a key has the value of its last entry there, or else the value it had. -/
theorem get?_insertAll [DecidableEq κ] (batch : List (κ × ν)) (t : Table κ ν) (j : κ) :
    (t.insertAll batch).get? j =
      ((batch.reverse.find? fun e => e.1 = j).map Prod.snd).or (t.get? j) := by
  induction batch generalizing t with
  | nil => simp
  | cons e rest ih =>
    rw [insertAll_cons, ih, get?_insert, List.reverse_cons, List.find?_append]
    cases rest.reverse.find? fun e => e.1 = j with
    | some d => simp
    | none =>
      by_cases h : e.1 = j
      · simp [h]
      · simp [h, Ne.symm h]

/-- A batch leaves the keys that it does not have. -/
theorem get?_insertAll_of_not_mem {batch : List (κ × ν)} {j : κ}
    (h : j ∉ batch.map Prod.fst) (t : Table κ ν) : (t.insertAll batch).get? j = t.get? j := by
  classical
  induction batch generalizing t with
  | nil => rfl
  | cons e batch ih =>
    have hj : j ≠ e.1 := fun hj => h (hj ▸ List.mem_cons_self)
    rw [insertAll_cons, ih fun hmem => h (List.mem_cons_of_mem _ hmem), get?_insert, if_neg hj]

/-- In a batch the last entry under a key counts. -/
theorem get?_insertAll_last (before : List (κ × ν)) (k : κ) (v : ν) {after : List (κ × ν)}
    (h : k ∉ after.map Prod.fst) (t : Table κ ν) :
    (t.insertAll (before ++ (k, v) :: after)).get? k = some v := by
  classical
  rw [insertAll_append, insertAll_cons, get?_insertAll_of_not_mem h, get?_insert, if_pos rfl]

end Insertion

/-! ## Positions -/

section Positions

variable [Ord κ]

@[simp] theorem beyond_none (k : κ) : beyond none k = true := rfl

@[simp] theorem beyond_some (last k : κ) : beyond (some last) k = (compare last k == .lt) := rfl

theorem beyond_self [Std.TransOrd κ] (k : κ) : beyond (some k) k = false := by
  rw [beyond_some, Std.compare_self]
  rfl

/-- What lies beyond a key lies beyond any position before that key. -/
theorem beyond_trans [Std.TransOrd κ] {position : Option κ} {k j : κ}
    (hk : beyond position k = true) (hj : compare k j = .lt) : beyond position j = true := by
  cases position with
  | none => rfl
  | some last =>
    rw [beyond_some, beq_iff_eq] at hk ⊢
    exact Std.TransCmp.lt_trans hk hj

@[simp] theorem after_none (t : Table κ ν) : t.after none = t.entries := by
  simp [after]

theorem ascending_after (t : Table κ ν) (position : Option κ) : Ascending (t.after position) :=
  t.ascending.sublist List.filter_sublist

theorem mem_after {t : Table κ ν} {position : Option κ} {e : κ × ν} :
    e ∈ t.after position ↔ e ∈ t.entries ∧ beyond position e.1 = true :=
  List.mem_filter

/-- Beyond the first entry after a position lie the other entries after it. -/
theorem after_of_after_eq_cons [Std.TransOrd κ] {t : Table κ ν} {position : Option κ}
    {e : κ × ν} {rest : List (κ × ν)} (h : t.after position = e :: rest) :
    t.after (some e.1) = rest := by
  have hasc : Ascending (e :: rest) := h ▸ t.ascending_after position
  have ⟨head, _⟩ := List.pairwise_cons.mp hasc
  have hpos : beyond position e.1 = true :=
    (mem_after.mp (h ▸ List.mem_cons_self : e ∈ t.after position)).2
  have sub : t.after (some e.1) = (t.after position).filter fun d => beyond (some e.1) d.1 := by
    rw [after, after, List.filter_filter]
    refine List.filter_congr fun d _ => ?_
    cases position with
    | none => simp
    | some last =>
      simp only [beyond_some, beq_iff_eq] at hpos
      by_cases hd : compare e.1 d.1 = .lt
      · simp [hd, Std.TransCmp.lt_trans hpos hd]
      · simp [hd]
  rw [sub, h, List.filter_cons_of_neg (by simp [Std.compare_self])]
  exact List.filter_eq_self.mpr fun d hd => by simp [head d hd]

/-- Beyond any entry after a position lie the entries behind it. -/
theorem after_of_after_eq_append [Std.TransOrd κ] {t : Table κ ν} {e : κ × ν}
    {rest : List (κ × ν)} : ∀ {before : List (κ × ν)} {position : Option κ},
      t.after position = before ++ e :: rest → t.after (some e.1) = rest
  | [], _, h => after_of_after_eq_cons h
  | _ :: _, _, h => after_of_after_eq_append (after_of_after_eq_cons h)

end Positions

end Table

end LazyExpiry
