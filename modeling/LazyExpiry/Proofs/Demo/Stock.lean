import Mathlib.Algebra.BigOperators.Group.Finset.Basic
import Mathlib.Data.List.Nodup
import LazyExpiry.Proofs.Demo.Numerals
import LazyExpiry.Proofs.Point.Deviation
import LazyExpiry.Proofs.Views.Walk

/-!
# What the demo's store holds

The keys that the demo writes are all different, so its store holds what was written in some
order (`Table.perm_insertAll`). Which of it is live at a time, how much that is, and how many
bytes it has, does not depend on the order. Only which entry comes first does, and that is told by
the order of the keys alone : the one key that is below all others (`eq_cons_of_perm`).

When the first batch has just expired, the second is live unless the lifetime is less than two
milliseconds or ends with time itself (`secondLives`). The explicit null is live at all times.
`standing` says which entry is then the first, and which are the others.
-/

namespace LazyExpiry

variable {κ ν α β : Type}

/-! ## New keys, and a key that goes -/

section Tables

variable [Ord κ] [Std.LawfulEqOrd κ]

theorem Table.perm_place {k : κ} {v : ν} : ∀ {entries : List (κ × ν)},
    (∀ e ∈ entries, e.1 ≠ k) → (place k v entries).Perm ((k, v) :: entries)
  | [], _ => .refl _
  | e :: rest, h => by
    unfold place
    split <;> rename_i hk
    · exact .refl _
    · exact absurd (Std.LawfulEqOrd.eq_of_compare hk).symm (h e List.mem_cons_self)
    · have hrest := perm_place (v := v) fun d hd => h d (List.mem_cons_of_mem e hd)
      exact (hrest.cons e).trans (.swap _ _ _)

/-- A batch of new keys comes in addition to what is there. -/
theorem Table.perm_insertAll [Std.TransOrd κ] (batch : List (κ × ν)) {t : Table κ ν}
    (h : ((t.entries ++ batch).map Prod.fst).Nodup) :
    (t.insertAll batch).entries.Perm (t.entries ++ batch) := by
  induction batch generalizing t with
  | nil => rw [insertAll_nil, List.append_nil]
  | cons e batch ih =>
    have hnew : ∀ d ∈ t.entries, d.1 ≠ e.1 := by
      rw [List.map_append, List.map_cons] at h
      intro d hd
      exact (List.nodup_append.mp h).2.2 d.1 (List.mem_map_of_mem hd) e.1 List.mem_cons_self
    have hplaced : (t.insert e.1 e.2).entries.Perm (e :: t.entries) := perm_place hnew
    have hmoved : ((t.insert e.1 e.2).entries ++ batch).Perm (t.entries ++ e :: batch) :=
      (hplaced.append_right batch).trans List.perm_middle.symm
    exact (ih ((hmoved.map Prod.fst).nodup_iff.mpr h)).trans hmoved

omit [Std.LawfulEqOrd κ] in
theorem liveAmong_erase (policy : Policy) (now : Timestamp) (t : Table κ (Stamped α)) (k : κ) :
    liveAmong policy now (t.erase k).entries =
      (liveAmong policy now t.entries).filter fun e => compare e.1 k != .eq := by
  rw [Table.erase]
  dsimp only
  induction t.entries with
  | nil => rfl
  | cons e entries ih =>
    rcases hcheck : check policy (some e.2) now with - | value
    · rw [liveAmong_cons_none hcheck, ← ih, List.filter_cons]
      split
      · rw [liveAmong_cons_none hcheck]
      · rfl
    · rw [liveAmong_cons_some hcheck, List.filter_cons, List.filter_cons, ← ih]
      dsimp only
      split
      · rw [liveAmong_cons_some hcheck]
      · rfl

theorem Table.size_erase [Std.TransOrd κ] {t : Table κ ν} {k : κ} {v : ν}
    (h : (k, v) ∈ t.entries) : (t.erase k).size + 1 = t.size := by
  classical
  have hkeys : ((t.erase k).entries.map Prod.fst) = (t.entries.map Prod.fst).erase k := by
    rw [(nodup_of_ascending (List.pairwise_map.mpr t.ascending)).erase_eq_filter, List.filter_map,
      entries_erase]
    refine congrArg _ (List.filter_congr fun e _ => ?_)
    rw [Bool.eq_iff_iff, decide_eq_true_iff]
    exact bne_iff_ne.symm
  have hlength := congrArg List.length hkeys
  have hmem : k ∈ t.entries.map Prod.fst := List.mem_map_of_mem h
  rw [List.length_map, List.length_erase_of_mem hmem, List.length_map] at hlength
  have hpos := List.length_pos_of_mem h
  rw [size, size, hlength]
  omega

omit [Std.LawfulEqOrd κ] in
/-- An ascending list begins with the entry whose key is below all others. -/
theorem eq_cons_of_perm [Std.TransOrd κ] {L rest : List (κ × β)} {e : κ × β} (h : Ascending L)
    (hperm : L.Perm (e :: rest)) (hleast : ∀ d ∈ rest, compare e.1 d.1 = .lt) :
    ∃ rest', L = e :: rest' ∧ rest'.Perm rest := by
  rcases L with - | ⟨d, L⟩
  · exact absurd hperm.symm (by simp)
  · have hd : d = e := by
      rcases List.mem_cons.mp (hperm.subset List.mem_cons_self) with hd | hd
      · exact hd
      · rcases List.mem_cons.mp (hperm.symm.subset List.mem_cons_self) with he | he
        · exact he.symm
        · have hlt := (List.pairwise_cons.mp h).1 e he
          have hgt := Std.OrientedCmp.gt_iff_lt.mpr (hleast d hd)
          rw [hlt] at hgt
          cases hgt
    subst hd
    exact ⟨L, rfl, hperm.cons_inv⟩

end Tables

namespace Demo

/-! ## The store -/

/-- What the demo writes, in order, if it writes the second batch at `half`. -/
def stock (half : Timestamp) (n : Nat) : List (String × Stamped String) :=
  stampAll 0 (batch "old" n) ++ (stampAll half (batch "new" n) ++ [("new:null", ⟨none, half⟩)])

/-- What is in the store by then. -/
def stored (half : Timestamp) (n : Nat) : Table String (Stamped String) :=
  Table.empty.insertAll (stock half n)

theorem keys_stampAll (t : Timestamp) (name : String) (n : Nat) :
    (stampAll t (batch name n)).map Prod.fst = (List.range n).map (numbered name) := by
  rw [map_fst_stampAll, batch_eq, List.map_map]
  rfl

theorem nodup_numbered (name : String) (n : Nat) : ((List.range n).map (numbered name)).Nodup :=
  List.nodup_range.map fun _ _ h => (numbered_inj rfl h).2

theorem nodup_stock (half : Timestamp) (n : Nat) : ((stock half n).map Prod.fst).Nodup := by
  rw [stock, List.map_append, List.map_append, keys_stampAll, keys_stampAll, List.nodup_append,
    List.nodup_append]
  refine ⟨nodup_numbered _ n, ⟨nodup_numbered _ n, List.nodup_singleton _, ?_⟩, ?_⟩
  · intro a ha b hb
    obtain ⟨i, -, rfl⟩ := List.mem_map.mp ha
    rw [List.mem_singleton.mp hb]
    exact numbered_ne_null i
  · intro a ha b hb hab
    obtain ⟨i, -, rfl⟩ := List.mem_map.mp ha
    have hhead : (numbered "old" i).toList.head? = some 'n' := by
      rw [hab]
      rcases List.mem_append.mp hb with hb | hb
      · obtain ⟨j, -, rfl⟩ := List.mem_map.mp hb
        rw [toList_numbered]
        rfl
      · rw [List.mem_singleton.mp hb]
        exact (by decide : "new:null".toList.head? = some 'n')
    rw [toList_numbered] at hhead
    cases hhead

theorem perm_stored (half : Timestamp) (n : Nat) : (stored half n).entries.Perm (stock half n) :=
  Table.perm_insertAll (stock half n) (nodup_stock half n)

theorem size_stored (half : Timestamp) (n : Nat) : (stored half n).size = 2 * n + 1 := by
  have hlength := (perm_stored half n).length_eq
  rw [Table.size, hlength]
  simp only [stock, stampAll, List.length_append, List.length_map, length_batch,
    List.length_singleton]
  omega

/-! ## What is live -/

/-- A batch is live as a whole. -/
theorem liveAmong_batch (policy : Policy) (now t : Timestamp) (name : String) (n : Nat) :
    liveAmong policy now (stampAll t (batch name n)) =
      if policy t now then batch name n else [] := by
  rw [liveAmong, stampAll, batch_eq, List.map_map, List.filterMap_map]
  split <;> rename_i h
  · rw [← List.filterMap_eq_map]
    exact List.filterMap_congr fun i _ => by simp [h]
  · refine List.filterMap_eq_nil_iff.mpr fun i _ => ?_
    simp [h]

theorem perm_live (policy : Policy) (now half : Timestamp) (n : Nat) :
    (liveAmong policy now (stored half n).entries).Perm
      ((if policy 0 now then batch "old" n else []) ++
        ((if policy half now then batch "new" n else []) ++ [("new:null", none)])) := by
  have hperm := (perm_stored half n).filterMap fun e =>
    (check policy (some e.2) now).map fun value => (e.1, value)
  rw [stock, List.filterMap_append, List.filterMap_append] at hperm
  rw [← liveAmong_batch, ← liveAmong_batch]
  exact hperm

/-! ## At the end of the first batch -/

/-- Whether the second batch is live when the first has just expired. -/
def secondLives (ttl : UInt64) : Bool := decide (2 ≤ ttl.toNat ∧ ttl.toNat < 2 ^ 64 - 1)

/-- The policy of the demo. -/
def policyOf (ttl : UInt64) : Policy := Lifetime.isLive { span := .ofMillis ttl }

theorem toNat_expiresAt_ofMillis (ttl : UInt64) (writtenAt : Timestamp) :
    (Lifetime.expiresAt { span := .ofMillis ttl } writtenAt).toNat =
      min (writtenAt.toNat + ttl.toNat) (2 ^ 64 - 1) := by
  have hmillis : (Span.ofMillis ttl).inNanos / 1000000 = ttl.toNat := by
    have hsecs : (ttl / 1000).toNat = ttl.toNat / 1000 := UInt64.toNat_div ttl 1000
    simp only [Span.inNanos, Span.ofMillis, hsecs]
    omega
  rw [Lifetime.toNat_expiresAt, hmillis]
  rfl

theorem policyOf_eq_true_iff {ttl : UInt64} {writtenAt now : Timestamp} :
    policyOf ttl writtenAt now = true ↔
      now.toNat < min (writtenAt.toNat + ttl.toNat) (2 ^ 64 - 1) := by
  rw [policyOf, Lifetime.isLive_iff_lt, UInt64.lt_iff_toNat_lt, toNat_expiresAt_ofMillis]

theorem toNat_half (ttl : UInt64) : (ttl / 2).toNat = ttl.toNat / 2 := UInt64.toNat_div ttl 2

/-- The first batch has expired after the lifetime, and for good. -/
theorem policyOf_first {ttl : UInt64} {now : Timestamp} (h : ttl.toNat ≤ now.toNat) :
    policyOf ttl 0 now = false := by
  rw [Bool.eq_false_iff, ne_eq, policyOf_eq_true_iff, UInt64.toNat_zero]
  omega

theorem policyOf_second (ttl : UInt64) : policyOf ttl (ttl / 2) ttl = secondLives ttl := by
  rw [Bool.eq_iff_iff, policyOf_eq_true_iff, secondLives, decide_eq_true_iff, toNat_half]
  omega

/-- The second batch has expired after twice the lifetime. -/
theorem policyOf_second_end (ttl : UInt64) :
    policyOf ttl (ttl / 2) (Timestamp.clamp (2 * ttl.toNat)) = false := by
  have hsize : UInt64.size = 2 ^ 64 := rfl
  rw [Bool.eq_false_iff, ne_eq, policyOf_eq_true_iff, toNat_half, Timestamp.toNat_clamp]
  omega

/-- The live entry that comes first when the first batch has just expired, and the others. -/
def standing : (lives : Bool) → (n : Nat) →
    (String × Option String) × List (String × Option String)
  | true, n + 1 =>
    ((numbered "new" 0, some (numbered "value" 0)),
      ((List.range n).map fun i => (numbered "new" (i + 1), some (numbered "value" (i + 1)))) ++
        [("new:null", none)])
  | _, _ => (("new:null", none), [])

section Standing

variable (lives : Bool) (n : Nat)

theorem cons_standing : (standing lives n).1 :: (standing lives n).2 =
    (if lives then batch "new" n else []) ++ [("new:null", none)] := by
  match lives, n with
  | true, n + 1 =>
    rw [batch_eq, List.range_succ_eq_map, List.map_cons, List.map_map]
    rfl
  | true, 0 => rfl
  | false, _ => rfl

theorem standing_least : ∀ d ∈ (standing lives n).2,
    compare (standing lives n).1.1 d.1 = .lt := by
  match lives, n with
  | true, n + 1 =>
    intro d hd
    rcases List.mem_append.mp hd with hd | hd
    · obtain ⟨i, -, rfl⟩ := List.mem_map.mp hd
      exact numbered_zero_lt "new" i.succ_ne_zero
    · rw [List.mem_singleton.mp hd]
      exact numbered_zero_lt_null
  | true, 0 => exact List.forall_mem_nil _
  | false, _ => exact List.forall_mem_nil _

theorem length_standing : (standing lives n).2.length = if lives then n else 0 := by
  match lives, n with
  | true, n + 1 => simp [standing]
  | true, 0 => rfl
  | false, _ => rfl

/-- Whether a numbered key comes first. -/
def standsFirst : Bool := lives && decide (0 < n)

theorem key_standing :
    (standing lives n).1.1 = if standsFirst lives n then "new:0" else "new:null" := by
  match lives, n with
  | true, n + 1 => rfl
  | true, 0 => rfl
  | false, _ => rfl

theorem isEmpty_standing : (standing lives n).2.isEmpty = !standsFirst lives n := by
  match lives, n with
  | true, n + 1 => simp [standing, standsFirst]
  | true, 0 => rfl
  | false, _ => rfl

/-- The bytes of a value, an explicit null having none. -/
def bytesOf (value : Option String) : Nat := (value.map String.utf8ByteSize).getD 0

omit lives n in
/-- A sum of lengths is the number of bytes, modulo 2^64. -/
theorem total_lengths (entries : List (String × Option String)) :
    total (entries.map fun e => lengthOf e.2) =
      UInt64.ofNat (entries.map fun e => bytesOf e.2).sum := by
  have hlength (value : Option String) : lengthOf value = UInt64.ofNat (bytesOf value) := by
    cases value <;> rfl
  induction entries with
  | nil => rfl
  | cons e entries ih =>
    rw [List.map_cons, List.map_cons, List.sum_cons, UInt64.ofNat_add, ← ih, ← hlength]
    rfl

theorem bytes_standing : ((standing lives n).2.map fun e => bytesOf e.2).sum =
    if standsFirst lives n then ∑ i ∈ Finset.Ico 1 n, (6 + (Nat.digits 10 i).length) else 0 := by
  match lives, n with
  | true, n + 1 =>
    have hbytes (i : Nat) : (numbered "value" (i + 1)).utf8ByteSize =
        6 + (Nat.digits 10 (1 + i)).length := by
      rw [Nat.add_comm 1 i]
      exact utf8ByteSize_value i.succ_ne_zero
    simp only [standing, List.map_append, List.map_map, List.sum_append, List.map_cons,
      List.map_nil, bytesOf, Function.comp_def, Option.map_some, Option.getD_some, hbytes]
    rw [Finset.sum_Ico_eq_sum_range]
    rfl
  | true, 0 => rfl
  | false, _ => rfl

end Standing

/-! ## What is live by then, and in the end -/

section Stored

variable (ttl : UInt64) (n : Nat)

/-- The live entries when the first batch has just expired. -/
theorem live_stored : ∃ rest, rest.Perm (standing (secondLives ttl) n).2 ∧
    liveAmong (policyOf ttl) ttl (stored (ttl / 2) n).entries =
      (standing (secondLives ttl) n).1 :: rest := by
  have hperm := perm_live (policyOf ttl) ttl (ttl / 2) n
  rw [policyOf_first (Nat.le_refl _), if_neg Bool.false_ne_true, List.nil_append, policyOf_second,
    ← cons_standing] at hperm
  obtain ⟨rest, hlive, hrest⟩ := eq_cons_of_perm (ascending_liveAmong _ _ (stored _ _).ascending)
    hperm (standing_least _ n)
  exact ⟨rest, hrest, hlive⟩

/-- In the end only the explicit null is live. -/
theorem live_stored_end : liveAmong (policyOf ttl) (Timestamp.clamp (2 * ttl.toNat))
    (stored (ttl / 2) n).entries = [("new:null", none)] := by
  have hlate : ttl.toNat ≤ (Timestamp.clamp (2 * ttl.toNat)).toNat := by
    have hlt := ttl.toNat_lt
    have hsize : UInt64.size = 2 ^ 64 := rfl
    rw [Timestamp.toNat_clamp]
    omega
  have hperm := perm_live (policyOf ttl) (Timestamp.clamp (2 * ttl.toNat)) (ttl / 2) n
  rw [policyOf_first hlate, policyOf_second_end] at hperm
  exact List.perm_singleton.mp hperm

/-- Without the first live entry the others are live. -/
theorem live_erased : (liveAmong (policyOf ttl) ttl
    ((stored (ttl / 2) n).erase (standing (secondLives ttl) n).1.1).entries).Perm
      (standing (secondLives ttl) n).2 := by
  obtain ⟨rest, hrest, hlive⟩ := live_stored ttl n
  have hasc := ascending_liveAmong (policyOf ttl) ttl (stored (ttl / 2) n).ascending
  rw [hlive] at hasc
  have hothers : ∀ e ∈ rest, (compare e.1 (standing (secondLives ttl) n).1.1 != .eq) = true := by
    intro e he
    have hgt := Std.OrientedCmp.gt_iff_lt.mpr ((List.pairwise_cons.mp hasc).1 e he)
    rw [hgt]
    rfl
  rw [liveAmong_erase, hlive, List.filter_cons_of_neg (by simp [Std.compare_self]),
    List.filter_eq_self.mpr hothers]
  exact hrest

/-- Without that entry nothing is live in the end, if it was the explicit null. -/
theorem isEmpty_live_erased_end : (liveAmong (policyOf ttl) (Timestamp.clamp (2 * ttl.toNat))
    ((stored (ttl / 2) n).erase (standing (secondLives ttl) n).1.1).entries).isEmpty =
      !standsFirst (secondLives ttl) n := by
  rw [liveAmong_erase, live_stored_end, key_standing]
  cases standsFirst (secondLives ttl) n <;> decide

end Stored

end Demo

end LazyExpiry
