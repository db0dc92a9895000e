import Mathlib.Algebra.Order.BigOperators.Group.Finset
import LazyExpiry.Proofs.Demo.Stock
import LazyExpiry.Proofs.Point.Batch
import LazyExpiry.Proofs.Views.Pages
import LazyExpiry.Proofs.Views.Sweep

/-!
# What the demo logs

Each step of the demo either writes, looks, removes the first live entry, or turns the pages of
its store. What it answers is known by the live entries, and what it leaves is the store of before
but for a key that is gone (`World.without`) or pages that are counted (`World.leafed`). So the
whole course is told by a chain of equations, from the store that was filled (`stocked`) to the
one that is left (`left`).

`output_run` puts the numbers of `Stock` in : what a run logs, for all options. The bytes that it
logs are a sum of 64 bits. It is the sum itself up to 7·10^17 keys (`bytesLeft_lt`), and no batch
is as long : a vector takes less than 2^63 bytes, and each of its entries a few dozen.
-/

namespace LazyExpiry

section Steps

variable {κ α : Type} [Ord κ] {w w' : World κ α}

theorem Unmoved.without (h : Unmoved w w') (keys : List κ) :
    Unmoved (w.without keys) (w'.without keys) :=
  ⟨congrArg (Memory.without keys) h.memory_eq, h.policy_eq, h.clock_eq⟩

theorem Unmoved.leafed (h : Unmoved w w') (pages : Nat) :
    Unmoved (w.leafed pages) (w'.leafed pages) :=
  ⟨by simp only [World.leafed, h.memory_eq], h.policy_eq, h.clock_eq⟩

theorem Unmoved.not_poisoned (h : Unmoved w w') (hlock : w.memory.poisoned = false) :
    w'.memory.poisoned = false := by
  rw [h.memory_eq, hlock]

theorem Unmoved.stride_eq (h : Unmoved w w') (hstride : w.clock.stride = 0) :
    w'.clock.stride = 0 := by
  rw [h.clock_eq, hstride]

variable [Std.TransOrd κ]

theorem Unmoved.live_eq [Std.LawfulEqOrd κ] (h : Unmoved w w')
    (hlock : w.memory.poisoned = false) : w'.live = w.live := by
  rw [World.live_eq hlock, World.live_eq (h.memory_eq ▸ hlock), h.memory_eq, h.policy_eq,
    h.clock_eq]

variable (hlock : w.memory.poisoned = false) (hstride : w.clock.stride = 0)

include hlock hstride

theorem Direct.putAll_eq (batch : List (κ × Option α)) : putAll batch w =
    .ok () { w with memory := w.memory.written w.clock.time batch } := by
  rw [← World.putAll_apart, putAll_apart hlock, World.now_of_stride hstride]
  rfl

theorem Direct.put_eq (key : κ) (value : Option α) : put key value w =
    .ok () { w with memory := w.memory.written w.clock.time [(key, value)] } := by
  have hnow := World.now_of_stride hstride
  change World.onMemory (Memory.insert key ⟨value, w.clock.time⟩) (Context.now w).2 = _
  rw [hnow, World.onMemory, Action.focus, Memory.insert_of_not_poisoned hlock]
  rfl

end Steps

theorem Unmoved.moveTo {w w' : Demo.Place} (h : Unmoved w w') (t : Timestamp) :
    Unmoved (w.moveTo t) (w'.moveTo t) :=
  ⟨h.memory_eq, h.policy_eq, congrArg (Clock.set · t) h.clock_eq⟩

namespace Demo

/-! ## The steps that read -/

section Steps

variable {w : Place} (hlock : w.memory.poisoned = false) (hstride : w.clock.stride = 0)

include hlock hstride

theorem removeFirst_eq {e : String × Option String} {L : List (String × Option String)}
    (hlive : w.live = e :: L) :
    ∃ w', removeFirst w = .ok (some e.1) w' ∧ Unmoved (w.without [e.1]) w' := by
  obtain ⟨key, value⟩ := e
  have hafter : liveAmong w.policy w.clock.time (w.memory.table.after none) =
      (key, value) :: L := by
    rw [Table.after_none, ← World.live_eq hlock, hlive]
  obtain ⟨n, w₁, hlook, hmoved, -⟩ := LiveEntries.hasNext?_of_cons hlock hstride {} (.refl w)
    (rfl : ({ project := Prod.mk } : LiveEntries String String (String × Option String)).lookahead =
      .fresh) hafter
  have hitem : LiveEntries.nextItem?
      (({ project := Prod.mk, skipped := n, lookahead := .buffered key value } :
        LiveEntries String String (String × Option String)),
          ({ last := some key } : Memory.Position String), w₁) =
      some (.ok (key, value) ({ project := Prod.mk, skipped := n, removable := true },
        { last := some key }, w₁)) :=
    LiveEntries.nextItem?_of_hasNext? (LiveEntries.hasNext?_buffered rfl) rfl
  obtain ⟨w', hremove, hremoved⟩ := LiveEntries.removeCurrent_unmoved hlock hmoved
    (rfl : ({ project := Prod.mk, skipped := n, removable := true } :
      LiveEntries String String (String × Option String)).removable = true) key
  rw [LiveEntries.hasNext?_eq_some, Option.some.injEq] at hlook
  rw [LiveEntries.nextItem?_eq_some, Option.some.injEq] at hitem
  refine ⟨w', ?_, hremoved⟩
  simp only [removeFirst, Direct.entries, Direct.pass, Store.entries, Result.map_ok,
    Result.bind_ok, hlook, if_true, hitem, hremove, Result.mapWorld_ok]

theorem valueLengths_eq : ∃ w', valueLengths w = .ok (w.live.map fun e => lengthOf e.2) w' ∧
    Unmoved (w.leafed (w.memory.table.size ⌈/⌉ w.memory.pageSize.count)) w' := by
  have hserve := toServe_fresh w w.memory.pageSize
  have hback : PagedEntries.HandsBack lengthOf fun (_ : Nat) (value : Option String) (w : Place) =>
      (({ finish := fun w => .ok (lengthOf value) w } : Deferred Place UInt64), w) :=
    fun _ _ _ => ⟨rfl, fun _ => rfl⟩
  obtain ⟨w', hcollect, hmoved⟩ := PagedEntries.collectFrom_live
    (fun (_ : String) value => value) hback JoinRule.ofCount (w.memory.table.size + 1) 0 [] hlock
    hstride (.refl w) (Nat.lt_succ_of_le (Nat.le_of_eq (congrArg List.length hserve)))
  rw [hserve, List.nil_append, ← World.live_eq hlock] at hcollect
  rw [hserve] at hmoved
  refine ⟨w', ?_, hmoved⟩
  change (PagedEntries.collectFrom _ _ _ (w.memory.table.size + 1) 0 [] _ w).map _ = _
  exact congrArg (Result.map (·.getD [])) hcollect

theorem emptiness_eq : ∃ w', emptiness w = .ok (w.live.isEmpty, w.memory.table.isEmpty) w' ∧
    Unmoved w w' := by
  obtain ⟨w', hempty, hmoved⟩ := Direct.isEmpty_eq hlock hstride
  have hstored : World.onMemory Memory.isEmpty w' = .ok w.memory.table.isEmpty w' := by
    rw [World.onMemory, Action.focus, hmoved.memory_eq, Memory.isEmpty,
      Memory.observe_of_not_poisoned hlock, ← hmoved.memory_eq]
    rfl
  refine ⟨w', ?_, hmoved⟩
  rw [emptiness, hempty, Result.bind_ok]
  change (World.onMemory Memory.isEmpty w').map _ = _
  rw [hstored, Result.map_ok]

omit hstride in
theorem size_eq : World.onMemory Memory.size w = .ok w.memory.table.size w := by
  rw [World.onMemory, Action.focus, Memory.size, Memory.observe_of_not_poisoned hlock]
  rfl

omit hstride in
theorem stats_eq : World.onMemory Memory.stats w =
    .ok ⟨UInt64.ofNat w.memory.table.size, w.memory.counters⟩ w := by
  rw [World.onMemory, Action.focus, Memory.stats, Memory.observe_of_not_poisoned hlock]
  rfl

end Steps

/-! ## The stores on the way -/

/-- The place when the first batch has just expired. -/
def stocked (o : Options) : Place where
  memory :=
    { table := stored (o.ttl / 2) o.keys.toNat
      counters := { puts := UInt64.ofNat (2 * o.keys.toNat + 1) }
      pageSize := .ofNat o.pageSize.toNat }
  clock := { time := o.ttl }
  policy := policyOf o.ttl

/-- The pages of what is left by then, without the first live entry. -/
def pagesLeft (o : Options) : Nat := 2 * o.keys.toNat ⌈/⌉ max o.pageSize.toNat 1

/-- The place after the first live entry was removed and the pages of the others were turned. -/
def left (o : Options) : Place :=
  ((stocked o).without [(standing (secondLives o.ttl) o.keys.toNat).1.1]).leafed (pagesLeft o)

section Stores

variable (o : Options)

/-- Batch by batch the store is filled with all of them. -/
theorem written_stock : (((Place.start o).memory.written 0 (batch "old" o.keys.toNat)).written
    (o.ttl / 2) (batch "new" o.keys.toNat)).written (o.ttl / 2) [("new:null", none)] =
      (stocked o).memory := by
  have htable : ((Table.empty.insertAll (stampAll 0 (batch "old" o.keys.toNat))).insertAll
      (stampAll (o.ttl / 2) (batch "new" o.keys.toNat))).insertAll
        [("new:null", ⟨none, o.ttl / 2⟩)] = stored (o.ttl / 2) o.keys.toNat := by
    rw [stored, stock, Table.insertAll_append, Table.insertAll_append]
  have hputs : UInt64.ofNat o.keys.toNat + UInt64.ofNat o.keys.toNat + UInt64.ofNat 1 =
      UInt64.ofNat (2 * o.keys.toNat + 1) := by
    rw [← UInt64.ofNat_add, ← UInt64.ofNat_add, Nat.two_mul]
  simp only [Memory.written, Memory.count, Place.start, stocked, List.length_singleton,
    length_batch, UInt64.zero_add, hputs, Memory.mk.injEq, and_true]
  exact htable

theorem mem_stored : ∃ value, ((standing (secondLives o.ttl) o.keys.toNat).1.1, value) ∈
    (stored (o.ttl / 2) o.keys.toNat).entries := by
  obtain ⟨rest, -, hlive⟩ := live_stored o.ttl o.keys.toNat
  obtain ⟨value, hvalue, -⟩ := mem_liveAmong.mp (hlive ▸ List.mem_cons_self)
  exact ⟨value, hvalue⟩

theorem size_left : (left o).memory.table.size = 2 * o.keys.toNat := by
  obtain ⟨value, hvalue⟩ := mem_stored o
  have hsize := Table.size_erase hvalue
  rw [size_stored] at hsize
  exact Nat.succ.inj hsize

theorem isEmpty_left : (left o).memory.table.isEmpty = decide (o.keys.toNat = 0) := by
  have hsize : (left o).memory.table.entries.length = 2 * o.keys.toNat := size_left o
  rw [Bool.eq_iff_iff, Table.isEmpty, List.isEmpty_iff_length_eq_zero, hsize, decide_eq_true_iff]
  omega

theorem live_stocked : ∃ rest, rest.Perm (standing (secondLives o.ttl) o.keys.toNat).2 ∧
    (stocked o).live = (standing (secondLives o.ttl) o.keys.toNat).1 :: rest := by
  obtain ⟨rest, hrest, hlive⟩ := live_stored o.ttl o.keys.toNat
  exact ⟨rest, hrest, (World.live_eq rfl).trans hlive⟩

theorem live_without :
    ((stocked o).without [(standing (secondLives o.ttl) o.keys.toNat).1.1]).live.Perm
      (standing (secondLives o.ttl) o.keys.toNat).2 := by
  rw [World.live_eq rfl]
  exact live_erased o.ttl o.keys.toNat

theorem isEmpty_live_left :
    (left o).live.isEmpty = !standsFirst (secondLives o.ttl) o.keys.toNat := by
  rw [← isEmpty_standing, ← (live_without o).isEmpty_eq, World.live_eq rfl, World.live_eq rfl]
  rfl

/-- In the end the store is empty to its readers if the explicit null was removed. -/
theorem isEmpty_live_end : ((left o).moveTo (Timestamp.clamp (2 * o.ttl.toNat))).live.isEmpty =
    !standsFirst (secondLives o.ttl) o.keys.toNat := by
  rw [World.live_eq rfl]
  exact isEmpty_live_erased_end o.ttl o.keys.toNat

end Stores

/-! ## The course -/

/-- The bytes of the values that are live when the first live entry has been removed. -/
def bytesLeft (o : Options) : Nat :=
  if secondLives o.ttl && decide (0 < o.keys.toNat) then
    ∑ i ∈ Finset.Ico 1 o.keys.toNat, (6 + (Nat.digits 10 i).length)
  else 0

/-- The lines that a run logs when it counts these bytes. -/
def report (o : Options) (bytes : Nat) : List String :=
  let n := o.keys.toNat
  let lives := secondLives o.ttl
  let live := if lives then n + 1 else 1
  let key := if lives && decide (0 < n) then "new:0" else "new:null"
  let empty := !(lives && decide (0 < n))
  let bare := decide (n = 0)
  let pages := 2 * n ⌈/⌉ max o.pageSize.toNat 1
  let stats := s!"StateStats \x7b entries: {2 * n}, gets: {0}, puts: {2 * n + 1}, " ++
    s!"removes: {1}, pages: {pages} \x7d"
  [s!"INFO first batch expired now={o.ttl} stored={2 * n + 1}",
    s!"INFO sync iteration live={live}",
    s!"INFO removed first live entry during iteration key=b\"{key}\"",
    s!"INFO async paged iteration live={live - 1} bytes={bytes}",
    s!"INFO emptiness checks sync_empty={empty} async_empty={bare}",
    s!"INFO everything expired, nothing deleted sync_empty={empty} " ++
      s!"async_empty={bare} stored={2 * n}",
    s!"INFO Stats: {stats}"]

theorem toString_ofNat (n : Nat) : toString (UInt64.ofNat n) = toString (n % 2 ^ 64) := by
  change toString (UInt64.ofNat n).toNat = _
  rw [UInt64.toNat_ofNat']

section Course

variable (o : Options)

/-- The writes fill the store. -/
theorem tour_fill : ∃ w₁ w₂ w₃,
    Direct.putAll (batch "old" o.keys.toNat) (Place.start o) = .ok () w₁ ∧
    Direct.putAll (batch "new" o.keys.toNat) (w₁.moveTo (o.ttl / 2)) = .ok () w₂ ∧
    Direct.put "new:null" none w₂ = .ok () w₃ ∧ w₃.moveTo o.ttl = stocked o := by
  refine ⟨_, _, _, Direct.putAll_eq rfl rfl _, Direct.putAll_eq rfl rfl _,
    Direct.put_eq rfl rfl _ _, ?_⟩
  have hmemory := written_stock o
  simp only [Place.moveTo, Clock.set, stocked] at hmemory ⊢
  rw [← hmemory]
  rfl

/-- The steps that read answer by what is live, and remove one entry. -/
theorem tour_walk : ∃ w₁ w₂ w₃ w₄ w₅ keys lengths,
    Direct.list (fun key _ => key) (stocked o) = .ok keys w₁ ∧
    removeFirst w₁ = .ok (some (standing (secondLives o.ttl) o.keys.toNat).1.1) w₂ ∧
    valueLengths w₂ = .ok lengths w₃ ∧
    emptiness w₃ =
      .ok (!standsFirst (secondLives o.ttl) o.keys.toNat, decide (o.keys.toNat = 0)) w₄ ∧
    emptiness (w₄.moveTo (Timestamp.clamp (2 * o.ttl.toNat))) =
      .ok (!standsFirst (secondLives o.ttl) o.keys.toNat, decide (o.keys.toNat = 0)) w₅ ∧
    Unmoved ((left o).moveTo (Timestamp.clamp (2 * o.ttl.toNat))) w₅ ∧
    keys.length = (standing (secondLives o.ttl) o.keys.toNat).2.length + 1 ∧
    lengths.length = (standing (secondLives o.ttl) o.keys.toNat).2.length ∧
    total lengths = UInt64.ofNat (bytesLeft o) := by
  obtain ⟨rest, hrest, hlive⟩ := live_stocked o
  obtain ⟨w₁, hkeys, h₁⟩ := Direct.list_eq (w := stocked o) rfl rfl fun key _ => key
  obtain ⟨w₂, hremove, h₂⟩ := removeFirst_eq (h₁.not_poisoned rfl) (h₁.stride_eq rfl)
    ((h₁.live_eq rfl).trans hlive)
  have h₂ := (h₁.without _).trans h₂
  obtain ⟨w₃, hlengths, h₃⟩ := valueLengths_eq (h₂.not_poisoned rfl) (h₂.stride_eq rfl)
  have h₃ : Unmoved (left o) w₃ := by
    have hpages : w₂.memory.table.size ⌈/⌉ w₂.memory.pageSize.count = pagesLeft o := by
      rw [h₂.memory_eq, pagesLeft, ← size_left]
      rfl
    rw [hpages] at h₃
    exact (h₂.leafed (pagesLeft o)).trans h₃
  obtain ⟨w₄, hbefore, h₄⟩ := emptiness_eq (h₃.not_poisoned rfl) (h₃.stride_eq rfl)
  have h₄ := (h₃.trans h₄).moveTo (Timestamp.clamp (2 * o.ttl.toNat))
  obtain ⟨w₅, hafter, h₅⟩ := emptiness_eq (h₄.not_poisoned rfl) (h₄.stride_eq rfl)
  rw [h₃.live_eq rfl, h₃.memory_eq, isEmpty_live_left, isEmpty_left] at hbefore
  rw [h₄.live_eq rfl, h₄.memory_eq, isEmpty_live_end] at hafter
  refine ⟨w₁, w₂, w₃, w₄, w₅, _, _, hkeys, hremove, hlengths, hbefore, hafter.trans ?_,
    h₄.trans h₅, ?_, ?_, ?_⟩
  · exact congrArg (fun bare => Result.ok (_, bare) w₅) (isEmpty_left o)
  · rw [hlive, List.length_map, List.length_cons, hrest.length_eq]
  · rw [h₂.live_eq rfl, List.length_map, (live_without o).length_eq]
  · have hbytes := ((live_without o).map fun e => bytesOf e.2).sum_eq
    rw [bytes_standing] at hbytes
    rw [h₂.live_eq rfl, total_lengths, hbytes]
    rfl

/-- Whatever the options, a run comes to its end. Its last line shows the counters as they are,
modulo 2^64. -/
theorem tour_ends : ∃ w', tour o { place := Place.start o } = .ok ()
    ⟨w', (report o (bytesLeft o % 2 ^ 64)).dropLast ++ ["INFO Stats: " ++
      Stats.describe ⟨UInt64.ofNat (2 * o.keys.toNat), (left o).memory.counters⟩]⟩ := by
  obtain ⟨w₁, w₂, w₃, hold, hnew, hnull, hstocked⟩ := tour_fill o
  have hnew' : (Async.putAll (batch "new" o.keys.toNat) (w₁.moveTo (o.ttl / 2))).1.await
      (Async.putAll (batch "new" o.keys.toNat) (w₁.moveTo (o.ttl / 2))).2 = .ok () w₂ := hnew
  have hnull' : (Async.put "new:null" none w₂).1.await (Async.put "new:null" none w₂).2 =
      .ok () w₃ := hnull
  obtain ⟨v₁, v₂, v₃, v₄, v₅, keys, lengths, hkeys, hremove, hlengths, hbefore, hafter, hmoved,
    hlive, hcount, hbytes⟩ := tour_walk o
  have hstored : World.onMemory Memory.size (stocked o) =
      .ok (2 * o.keys.toNat + 1) (stocked o) :=
    (size_eq rfl).trans (congrArg (Result.ok · _) (size_stored _ _))
  have hsize : v₅.memory.table.size = 2 * o.keys.toNat := by
    rw [hmoved.memory_eq]
    exact size_left o
  have hleft := size_eq (hmoved.not_poisoned rfl)
  have hstats := stats_eq (hmoved.not_poisoned rfl)
  have hcounters : v₅.memory.counters = (left o).memory.counters :=
    congrArg Memory.counters hmoved.memory_eq
  have hlive' : keys.length = if secondLives o.ttl then o.keys.toNat + 1 else 1 := by
    rw [hlive, length_standing]
    split <;> rfl
  have hcount' : lengths.length = keys.length - 1 := by
    rw [hcount, hlive, Nat.add_sub_cancel]
  refine ⟨v₅, ?_⟩
  simp only [tour, Course.step, Course.await, Course.moveTo, Course.log, Action.focus, hold, hnew',
    hnull', hstocked, Result.mapWorld_ok, Result.bind_ok, hstored, hkeys, hremove, hlengths,
    hbefore, hafter, hleft, hstats, hsize, hcounters, hbytes, toString_ofNat, hcount', hlive',
    key_standing]
  rfl

end Course

end Demo

end LazyExpiry
