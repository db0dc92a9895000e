import LazyExpiry.Action
import LazyExpiry.Table

/-!
# The store in memory

`Memory κ ν` is the reference store : an ordered `Table`, four counters, and a lock that
may be poisoned. The counters wrap around at 64 bits and are raised before the lock is
taken, so an attempt counts even if the lock is poisoned ; everything that needs the
table then fails, and the table stays as it is (`locked`).

Two kinds of position resume from the last key that they answered, whether or not it is
still stored. A `Position` is a cursor : `advance` answers the first entry beyond it, and
`removeLast` deletes the key it stands at. A `Pages` source serves up to a page of entries
at a time and takes itself for drained after a page that was not full.
-/

namespace LazyExpiry

/-- How many entries a page holds, at least one. -/
structure PageSize where
  /-- The number of entries. -/
  count : Nat
  count_pos : 0 < count

namespace PageSize

/-- A page of `n` entries ; a page of none counts as a page of one. -/
def ofNat (n : Nat) : PageSize := ⟨max n 1, by omega⟩

/-- The size of a page unless another is asked for. -/
def standard : PageSize := ⟨128, by decide⟩

end PageSize

/-- Operations counted since a store was made, modulo 2^64. -/
structure Counters where
  /-- Point reads. -/
  gets : UInt64 := 0
  /-- Entries written, a batch counting every one of its entries. -/
  puts : UInt64 := 0
  /-- Removals, whether or not anything was there. -/
  removes : UInt64 := 0
  /-- Pages served. -/
  pages : UInt64 := 0
  deriving DecidableEq

/-- The counters of a store together with the number of entries it holds. -/
structure Stats where
  /-- Entries held, expired ones among them. -/
  entries : UInt64
  /-- Operations counted. -/
  counters : Counters
  deriving DecidableEq

/-- An ordered key-value store. -/
structure Memory (κ ν : Type) [Ord κ] where
  table : Table κ ν := .empty
  counters : Counters := {}
  /-- Entries to a page of the sources opened from now on. -/
  pageSize : PageSize := .standard
  /-- Whether the lock on the table is broken. -/
  poisoned : Bool := false

namespace Memory

variable {κ ν α : Type} [Ord κ]

/-- The failure of everything that needs the table behind a poisoned lock. -/
def lockPoisoned : StoreError := .backend "state lock poisoned"

/-- An operation on the table, which fails if the lock is poisoned. -/
def locked (x : Table κ ν → α × Table κ ν) : Action (Memory κ ν) α := fun m =>
  if m.poisoned then .error lockPoisoned m
  else .ok (x m.table).1 { m with table := (x m.table).2 }

/-- A look at the table, which fails if the lock is poisoned. -/
def observe (x : Table κ ν → α) : Action (Memory κ ν) α := locked fun t => (x t, t)

/-- The store with its counters changed. -/
def count (f : Counters → Counters) (m : Memory κ ν) : Memory κ ν :=
  { m with counters := f m.counters }

theorem locked_of_not_poisoned {x : Table κ ν → α × Table κ ν} {m : Memory κ ν}
    (h : m.poisoned = false) :
    locked x m = .ok (x m.table).1 { m with table := (x m.table).2 } := by
  simp [locked, h]

theorem observe_of_not_poisoned {x : Table κ ν → α} {m : Memory κ ν} (h : m.poisoned = false) :
    observe x m = .ok (x m.table) m :=
  locked_of_not_poisoned h

theorem locked_of_poisoned {x : Table κ ν → α × Table κ ν} {m : Memory κ ν}
    (h : m.poisoned = true) : locked x m = .error lockPoisoned m := by
  simp [locked, h]

theorem observe_of_poisoned {x : Table κ ν → α} {m : Memory κ ν} (h : m.poisoned = true) :
    observe x m = .error lockPoisoned m :=
  locked_of_poisoned h

theorem world_observe (x : Table κ ν → α) (m : Memory κ ν) : (observe x m).world = m := by
  unfold observe locked
  split <;> rfl

/-! ## Point operations -/

/-- The value under a key. Counts as a read. -/
def lookup (key : κ) : Action (Memory κ ν) (Option ν) := fun m =>
  observe (·.get? key) (m.count fun c => { c with gets := c.gets + 1 })

theorem lookup_of_not_poisoned {m : Memory κ ν} (h : m.poisoned = false) (key : κ) :
    lookup key m = .ok (m.table.get? key) (m.count fun c => { c with gets := c.gets + 1 }) :=
  observe_of_not_poisoned h

/-- Whether a key is stored. -/
def containsKey (key : κ) : Action (Memory κ ν) Bool := observe (·.contains key)

/-- Stores a value over any earlier one. Counts as a write. -/
def insert [Std.TransOrd κ] (key : κ) (value : ν) : Action (Memory κ ν) Unit := fun m =>
  locked (fun t => ((), t.insert key value)) (m.count fun c => { c with puts := c.puts + 1 })

theorem insert_of_not_poisoned [Std.TransOrd κ] {m : Memory κ ν} (h : m.poisoned = false) (key : κ)
    (value : ν) : insert key value m =
      .ok () { m.count fun c => { c with puts := c.puts + 1 } with
        table := m.table.insert key value } :=
  locked_of_not_poisoned h

/-- Stores all entries of a batch in order. Counts as one write for each of them. -/
def insertAll [Std.TransOrd κ] (batch : List (κ × ν)) : Action (Memory κ ν) Unit := fun m =>
  locked (fun t => ((), t.insertAll batch))
    (m.count fun c => { c with puts := c.puts + UInt64.ofNat batch.length })

theorem insertAll_of_not_poisoned [Std.TransOrd κ] {m : Memory κ ν} (h : m.poisoned = false)
    (batch : List (κ × ν)) : insertAll batch m =
      .ok () { m.count fun c => { c with puts := c.puts + UInt64.ofNat batch.length } with
        table := m.table.insertAll batch } :=
  locked_of_not_poisoned h

/-- Deletes a key and answers whether it was stored. Counts as a removal either way. -/
def delete (key : κ) : Action (Memory κ ν) Bool := fun m =>
  locked (fun t => (t.contains key, t.erase key))
    (m.count fun c => { c with removes := c.removes + 1 })

theorem delete_of_not_poisoned {m : Memory κ ν} (h : m.poisoned = false) (key : κ) :
    delete key m = .ok (m.table.contains key)
      { m.count fun c => { c with removes := c.removes + 1 } with table := m.table.erase key } :=
  locked_of_not_poisoned h

/-- Removes every entry. -/
def clearAll : Action (Memory κ ν) Unit := locked fun _ => ((), .empty)

theorem clearAll_of_not_poisoned {m : Memory κ ν} (h : m.poisoned = false) :
    clearAll m = .ok () { m with table := .empty } :=
  locked_of_not_poisoned h

/-- The number of entries. -/
def size : Action (Memory κ ν) Nat := observe Table.size

/-- Whether there is no entry. -/
def isEmpty : Action (Memory κ ν) Bool := observe Table.isEmpty

/-- The counters and the number of entries. -/
def stats : Action (Memory κ ν) Stats := fun m =>
  observe (fun t => ⟨UInt64.ofNat t.size, m.counters⟩) m

/-- Breaks the lock, by a batch of two whose keys cannot be compared. The batch counts
as two writes, also when the lock is already broken and the attempt fails. -/
def poison : Action (Memory κ ν) Unit := fun m =>
  let counted := m.count fun c => { c with puts := c.puts + 2 }
  if m.poisoned then .error lockPoisoned counted else .ok () { counted with poisoned := true }

/-! ## Positions -/

/-- A cursor over a store in memory. -/
structure Position (κ : Type) where
  /-- The key answered last. -/
  last : Option κ := none

/-- Answers the first entry beyond the position and moves there. -/
def advance : Action (Position κ × Memory κ ν) (Option (κ × ν)) := fun s =>
  match observe (fun t => (t.after s.1.last).head?) s.2 with
  | .ok none m => .ok none (s.1, m)
  | .ok (some e) m => .ok (some e) ({ last := some e.1 }, m)
  | .error e m => .error e (s.1, m)

theorem advance_of_nil (position : Position κ) {m : Memory κ ν} (hlock : m.poisoned = false)
    (h : m.table.after position.last = []) : advance (position, m) = .ok none (position, m) := by
  rw [advance, observe_of_not_poisoned hlock, h]
  rfl

theorem advance_of_cons (position : Position κ) {m : Memory κ ν} (hlock : m.poisoned = false)
    {e : κ × ν} {rest : List (κ × ν)} (h : m.table.after position.last = e :: rest) :
    advance (position, m) = .ok (some e) ({ last := some e.1 }, m) := by
  rw [advance, observe_of_not_poisoned hlock, h]
  rfl

/-- Moving a cursor leaves the store alone. -/
theorem world_advance (s : Position κ × Memory κ ν) : (advance s).world.2 = s.2 := by
  have hlook := world_observe (fun t => (t.after s.1.last).head?) s.2
  unfold advance
  split <;> rename_i h <;> rw [h] at hlook <;> exact hlook

/-- An entry answered is no longer ahead. -/
theorem length_after_advance [Std.TransOrd κ] {s s' : Position κ × Memory κ ν} {e : κ × ν}
    (h : advance s = .ok (some e) s') :
    (s'.2.table.after s'.1.last).length < (s.2.table.after s.1.last).length := by
  unfold advance observe locked at h
  cases hp : s.2.poisoned
  · cases ha : s.2.table.after s.1.last with
    | nil => simp [hp, ha] at h
    | cons d rest =>
      simp only [hp, ha, Bool.false_eq_true, if_false, List.head?_cons, Result.ok.injEq,
        Option.some.injEq] at h
      obtain ⟨rfl, rfl⟩ := h
      simp [Table.after_of_after_eq_cons ha]
  · simp [hp] at h

/-- Deletes the key at the position, as often as it is asked to. Without a key there is
nothing to delete, and the store is not touched. -/
def removeLast : Action (Position κ × Memory κ ν) Unit := fun s =>
  match s.1.last with
  | none => .error .invalidIteratorState s
  | some key => ((delete key s.2).map fun _ => ()).mapWorld fun m => (s.1, m)

/-! ## Pages -/

/-- A page source over a store in memory. -/
structure Pages (κ : Type) where
  /-- Entries to a page. -/
  pageSize : PageSize
  /-- The last key served. -/
  last : Option κ := none
  /-- Whether the source takes itself for drained. -/
  drained : Bool := false

/-- Serves the entries beyond the last key served, up to a page of them. A page that is
not full is the last one, and an empty one is not served at all. -/
def nextPage : Action (Pages κ × Memory κ ν) (Option (List (κ × ν))) := fun s =>
  if s.1.drained then .ok none s
  else
    match observe (fun t => (t.after s.1.last).take s.1.pageSize.count) s.2 with
    | .error e m => .error e (s.1, m)
    | .ok page m =>
      let source := { s.1 with drained := decide (page.length < s.1.pageSize.count) }
      match page.getLast? with
      | none => .ok none (source, m)
      | some e =>
        .ok (some page) ({ source with last := some e.1 },
          m.count fun c => { c with pages := c.pages + 1 })

/-! ## Texts -/

/-- A store in memory, as it describes itself. -/
def describe (m : Memory κ ν) : String :=
  let c := m.counters
  s!"MemoryState \x7b page_size: {m.pageSize.count}, gets: {c.gets}, puts: {c.puts}, " ++
    s!"removes: {c.removes} \x7d"

end Memory

/-- Statistics, as they describe themselves. -/
def Stats.describe (s : Stats) : String :=
  let c := s.counters
  s!"StateStats \x7b entries: {s.entries}, gets: {c.gets}, puts: {c.puts}, " ++
    s!"removes: {c.removes}, pages: {c.pages} \x7d"

end LazyExpiry
