import LazyExpiry.Cursor

/-!
# The live entries under a cursor

`LiveEntries` is the state of one pass over the live entries of a store. The pass looks
at most one live entry ahead : `hasNext` searches for it (`seek`) and keeps it, and
`nextItem` hands it out through the pass's `project`, so that entries, keys and values
are three views of one pass. An expired entry is counted and left where it is.

`removeCurrent` removes the entry handed out last. Looking ahead moves the cursor off
that entry, so the removal is allowed only in the window that `nextItem` opens and that
every further `hasNext` or `nextItem` closes, as does the removal itself.

A cursor may answer expired entries for ever, and then the search for a live one does
not return : `seek?` and what rests on it are partial, and `Sought` says by rules what a
search comes to. Over a cursor that settles they do return (`hasNext?_eq_some`), which
makes `hasNext`, `nextItem` and `next` actions.

`next` is the pass seen as a sequence that ends at its first failure, and `collect` is
the rest of that sequence. It returns because every item handed out leaves the pass with
less room ahead (`room_next?`).
-/

namespace LazyExpiry

/-- What a pass knows about the next live entry. -/
inductive Lookahead (κ α : Type) where
  /-- Nothing yet. -/
  | fresh
  /-- It has been found and not handed out. -/
  | buffered (key : κ) (value : Option α)
  /-- There is none, and there will be none. -/
  | exhausted

/-- One pass over the live entries of a store, apart from its cursor. -/
structure LiveEntries (κ α ρ : Type) where
  /-- The item made of a live entry. -/
  project : κ → Option α → ρ
  lookahead : Lookahead κ α := .fresh
  /-- Whether the entry handed out last may be removed now. -/
  removable : Bool := false
  /-- Expired entries passed over so far, counted in 64 bits. -/
  skipped : UInt64 := 0

namespace LiveEntries

variable {ω κ α ρ : Type} [Context ω] [Cursor ω κ (Stamped α)]

/-! ## Looking ahead -/

/-- Pulls entries until one is live, counting the expired ones before it. There is no
result if expired entries come for ever. -/
def seek? (skipped : UInt64) (w : ω) : Option (Result (UInt64 × ω) (Option (κ × Option α))) :=
  match pull w with
  | .error e w' => some (.error e (skipped, w'))
  | .ok (.live key value) w' => some (.ok (some (key, value)) (skipped, w'))
  -- The search goes on in the world that the pull has left.
  | .ok .expired w' => (seek? (w := w')) (skipped + 1)
  | .ok .ended w' => some (.ok none (skipped, w'))
partial_fixpoint

/-- What a search comes to, pull by pull. -/
inductive Sought : UInt64 → ω → Result (UInt64 × ω) (Option (κ × Option α)) → Prop where
  | failed {skipped : UInt64} {w w' : ω} {e : StoreError} :
    pull w = .error e w' → Sought skipped w (.error e (skipped, w'))
  | found {skipped : UInt64} {w w' : ω} {key : κ} {value : Option α} :
    pull w = .ok (.live key value) w' → Sought skipped w (.ok (some (key, value)) (skipped, w'))
  | passed {skipped : UInt64} {w w' : ω} {r : Result (UInt64 × ω) (Option (κ × Option α))} :
    pull w = .ok .expired w' → Sought (skipped + 1) w' r → Sought skipped w r
  | ended {skipped : UInt64} {w w' : ω} :
    pull w = .ok .ended w' → Sought skipped w (.ok none (skipped, w'))

theorem sought_of_seek? {skipped : UInt64} {w : ω} {r : Result (UInt64 × ω) (Option (κ × Option α))}
    (h : seek? skipped w = some r) : Sought skipped w r := by
  refine seek?.partial_correctness Sought (fun _ ih skipped w r h => ?_) skipped w r h
  split at h
  · rename_i hp
    exact Option.some.inj h ▸ .failed hp
  · rename_i hp
    exact Option.some.inj h ▸ .found hp
  · rename_i hp
    exact .passed hp (ih _ _ _ h)
  · rename_i hp
    exact Option.some.inj h ▸ .ended hp

theorem Sought.seek?_eq {skipped : UInt64} {w : ω} {r : Result (UInt64 × ω) (Option (κ × Option α))}
    (h : Sought skipped w r) : seek? skipped w = some r := by
  induction h with
  | failed hp => rw [seek?, hp]
  | found hp => rw [seek?, hp]
  | passed hp _ ih =>
    rw [seek?, hp]
    exact ih
  | ended hp => rw [seek?, hp]

theorem seek?_eq_some_iff {skipped : UInt64} {w : ω}
    {r : Result (UInt64 × ω) (Option (κ × Option α))} :
    seek? skipped w = some r ↔ Sought skipped w r :=
  ⟨sought_of_seek?, Sought.seek?_eq⟩

/-- The pass after a search, and whether the search found an entry, which is then kept. -/
def settle (it : LiveEntries κ α ρ) :
    Result (UInt64 × ω) (Option (κ × Option α)) → Result (LiveEntries κ α ρ × ω) Bool
  | .error e s => .error e ({ it with skipped := s.1 }, s.2)
  | .ok (some (key, value)) s =>
    .ok true ({ it with skipped := s.1, lookahead := .buffered key value }, s.2)
  | .ok none s =>
    .ok false ({ it with skipped := s.1, lookahead := .exhausted },
      Context.note (.exhausted s.1) s.2)

/-- Whether another live entry exists, which is then kept for `nextItem`. Closes the
removal window. A failure of the cursor leaves the pass as it is, apart from what it has
already skipped. -/
def hasNext? : LiveEntries κ α ρ × ω → Option (Result (LiveEntries κ α ρ × ω) Bool)
  | (it, w) =>
    let it := { it with removable := false }
    match it.lookahead with
    | .buffered _ _ => some (.ok true (it, w))
    | .exhausted => some (.ok false (it, w))
    | .fresh => (seek? it.skipped w).map it.settle

/-- Hands out the entry kept by `hasNext` and opens the removal window. -/
def handOut : Action (LiveEntries κ α ρ × ω) ρ := fun (it, w) =>
  match it.lookahead with
  | .buffered key value =>
    .ok (it.project key value) ({ it with lookahead := .fresh, removable := true }, w)
  | _ => .error .endOfSequence (it, w)

/-- The next live entry as an item. -/
def nextItem? (s : LiveEntries κ α ρ × ω) : Option (Result (LiveEntries κ α ρ × ω) ρ) :=
  (hasNext? s).map fun
    | .ok true s' => handOut s'
    | .ok false s' => .error .endOfSequence s'
    | .error e s' => .error e s'

/-- Removes the entry handed out last, while the window is open. A removal that fails
leaves the window open. -/
def removeCurrent : Action (LiveEntries κ α ρ × ω) Unit := fun (it, w) =>
  if it.removable then
    match Cursor.removeCurrent w with
    | .ok () w' => .ok () ({ it with removable := false }, w')
    | .error e w' => .error e (it, w')
  else .error .invalidIteratorState (it, w)

/-! ## The pass as a sequence -/

/-- The next item, or `none` at the end. After a failure the sequence is at its end. -/
def next? (s : LiveEntries κ α ρ × ω) : Option (Result (LiveEntries κ α ρ × ω) (Option ρ)) :=
  (hasNext? s).bind fun
    | .ok true s' => (nextItem? s').map (·.map some)
    | .ok false s' => some (.ok none s')
    | .error e (it, w) => some (.error e ({ it with lookahead := .exhausted }, w))

/-! ## Passes that return -/

theorem isSome_seek? [Settles ω κ α] (skipped : UInt64) (w : ω) :
    (seek? skipped w : Option (Result (UInt64 × ω) (Option (κ × Option α)))).isSome := by
  rw [seek?]
  split
  · rfl
  · rfl
  · exact isSome_seek? _ _
  · rfl
termination_by Settles.expiredAhead w
decreasing_by exact Settles.expiredAhead_pull ‹_›

section Settled

variable [Settles ω κ α]

theorem isSome_hasNext? (s : LiveEntries κ α ρ × ω) : (hasNext? s).isSome := by
  unfold hasNext?
  dsimp only
  split
  · rfl
  · rfl
  · rw [Option.isSome_map]
    exact isSome_seek? _ _

theorem isSome_nextItem? (s : LiveEntries κ α ρ × ω) : (nextItem? s).isSome := by
  rw [nextItem?, Option.isSome_map]
  exact isSome_hasNext? s

theorem isSome_next? (s : LiveEntries κ α ρ × ω) : (next? s).isSome := by
  obtain ⟨r, hr⟩ := Option.isSome_iff_exists.mp (isSome_hasNext? s)
  rw [next?, hr, Option.bind_some]
  split
  · rw [Option.isSome_map]
    exact isSome_nextItem? _
  · rfl
  · rfl

/-- `hasNext?` over a cursor that settles. -/
def hasNext : Action (LiveEntries κ α ρ × ω) Bool := fun s => (hasNext? s).get (isSome_hasNext? s)

/-- `nextItem?` over a cursor that settles. -/
def nextItem : Action (LiveEntries κ α ρ × ω) ρ := fun s => (nextItem? s).get (isSome_nextItem? s)

/-- `next?` over a cursor that settles. -/
def next : Action (LiveEntries κ α ρ × ω) (Option ρ) := fun s => (next? s).get (isSome_next? s)

theorem hasNext?_eq_some (s : LiveEntries κ α ρ × ω) : hasNext? s = some (hasNext s) :=
  (Option.some_get _).symm

theorem nextItem?_eq_some (s : LiveEntries κ α ρ × ω) : nextItem? s = some (nextItem s) :=
  (Option.some_get _).symm

theorem next?_eq_some (s : LiveEntries κ α ρ × ω) : next? s = some (next s) :=
  (Option.some_get _).symm

end Settled

section Rest

variable [Drains ω κ (Stamped α)]

/-- A bound on the items still to come : the entries ahead of the cursor, and the one
that is kept. -/
def room (s : LiveEntries κ α ρ × ω) : Nat :=
  Drains.ahead s.2 +
    match s.1.lookahead with
    | .buffered _ _ => 1
    | _ => 0

theorem Sought.ahead_lt {skipped : UInt64} {w : ω} {e : κ × Option α} {s : UInt64 × ω}
    (h : Sought skipped w (.ok (some e) s)) : Drains.ahead s.2 < Drains.ahead w := by
  generalize hr : Result.ok (some e) s = r at h
  induction h with
  | failed => cases hr
  | found hp =>
    cases hr
    exact Drains.ahead_pull hp (by simp)
  | passed hp _ ih => exact Nat.lt_trans (ih hr) (Drains.ahead_pull hp (by simp))
  | ended => cases hr

/-- Finding an entry and keeping it leaves no more room than there was. -/
theorem room_hasNext? {s s' : LiveEntries κ α ρ × ω} (h : hasNext? s = some (.ok true s')) :
    room s' ≤ room s := by
  obtain ⟨it, w⟩ := s
  unfold hasNext? at h
  dsimp only at h
  split at h
  · rename_i hl
    cases h
    simp [room, hl]
  · cases h
  · rename_i hl
    obtain ⟨r, hr, hs⟩ := Option.map_eq_some_iff.mp h
    unfold settle at hs
    split at hs <;> cases hs
    have := (sought_of_seek? hr).ahead_lt
    simp only [room, hl]
    omega

/-- Handing out the entry that was kept makes less room. -/
theorem room_handOut {s s' : LiveEntries κ α ρ × ω} {item : ρ}
    (h : handOut s = .ok item s') : room s' < room s := by
  obtain ⟨it, w⟩ := s
  unfold handOut at h
  dsimp only at h
  split at h
  · rename_i hl
    cases h
    simp [room, hl]
  · cases h

theorem room_nextItem? {s s' : LiveEntries κ α ρ × ω} {item : ρ}
    (h : nextItem? s = some (.ok item s')) : room s' < room s := by
  obtain ⟨r, hr, hi⟩ := Option.map_eq_some_iff.mp h
  split at hi
  · exact Nat.lt_of_lt_of_le (room_handOut hi) (room_hasNext? hr)
  · cases hi
  · cases hi

/-- Every item of the sequence leaves less room ahead. -/
theorem room_next? {s s' : LiveEntries κ α ρ × ω} {item : ρ}
    (h : next? s = some (.ok (some item) s')) : room s' < room s := by
  obtain ⟨r, hr, hi⟩ := Option.bind_eq_some_iff.mp h
  split at hi
  · obtain ⟨r', hr', hm⟩ := Option.map_eq_some_iff.mp hi
    obtain ⟨_, rfl, ⟨⟩⟩ := Result.map_eq_ok_iff.mp hm
    exact Nat.lt_of_lt_of_le (room_nextItem? hr') (room_hasNext? hr)
  · cases hi
  · cases hi

/-- The rest of the sequence as a list, or its first failure. -/
def collect (s : LiveEntries κ α ρ × ω) : Result (LiveEntries κ α ρ × ω) (List ρ) :=
  match _h : next s with
  | .ok none s' => .ok [] s'
  | .ok (some item) s' => (collect s').map (item :: ·)
  | .error e s' => .error e s'
termination_by room s
decreasing_by exact room_next? (_h ▸ next?_eq_some s)

theorem collect_eq (s : LiveEntries κ α ρ × ω) :
    collect s =
      match next s with
      | .ok none s' => .ok [] s'
      | .ok (some item) s' => (collect s').map (item :: ·)
      | .error e s' => .error e s' := by
  rw [collect]
  split <;> rename_i h <;> rw [h]

theorem collect_of_ended {s s' : LiveEntries κ α ρ × ω} (h : next? s = some (.ok none s')) :
    collect s = .ok [] s' := by
  rw [next?_eq_some, Option.some.injEq] at h
  rw [collect_eq, h]

theorem collect_of_item {s s' : LiveEntries κ α ρ × ω} {item : ρ}
    (h : next? s = some (.ok (some item) s')) : collect s = (collect s').map (item :: ·) := by
  rw [next?_eq_some, Option.some.injEq] at h
  rw [collect_eq, h]

end Rest

end LiveEntries

end LazyExpiry
