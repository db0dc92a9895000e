import LazyExpiry.Proofs.Pass.Window
import LazyExpiry.Proofs.Views.Walk

/-!
# Looking leaves a store as it is

By a clock that stands still, looking for the next live entry of a store in memory leaves the
store with its counters, the policy and the clock alone (`Unmoved`). What a look comes to is
known as well : the first of the live entries beyond the cursor (`hasNext?_of_cons`,
`hasNext?_of_nil`).

So the two views that only look are known in full. A fresh pass hands out the live entries
(`Direct.list_eq`), and a store is empty to its readers if it has none (`Direct.isEmpty_eq`).
-/

namespace LazyExpiry

variable {κ α ρ : Type} [Ord κ] [Std.TransOrd κ] {w w' : World κ α}

theorem heldByLooking_unmoved (hstride : w.clock.stride = 0) :
    LiveEntries.HeldByLooking fun s : Memory.Position κ × World κ α => Unmoved w s.2 where
  advance {s} hs := by
    simp only [Cursor.advance, World.atPosition, Action.focus, Result.world_mapWorld,
      Memory.world_advance]
    exact hs
  now {s} hs := by
    have hnow := World.now_of_stride (w := s.2) (hs.clock_eq ▸ hstride)
    change Unmoved w (Context.now s.2).2
    rw [hnow]
    exact hs
  isLive _ _ hs := ⟨hs.memory_eq, hs.policy_eq, hs.clock_eq⟩
  note event hs := hs.note event

variable (hlock : w.memory.poisoned = false) (hstride : w.clock.stride = 0)

include hlock hstride

namespace LiveEntries

variable {it : LiveEntries κ α ρ} (position : Memory.Position κ) {key : κ} {value : Option α}
  {L : List (κ × Option α)}

/-- A look goes to the next live entry, and the others are beyond it. -/
theorem hasNext?_of_cons (h : Unmoved w w') (hfresh : it.lookahead = .fresh)
    (hlive : liveAmong w.policy w.clock.time (w.memory.table.after position.last) =
      (key, value) :: L) :
    ∃ n w'', hasNext? (it, position, w') = some (.ok true
        ({ it with removable := false, skipped := n, lookahead := .buffered key value },
          { last := some key }, w'')) ∧ Unmoved w w'' ∧
      liveAmong w.policy w.clock.time (w.memory.table.after (some key)) = L := by
  obtain ⟨n, ⟨last⟩, w'', -, hlook, hleft⟩ :=
    hasNext?_of_fresh position (h.frozen hlock hstride) hfresh
  rw [hlive] at hlook hleft
  have hshut := shut_of_hasNext? tracks_position rfl (fun _ _ hkept => by simp [hfresh] at hkept)
    hlook
  obtain ⟨stored, hstands, -⟩ := hshut.keepsHere rfl
  obtain rfl : last = some key := hstands
  have hmoved : Unmoved w w'' :=
    held_hasNext? (heldByLooking_unmoved hstride) (s := (it, position, w')) h hlook
  exact ⟨n, w'', hlook, hmoved, hleft⟩

/-- Without a live entry ahead a look comes to the end. -/
theorem hasNext?_of_nil (h : Unmoved w w') (hfresh : it.lookahead = .fresh)
    (hlive : liveAmong w.policy w.clock.time (w.memory.table.after position.last) = []) :
    ∃ s', hasNext? (it, position, w') = some (.ok false s') ∧ Unmoved w s'.2.2 := by
  obtain ⟨n, position', w'', -, hlook, -⟩ :=
    hasNext?_of_fresh position (h.frozen hlock hstride) hfresh
  rw [hlive] at hlook
  exact ⟨_, hlook, held_hasNext? (heldByLooking_unmoved hstride) (s := (it, position, w'))
    h hlook⟩

end LiveEntries

/-- A fresh pass hands out the live entries, and nothing else happens. -/
theorem Direct.list_eq [Std.LawfulEqOrd κ] (project : κ → Option α → ρ) :
    ∃ w', list project w = .ok (w.live.map fun e => project e.1 e.2) w' ∧ Unmoved w w' := by
  have houtcome := outcome_list hlock hstride project
  have hmoved : Unmoved w (list project w).world := by
    have hcollect := LiveEntries.held_collect (heldByLooking_unmoved hstride)
      (s := (({ project } : LiveEntries κ α ρ), ({} : Memory.Position κ), w)) (.refl w)
    simp only [list, pass, Store.entries, Result.map_ok, Result.bind_ok, Result.world_mapWorld]
    exact hcollect
  rcases hlist : list project w with ⟨items, w'⟩ | ⟨e, w'⟩ <;> rw [hlist] at houtcome hmoved
  · cases houtcome
    exact ⟨w', rfl, hmoved⟩
  · cases houtcome

/-- A store is empty to its readers if it has no live entry. -/
theorem Direct.isEmpty_eq [Std.LawfulEqOrd κ] :
    ∃ w', isEmpty w = .ok w.live.isEmpty w' ∧ Unmoved w w' := by
  have hlive : liveAmong w.policy w.clock.time (w.memory.table.after none) = w.live := by
    rw [Table.after_none, World.live_eq hlock]
  simp only [isEmpty, keys, pass, Store.entries, Result.map_ok, Result.bind_ok]
  rcases hl : w.live with - | ⟨⟨key, value⟩, L⟩ <;> rw [hl] at hlive
  · obtain ⟨s', hlook, hmoved⟩ := LiveEntries.hasNext?_of_nil hlock hstride {} (.refl w)
      (rfl : ({ project := fun key _ => key } : LiveEntries κ α κ).lookahead = .fresh) hlive
    rw [LiveEntries.hasNext?_eq_some, Option.some.injEq] at hlook
    simp only [hlook]
    exact ⟨_, rfl, hmoved.note _⟩
  · obtain ⟨n, w', hlook, hmoved, -⟩ := LiveEntries.hasNext?_of_cons hlock hstride {} (.refl w)
      (rfl : ({ project := fun key _ => key } : LiveEntries κ α κ).lookahead = .fresh) hlive
    rw [LiveEntries.hasNext?_eq_some, Option.some.injEq] at hlook
    simp only [hlook]
    exact ⟨_, rfl, hmoved.note _⟩

end LazyExpiry
