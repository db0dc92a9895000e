import LazyExpiry.Proofs.Lock.Operations

/-!
# What a session keeps behind a broken lock

Whatever is open in a session is found under a handle of its kind (`Session.under`). A step can
open, change or close some of it, which its form tells (`Step.touches`) ; all the rest is kept,
and so is the store, but for the attempts that are counted (`Session.Keeps`). What is kept
step by step is kept by a run (`Keeps.trans`).

A session is `Broken` if the lock of its store is, and if all that is open in it was opened by the
store in memory itself (`Plain`), with no script of the watch in its place and no fault planned.
-/

namespace LazyExpiry

variable {κ α ν β γ : Type}

/-! ## Tables under handles -/

namespace Table

variable {touched : Handle → Prop} {key : Handle} {v : ν} {t t' : Table Handle ν}

/-- The tables differ under the keys touched at most. -/
def SameOff (touched : Handle → Prop) (t t' : Table Handle ν) : Prop :=
  ∀ k, ¬touched k → t'.get? k = t.get? k

theorem sameOff_insert (h : touched key) (v : ν) (t : Table Handle ν) :
    SameOff touched t (t.insert key v) := fun k hk => by
  have hne : k ≠ key := fun heq => hk (heq ▸ h)
  rw [get?_insert, if_neg hne]

theorem sameOff_erase (h : touched key) (t : Table Handle ν) : SameOff touched t (t.erase key) :=
  fun k hk => by
    have hne : k ≠ key := fun heq => hk (heq ▸ h)
    rw [get?_erase, if_neg hne]

/-- Inserting what is there changes nothing. -/
theorem sameOff_insert_same (h : t.get? key = some v) : SameOff touched t (t.insert key v) := by
  intro k _
  rw [get?_insert]
  split
  · rename_i hk
    rw [hk, h]
  · rfl

theorem get?_insert_self (key : Handle) (v : ν) (t : Table Handle ν) :
    (t.insert key v).get? key = some v := by
  rw [get?_insert, if_pos rfl]

theorem get?_erase_self (key : Handle) (t : Table Handle ν) : (t.erase key).get? key = none := by
  rw [get?_erase, if_pos rfl]

/-- A half of what is there that is inserted again, is the same. -/
theorem map_snd_insert {t : Table Handle (β × γ)} {b : β} {c : γ} (h : t.get? key = some (b, c))
    (b' : β) (k : Handle) :
    ((t.insert key (b', c)).get? k).map Prod.snd = (t.get? k).map Prod.snd := by
  rw [get?_insert]
  split
  · rename_i hk
    rw [hk, h]
    rfl
  · rfl

/-- All values are so. -/
def All (P : ν → Prop) (t : Table Handle ν) : Prop := ∀ k v, t.get? k = some v → P v

theorem all_empty (P : ν → Prop) : (empty : Table Handle ν).All P := fun _ _ h => by cases h

theorem All.insert {P : ν → Prop} (h : t.All P) (key : Handle) (hv : P v) :
    (t.insert key v).All P := fun k u hu => by
  rw [get?_insert] at hu
  split at hu
  · cases hu
    exact hv
  · exact h k u hu

theorem All.erase {P : ν → Prop} (h : t.All P) (key : Handle) : (t.erase key).All P :=
  fun k u hu => by
    rw [get?_erase] at hu
    split at hu
    · cases hu
    · exact h k u hu

end Table

/-! ## What is open -/

/-- The kinds of what is open in a session. The cursor of a pass is one by itself. -/
inductive Slot where
  | pass | passCursor | paged | pending | cursor | source

/-- What is open under a handle. -/
inductive Opened (κ α : Type) [Ord κ] where
  | pass (it : LiveEntries κ α (Item κ α)) (cursor : DeskCursor κ α)
  | passCursor (cursor : DeskCursor κ α)
  | paged (it : PagedEntries (DeskPages κ α) κ α (Item κ α))
  | pending (p : Pending κ α)
  | cursor (position : Memory.Position κ)
  | source (source : Memory.Pages κ)

/-- What a step behind a broken lock may open, change or close. The cursor of a pass is touched
only when the pass is opened or closed. -/
def Step.touches : Step κ α → List (Slot × Handle)
  | openPass handle _ | close handle => [(.pass, handle), (.passCursor, handle)]
  | hasNext handle | nextItem handle | next handle | collect handle => [(.pass, handle)]
  | openPaged handle _ | collectEach handle _ | deliverEach handle _ => [(.paged, handle)]
  | start handle _ | drop handle => [(.pending, handle)]
  | await handle => [(.pending, handle), (.paged, handle), (.source, handle)]
  | openCursor handle => [(.cursor, handle)]
  | openPages handle => [(.source, handle)]
  | perform _ | removeCurrent _ | skipped _ | pagedIsEmpty _ | advanceCursor _ | removeAtCursor _
  | nextPage _ => []

namespace Session

variable [Ord κ]

/-- What is open under a handle of some kind. -/
def under (s : Session κ α) : Slot → Handle → Option (Opened κ α)
  | .pass, handle => (s.passes.get? handle).map fun p => .pass p.1 p.2
  | .passCursor, handle => ((s.passes.get? handle).map Prod.snd).map .passCursor
  | .paged, handle => (s.paged.get? handle).map .paged
  | .pending, handle => (s.pending.get? handle).map .pending
  | .cursor, handle => (s.cursors.get? handle).map .cursor
  | .source, handle => (s.sources.get? handle).map .source

/-- The second session is the first after some attempts, with nothing changed that is not
touched. -/
structure Keeps (touched : List (Slot × Handle)) (a : Attempts) (s s' : Session κ α) : Prop where
  desk : s.desk.Tried a s'.desk
  under_eq : ∀ slot handle, (slot, handle) ∉ touched → s'.under slot handle = s.under slot handle

variable {s s' s'' : Session κ α} {touched touched' : List (Slot × Handle)} {a b : Attempts}
  {d : Desk κ α}

theorem Keeps.refl (s : Session κ α) : s.Keeps [] {} s := ⟨.refl _, fun _ _ _ => rfl⟩

theorem Keeps.trans (h : s.Keeps touched a s') (h' : s'.Keeps touched' b s'') :
    s.Keeps (touched ++ touched') (a + b) s'' where
  desk := h.desk.trans h'.desk
  under_eq slot handle hnot :=
    (h'.under_eq slot handle fun hmem => hnot (List.mem_append_right _ hmem)).trans
      (h.under_eq slot handle fun hmem => hnot (List.mem_append_left _ hmem))

theorem Keeps.after (h : s.Keeps touched a s') (h' : s'.Keeps touched {} s'') :
    s.Keeps touched a s'' where
  desk := h.desk.after h'.desk
  under_eq slot handle hnot := (h'.under_eq slot handle hnot).trans (h.under_eq slot handle hnot)

/-! ## Changes of one kind -/

theorem keeps_desk (h : s.desk.Tried a d) : s.Keeps touched a { s with desk := d } :=
  ⟨h, fun _ _ _ => rfl⟩

theorem keeps_passes (h : s.desk.Tried a d) {passes}
    (hpasses : s.passes.SameOff (fun k => (.pass, k) ∈ touched) passes)
    (hcursors : ∀ k, (.passCursor, k) ∉ touched →
      (passes.get? k).map Prod.snd = (s.passes.get? k).map Prod.snd) :
    s.Keeps touched a { s with desk := d, passes } where
  desk := h
  under_eq slot handle hnot := by
    cases slot with
    | pass => exact congrArg (Option.map _) (hpasses handle hnot)
    | passCursor => exact congrArg (Option.map _) (hcursors handle hnot)
    | _ => rfl

theorem keeps_paged (h : s.desk.Tried a d) {paged}
    (hpaged : s.paged.SameOff (fun k => (.paged, k) ∈ touched) paged) :
    s.Keeps touched a { s with desk := d, paged } where
  desk := h
  under_eq slot handle hnot := by
    cases slot with
    | paged => exact congrArg (Option.map _) (hpaged handle hnot)
    | _ => rfl

theorem keeps_pending (h : s.desk.Tried a d) {pending}
    (hpending : s.pending.SameOff (fun k => (.pending, k) ∈ touched) pending) :
    s.Keeps touched a { s with desk := d, pending } where
  desk := h
  under_eq slot handle hnot := by
    cases slot with
    | pending => exact congrArg (Option.map _) (hpending handle hnot)
    | _ => rfl

theorem keeps_cursors (h : s.desk.Tried a d) {cursors}
    (hcursors : s.cursors.SameOff (fun k => (.cursor, k) ∈ touched) cursors) :
    s.Keeps touched a { s with desk := d, cursors } where
  desk := h
  under_eq slot handle hnot := by
    cases slot with
    | cursor => exact congrArg (Option.map _) (hcursors handle hnot)
    | _ => rfl

theorem keeps_sources (h : s.desk.Tried a d) {sources}
    (hsources : s.sources.SameOff (fun k => (.source, k) ∈ touched) sources) :
    s.Keeps touched a { s with desk := d, sources } where
  desk := h
  under_eq slot handle hnot := by
    cases slot with
    | source => exact congrArg (Option.map _) (hsources handle hnot)
    | _ => rfl

/-! ## Broken sessions -/

variable [Std.TransOrd κ]

/-- The work was left by a call under an idle watch. -/
def Owed (p : Pending κ α) : Prop := ∃ r d, Desk.Idle d ∧ p = (request r d).1

/-- All that is open was opened by the store in memory itself. -/
structure Plain (s : Session κ α) : Prop where
  idle : s.desk.Idle
  passes : s.passes.All fun p => ∃ position, p.2 = .stored position
  paged : s.paged.All fun it => ∃ source, it.source = .stored source
  pending : s.pending.All Owed

/-- A plain session whose store has a broken lock. -/
structure Broken (s : Session κ α) : Prop extends s.Plain where
  poisoned : s.desk.world.memory.poisoned = true

theorem Broken.desk (h : s.Broken) : s.desk.Broken := ⟨h.idle, h.poisoned⟩

/-- After some attempts it still is. -/
theorem Broken.of_desk (h : s.Broken) (htried : s.desk.Tried a d) :
    Broken { s with desk := d } where
  idle := htried.idle h.idle
  passes := h.passes
  paged := h.paged
  pending := h.pending
  poisoned := (htried.broken h.desk).poisoned

end Session

end LazyExpiry
