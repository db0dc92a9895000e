import LazyExpiry.PointCall
import LazyExpiry.Proofs.Paged.Requests
import LazyExpiry.Proofs.Views.Pages

/-!
# What a source that is drained has left

A page source over a store in memory is asked for pages, and between two requests others do
to the store what they like (`SourceStep`). What it answers is settled by the pages it has served :
it stands at the last key of them, and it takes itself for drained if the last one was short
(`Stands`, step by step). So what is written ahead of it is served after a page that was full,
and after a short one it is not, although others see it.

`told_of_requests` is the rule of every answer up to the first end. A short page did leave
nothing behind in its own table, so the end that comes after it is right unless something was
written since.
-/

namespace LazyExpiry

variable {ω κ α : Type} [Ord κ]

/-! ## A source that is asked now and then -/

/-- A request for the next page, or a change of the world by others. -/
inductive SourceStep (ω : Type) where
  | request
  | elsewhere (change : ω → ω)

namespace SourceStep

/-- A call on the store by others. -/
def call [Std.TransOrd κ] (c : PointCall κ (Stamped α)) : SourceStep (World κ α) :=
  .elsewhere fun w => (c.stored w).world

/-- The step does not break the lock. -/
def KeepsLock : SourceStep (World κ α) → Prop
  | request => True
  | elsewhere change => ∀ w, w.memory.poisoned = false → (change w).memory.poisoned = false

/-- The requests of a run of steps, with their answers. -/
def requests : List (SourceStep (World κ α)) → Memory.Pages κ × World κ α →
    List (PageRequest (World κ α) κ α)
  | [], _ => []
  | request :: steps, s =>
    ⟨s.2, (World.nextPage s).outcome⟩ :: requests steps (World.nextPage s).world
  | elsewhere change :: steps, s => requests steps (s.1, change s.2)

/-- No call of the contract breaks the lock. -/
theorem keepsLock_call [Std.TransOrd κ] (c : PointCall κ (Stamped α)) : (call c).KeepsLock := by
  intro w h
  match c with
  | .get key =>
    simp [PointCall.stored, Store.get, World.onMemory, Action.focus,
      Memory.lookup_of_not_poisoned h, Memory.count, h]
  | .put key value =>
    simp [PointCall.stored, Store.put, World.onMemory, Action.focus,
      Memory.insert_of_not_poisoned h, Memory.count, h]
  | .putAll batch =>
    simp [PointCall.stored, Store.putAll, World.onMemory, Action.focus,
      Memory.insertAll_of_not_poisoned h, Memory.count, h]
  | .remove key =>
    simp [PointCall.stored, Store.remove, World.onMemory, Action.focus,
      Memory.delete_of_not_poisoned h, Memory.count, h]
  | .contains key =>
    simp [PointCall.stored, Store.contains, World.onMemory, Action.focus, Memory.containsKey,
      Memory.observe_of_not_poisoned h, h]
  | .isEmpty =>
    simp [PointCall.stored, Store.isEmpty, World.onMemory, Action.focus, Memory.isEmpty,
      Memory.observe_of_not_poisoned h, h]
  | .clear =>
    simp [PointCall.stored, Store.clear, World.onMemory, Action.focus,
      Memory.clearAll_of_not_poisoned h, h]

end SourceStep

/-! ## What has been served -/

/-- The last key that was served. -/
def lastServed (past : List (PageRequest ω κ α)) : Option κ :=
  (pagesIn past).flatten.getLast?.map Prod.fst

/-- The last request was answered by a page that is not full. -/
def endsShort (pageSize : PageSize) (past : List (PageRequest ω κ α)) : Bool :=
  (past.getLast?.bind PageRequest.page?).any fun page => decide (page.length < pageSize.count)

omit [Ord κ] in
theorem lastServed_snoc (past : List (PageRequest ω κ α)) {p : PageRequest ω κ α}
    {page : List (κ × Stamped α)} (hpage : p.page? = some page) (hne : page ≠ []) :
    lastServed (past ++ [p]) = page.getLast?.map Prod.fst := by
  have hpages : pagesIn [p] = [page] := by rw [pagesIn, List.filterMap_cons_some hpage]; rfl
  have hsplit : pagesIn (past ++ [p]) = pagesIn past ++ pagesIn [p] := List.filterMap_append
  rw [lastServed, hsplit, hpages, List.flatten_append, List.flatten_singleton,
    List.getLast?_append_of_ne_nil _ hne]

omit [Ord κ] in
theorem endsShort_snoc (pageSize : PageSize) (past : List (PageRequest ω κ α))
    {p : PageRequest ω κ α} {page : List (κ × Stamped α)} (hpage : p.page? = some page) :
    endsShort pageSize (past ++ [p]) = decide (page.length < pageSize.count) := by
  simp [endsShort, hpage]

/-- What is stored beyond the last key that was served. -/
def World.aheadOf (past : List (PageRequest (World κ α) κ α)) (w : World κ α) :
    List (κ × Stamped α) :=
  w.memory.table.after (lastServed past)

/-- What a source answers, by the pages it has served. -/
structure PageRequest.Told (pageSize : PageSize) (past : List (PageRequest (World κ α) κ α))
    (q : PageRequest (World κ α) κ α) : Prop where
  /-- Every request before was answered by a page. -/
  served : ∀ p ∈ past, ∃ page, page ≠ [] ∧ p.answer = .ok (some page)
  /-- After a short page comes the end, and else what is stored ahead, up to a page of it. -/
  answer_eq : q.answer = .ok (if endsShort pageSize past = true ∨ q.met.aheadOf past = [] then none
    else some ((q.met.aheadOf past).take pageSize.count))
  /-- A short page left nothing behind when it was served. -/
  left_none : ∀ past' p, past = past' ++ [p] → endsShort pageSize past = true →
    p.met.aheadOf past = []
  /-- The end is told wrongly if and only if the page before was short and something has been
  written ahead of it since. -/
  misses_iff : (q.answer = .ok none ∧ q.met.aheadOf past ≠ []) ↔
    (endsShort pageSize past = true ∧ q.met.aheadOf past ≠ [])

/-- A source that tells its end for the first time has left nothing : beyond the last key that
it served, nothing is stored. -/
def TellsDrained (pageSize : PageSize) (w : World κ α) (steps : List (SourceStep (World κ α))) :
    Prop :=
  ∀ past q later, SourceStep.requests steps ({ pageSize }, w) = past ++ q :: later →
    (∀ p ∈ past, p.answer ≠ .ok none) → q.answer = .ok none → q.met.aheadOf past = []

/-! ## Where the source stands -/

/-- Where a source stands after it has been asked `past` and has not told its end. -/
structure Stands (pageSize : PageSize) (past : List (PageRequest (World κ α) κ α))
    (source : Memory.Pages κ) : Prop where
  pageSize_eq : source.pageSize = pageSize
  last_eq : source.last = lastServed past
  drained_eq : source.drained = endsShort pageSize past
  served : ∀ p ∈ past, ∃ page, page ≠ [] ∧ p.answer = .ok (some page)
  left_none : ∀ past' p, past = past' ++ [p] → endsShort pageSize past = true →
    p.met.aheadOf past = []

/-- A short page is all that there was. -/
theorem after_of_short [Std.TransOrd κ] {w : World κ α} {source : Memory.Pages κ}
    (hserve : toServe w source ≠ [])
    (hshort : ((toServe w source).take source.pageSize.count).length < source.pageSize.count) :
    w.memory.table.after
      (((toServe w source).take source.pageSize.count).getLast?.map Prod.fst) = [] := by
  have hall : (toServe w source).take source.pageSize.count = toServe w source := by
    rw [List.length_take] at hshort
    exact List.take_of_length_le (by omega)
  have hsplit : toServe w source = (toServe w source).dropLast ++
      [(toServe w source).getLast hserve] := (List.dropLast_append_getLast hserve).symm
  rw [hall, List.getLast?_eq_some_getLast hserve]
  exact Table.after_of_after_eq_append ((after_of_toServe hserve).2.trans hsplit)

namespace Stands

variable {pageSize : PageSize} {past : List (PageRequest (World κ α) κ α)}
  {source : Memory.Pages κ} {w : World κ α}

theorem fresh : Stands (κ := κ) (α := α) pageSize [] { pageSize } where
  pageSize_eq := rfl
  last_eq := rfl
  drained_eq := rfl
  served := by simp
  left_none := by simp

/-- It has to serve what is ahead, and nothing after a short page. -/
theorem toServe_eq (h : Stands pageSize past source) :
    toServe w source = if endsShort pageSize past = true then [] else w.aheadOf past := by
  rw [toServe, h.drained_eq, h.last_eq, World.aheadOf]

theorem answer_eq (h : Stands pageSize past source) (hlock : w.memory.poisoned = false) :
    (World.nextPage (source, w)).outcome =
      .ok (if endsShort pageSize past = true ∨ w.aheadOf past = [] then none
        else some ((w.aheadOf past).take pageSize.count)) := by
  have hserve := h.toServe_eq (w := w)
  by_cases hnil : toServe w source = []
  · obtain ⟨source', hnext⟩ := World.nextPage_of_nil hlock hnil
    rw [hserve, ite_eq_left_iff] at hnil
    rw [hnext, if_pos ((em _).imp_right hnil)]
    rfl
  · rw [World.nextPage_eq hlock hnil]
    rw [hserve, ite_eq_left_iff, Classical.not_imp] at hnil
    rw [if_neg hnil.1] at hserve
    rw [if_neg (not_or.mpr hnil), hserve, h.pageSize_eq]
    rfl

/-- So it answers. -/
theorem told (h : Stands pageSize past source) (hlock : w.memory.poisoned = false) :
    PageRequest.Told pageSize past ⟨w, (World.nextPage (source, w)).outcome⟩ := by
  refine ⟨h.served, h.answer_eq hlock, h.left_none, and_congr_left fun hahead => ?_⟩
  have hahead : w.aheadOf past ≠ [] := hahead
  rw [h.answer_eq hlock]
  by_cases hshort : endsShort pageSize past = true <;> simp [hshort, hahead]

variable [Std.TransOrd κ]

/-- A page moves it on, to its last key. -/
theorem next (h : Stands pageSize past source) (hlock : w.memory.poisoned = false)
    (hpage : (World.nextPage (source, w)).outcome ≠ .ok none) :
    (World.nextPage (source, w)).world.2.memory.poisoned = false ∧
      Stands pageSize (past ++ [⟨w, (World.nextPage (source, w)).outcome⟩])
        (World.nextPage (source, w)).world.1 := by
  have hserve : toServe w source ≠ [] := fun hnil => hpage <| by
    obtain ⟨source', hnext⟩ := World.nextPage_of_nil hlock hnil
    rw [hnext]
    rfl
  have hne := page_ne_nil hserve
  have hnothing := after_of_short hserve
  rw [World.nextPage_eq hlock hserve]
  rw [h.pageSize_eq] at hne hnothing ⊢
  generalize (toServe w source).take pageSize.count = page at hne hnothing ⊢
  have hlast := lastServed_snoc past (p := ⟨w, .ok (some page)⟩) rfl hne
  have hshort := endsShort_snoc pageSize past (p := (⟨w, .ok (some page)⟩ : PageRequest _ κ α)) rfl
  refine ⟨hlock, h.pageSize_eq, hlast.symm, ?_, ?_, ?_⟩
  · rw [Result.outcome, hshort, ← h.pageSize_eq]
    rfl
  · intro p hp
    rcases List.mem_append.mp hp with hp | hp
    · exact h.served p hp
    · rw [List.mem_singleton.mp hp]
      exact ⟨page, hne, rfl⟩
  · intro past' p hsplit hends
    obtain ⟨-, hp⟩ := List.append_inj' hsplit rfl
    obtain rfl := List.singleton_inj.mp hp
    rw [Result.outcome, hshort, decide_eq_true_eq] at hends
    rw [World.aheadOf, Result.outcome, hlast]
    exact hnothing hends

/-- It answers so all along a run of steps. -/
theorem along (h : Stands pageSize past source) (hlock : w.memory.poisoned = false)
    {steps : List (SourceStep (World κ α))} (hsteps : ∀ step ∈ steps, step.KeepsLock)
    {past' later : List (PageRequest (World κ α) κ α)} {q : PageRequest (World κ α) κ α}
    (hsplit : SourceStep.requests steps (source, w) = past' ++ q :: later)
    (hpast : ∀ p ∈ past', p.answer ≠ .ok none) : q.Told pageSize (past ++ past') := by
  induction steps generalizing past source w past' with
  | nil => exact absurd hsplit (by simp [SourceStep.requests])
  | cons step steps ih =>
    obtain ⟨hstep, hothers⟩ := List.forall_mem_cons.mp hsteps
    match step with
    | .elsewhere change => exact ih h (hstep w hlock) hothers hsplit hpast
    | .request =>
      rcases past' with - | ⟨p, past'⟩
      · obtain ⟨rfl, -⟩ := List.cons.inj hsplit
        rw [List.append_nil]
        exact h.told hlock
      · obtain ⟨rfl, hrest⟩ := List.cons.inj hsplit
        obtain ⟨hpage, hpast⟩ := List.forall_mem_cons.mp hpast
        obtain ⟨hlock', hnext⟩ := h.next hlock hpage
        rw [List.append_cons]
        exact ih hnext hlock' hothers hrest hpast

end Stands

/-- Whatever others do between the requests, up to its first end a source answers by the pages
that it has served. -/
theorem told_of_requests [Std.TransOrd κ] {w : World κ α} (hlock : w.memory.poisoned = false)
    (pageSize : PageSize) {steps : List (SourceStep (World κ α))}
    (hsteps : ∀ step ∈ steps, step.KeepsLock) {past later : List (PageRequest (World κ α) κ α)}
    {q : PageRequest (World κ α) κ α}
    (hsplit : SourceStep.requests steps ({ pageSize }, w) = past ++ q :: later)
    (hpast : ∀ p ∈ past, p.answer ≠ .ok none) : q.Told pageSize past :=
  Stands.fresh.along hlock hsteps hsplit hpast

namespace SourceStep

/-- A store without entries. -/
def vacant : World Nat Nat := { policy := .always }

/-- An entry is written ahead of the first request, and another one ahead of the second. -/
def writesAhead : List (SourceStep (World Nat Nat)) :=
  [call (.put 1 ⟨some 10, 0⟩), request, call (.put 2 ⟨some 20, 0⟩), request]

theorem keepsLock_writesAhead : ∀ step ∈ writesAhead, step.KeepsLock := by
  simp only [writesAhead, List.forall_mem_cons]
  exact ⟨keepsLock_call _, trivial, keepsLock_call _, trivial, by simp⟩

/-- With pages of one the second request is answered by what was written ahead of it. -/
theorem told_of_requests_writesAhead : ∃ p q,
    requests writesAhead ({ pageSize := .ofNat 1 }, vacant) = [p, q] ∧ q.Told (.ofNat 1) [p] ∧
      q.answer = .ok (some [(2, ⟨some 20, 0⟩)]) := by
  have hsplit : requests writesAhead ({ pageSize := .ofNat 1 }, vacant) = [_] ++ _ :: [] := rfl
  exact ⟨_, _, hsplit, told_of_requests rfl (.ofNat 1) keepsLock_writesAhead hsplit
    (List.forall_mem_singleton.mpr fun hend => by cases hend), rfl⟩

/-- With pages of two it is answered by the end. -/
theorem not_tellsDrained_writesAhead : vacant.memory.poisoned = false ∧
    (∀ step ∈ writesAhead, step.KeepsLock) ∧ ¬TellsDrained (.ofNat 2) vacant writesAhead := by
  refine ⟨rfl, keepsLock_writesAhead, fun h => ?_⟩
  have hnothing := h [_] _ [] rfl (List.forall_mem_singleton.mpr fun hend => by cases hend) rfl
  exact absurd (congrArg List.isEmpty hnothing) (by decide +kernel)

end SourceStep

end LazyExpiry
