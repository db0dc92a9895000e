import Mathlib.Algebra.Order.Floor.Div
import LazyExpiry.Proofs.Views.Walk

/-!
# The live entries, page by page

A page source over a store in memory still has to serve the entries beyond the last key it
served, or none once it takes itself for drained (`toServe`). Each page is the first of
these, up to the page size, and leaves the others (`nextPage_of_cons`). So what a pass
collects or delivers is the filter over what its source has to serve, by induction on the
pages it may ask for : a page that is not empty leaves fewer entries, and a page without
live entries adds nothing.

The works that are joined here only hand back their items (`Task.Brings`), however long
they wait, and then a join answers the items in order whichever rule it follows.
-/

namespace LazyExpiry

variable {σ κ α π ρ υ : Type}

/-! ## Works that hand back an answer -/

/-- A task that brings `a` and changes nothing. -/
def Task.Brings (a : υ) : Task σ υ → Prop
  | settled b => b = a
  | failed _ => False
  | waiting d => ∀ w, d.finish w = .ok a w

theorem Task.Brings.poll {a : υ} {t : Task σ υ} (h : t.Brings a) (w : σ) :
    (t.poll w).1.Brings a ∧ (t.poll w).2 = w := by
  match t with
  | settled _ => exact ⟨h, rfl⟩
  | waiting ⟨0, finish⟩ =>
    have hfinish : finish w = .ok a w := h w
    simp only [Task.poll, hfinish]
    exact ⟨rfl, rfl⟩
  | waiting ⟨_ + 1, _⟩ => exact ⟨h, rfl⟩

theorem Task.pollAll_of_brings (rule : JoinRule) (succeeded : Bool) {ts : List (Task σ υ)}
    {as : List υ} (w : σ) (h : List.Forall₂ (fun t a => t.Brings a) ts as) :
    ∃ ts', pollAll rule succeeded ts w = .ok ts' w ∧
      List.Forall₂ (fun t a => t.Brings a) ts' as := by
  induction h generalizing succeeded with
  | nil => exact ⟨[], rfl, .nil⟩
  | @cons t a ts as ht _ ih =>
    obtain ⟨hbrings, hworld⟩ := ht.poll w
    unfold pollAll
    dsimp only
    rw [hworld]
    rcases hp : (t.poll w).1 with b | e | d <;> rw [hp] at hbrings
    · obtain ⟨ts', hpoll, hrest⟩ := ih succeeded
      exact ⟨_, by rw [hpoll]; rfl, .cons hbrings hrest⟩
    · exact hbrings.elim
    · obtain ⟨ts', hpoll, hrest⟩ := ih false
      exact ⟨_, by rw [hpoll]; rfl, .cons hbrings hrest⟩

theorem Task.answers?_of_brings : ∀ {ts : List (Task σ υ)} {as bs : List υ},
    List.Forall₂ (fun t a => t.Brings a) ts as → answers? ts = some bs → bs = as
  | [], [], bs, .nil, h => (Option.some.inj h).symm
  | settled b :: ts, a :: as, bs, .cons ht hts, h => by
    obtain ⟨cs, hcs, rfl⟩ := Option.map_eq_some_iff.mp h
    obtain rfl : b = a := ht
    rw [answers?_of_brings hts hcs]
  | failed _ :: _, _ :: _, _, .cons ht _, _ => ht.elim

/-- Works that only hand back their answers are joined to these answers. -/
theorem joinAll_of_brings (rule : JoinRule) {ts : List (Task σ υ)} {as : List υ} (w : σ)
    (h : List.Forall₂ (fun t a => t.Brings a) ts as) : joinAll rule ts w = .ok as w := by
  induction ts, w using joinAll.induct rule with
  | case1 ts w answers hs => rw [joinAll_of_answers hs, Task.answers?_of_brings h hs]
  | case2 ts w hn ts' w' hp ih =>
    obtain ⟨us, hpoll, hbrings⟩ := Task.pollAll_of_brings rule true w h
    rw [hpoll, Result.ok.injEq] at hp
    obtain ⟨rfl, rfl⟩ := hp
    rw [joinAll_of_round hn hpoll]
    exact ih hbrings
  | case3 ts w hn e w' hp =>
    obtain ⟨us, hpoll, -⟩ := Task.pollAll_of_brings rule true w h
    rw [hpoll] at hp
    cases hp

/-! ## Pages -/

section Pages

variable [Ord κ] {w w' : World κ α}

/-- What a page source still has to serve. -/
def toServe (w : World κ α) (source : Memory.Pages κ) : List (κ × Stamped α) :=
  if source.drained then [] else w.memory.table.after source.last

theorem toServe_fresh (w : World κ α) (pageSize : PageSize) :
    toServe w { pageSize } = w.memory.table.entries := by
  rw [toServe, if_neg Bool.false_ne_true, Table.after_none]

theorem Frozen.toServe_eq (h : Frozen w w') (source : Memory.Pages κ) :
    toServe w' source = toServe w source := by
  rw [toServe, toServe, h.table_eq]

/-- A source that serves takes what lies beyond its last key. -/
theorem after_of_toServe {source : Memory.Pages κ} (h : toServe w source ≠ []) :
    source.drained = false ∧ w.memory.table.after source.last = toServe w source := by
  rw [toServe] at h ⊢
  split at h
  · exact absurd rfl h
  · rename_i hd
    exact ⟨by simpa using hd, (if_neg hd).symm⟩

theorem page_ne_nil {source : Memory.Pages κ} (h : toServe w source ≠ []) :
    (toServe w source).take source.pageSize.count ≠ [] := by
  have hcount := source.pageSize.count_pos
  rw [ne_eq, List.take_eq_nil_iff]
  exact fun hnil => hnil.elim (by omega) h

/-- The source after it has served a page. -/
def Memory.Pages.served (source : Memory.Pages κ) (page : List (κ × Stamped α)) : Memory.Pages κ :=
  { source with
    last := page.getLast?.map Prod.fst
    drained := decide (page.length < source.pageSize.count) }

theorem World.nextPage_of_nil (hlock : w.memory.poisoned = false) {source : Memory.Pages κ}
    (hserve : toServe w source = []) :
    ∃ source', World.nextPage (source, w) = .ok none (source', w) := by
  by_cases hd : source.drained = true
  · refine ⟨source, ?_⟩
    simp only [World.nextPage, World.atPosition, Action.focus, Memory.nextPage, hd, if_true,
      Result.mapWorld_ok]
  · rw [toServe, if_neg hd] at hserve
    refine ⟨{ source with drained := decide (0 < source.pageSize.count) }, ?_⟩
    simp only [World.nextPage, World.atPosition, Action.focus, Memory.nextPage, if_neg hd,
      Memory.observe_of_not_poisoned hlock, hserve, List.take_nil, List.getLast?_nil,
      List.length_nil, Result.mapWorld_ok]

/-- The first page of some entries, and the pages of what is left. -/
theorem ceilDiv_eq_succ {n count : Nat} (hn : 0 < n) (hcount : 0 < count) :
    n ⌈/⌉ count = 1 + (n - count) ⌈/⌉ count := by
  rw [Nat.ceilDiv_eq_add_pred_div, Nat.ceilDiv_eq_add_pred_div]
  rcases Nat.le_total count n with hle | hle
  · have hsum : n + count - 1 = (n - count + count - 1) + count := by omega
    rw [hsum, Nat.add_div_right _ hcount, Nat.add_comm]
  · rw [Nat.sub_eq_zero_of_le hle, Nat.zero_add, Nat.div_eq_of_lt (Nat.sub_lt hcount Nat.one_pos)]
    exact Nat.div_eq_of_lt_le (by omega) (by omega)

/-- A world after so many pages were served. -/
def World.leafed (pages : Nat) (w : World κ α) : World κ α :=
  { w with memory := w.memory.count fun c => { c with pages := c.pages + UInt64.ofNat pages } }

theorem World.leafed_zero (w : World κ α) : w.leafed 0 = w := by
  simp [leafed, Memory.count]

theorem World.leafed_leafed (m n : Nat) (w : World κ α) :
    (w.leafed m).leafed n = w.leafed (m + n) := by
  simp only [leafed, Memory.count, UInt64.add_assoc, UInt64.ofNat_add]

/-- What a source has to serve, it serves up to a page. -/
theorem World.nextPage_eq (hlock : w.memory.poisoned = false) {source : Memory.Pages κ}
    (hserve : toServe w source ≠ []) : World.nextPage (source, w) =
      .ok (some ((toServe w source).take source.pageSize.count))
        (source.served ((toServe w source).take source.pageSize.count),
          Context.note (.servingPage ((toServe w source).take source.pageSize.count).length)
            (w.leafed 1)) := by
  obtain ⟨hd, hafter⟩ := after_of_toServe hserve
  have hlast := List.getLast?_eq_some_getLast (page_ne_nil hserve)
  have hmemory : Memory.nextPage (source, w.memory) =
      .ok (some ((toServe w source).take source.pageSize.count))
        (source.served ((toServe w source).take source.pageSize.count),
          w.memory.count fun c => { c with pages := c.pages + 1 }) := by
    simp only [Memory.nextPage, hd, Memory.observe_of_not_poisoned hlock, hafter, hlast,
      Bool.false_eq_true, if_false, Memory.Pages.served, Option.map_some]
  rw [World.nextPage, World.atPosition, Action.focus, hmemory]
  rfl

theorem World.nextPage_of_cons (hlock : w.memory.poisoned = false) {source : Memory.Pages κ}
    (hserve : toServe w source ≠ []) :
    ∃ w', World.nextPage (source, w) =
        .ok (some ((toServe w source).take source.pageSize.count))
          (source.served ((toServe w source).take source.pageSize.count), w') ∧
      SameStore w w' ∧ w'.clock = w.clock :=
  ⟨_, World.nextPage_eq hlock hserve, ⟨rfl, rfl, hlock⟩, rfl⟩

theorem nextPage_of_nil (h : Frozen w w') {source : Memory.Pages κ}
    (hserve : toServe w source = []) :
    ∃ source' w'', World.nextPage (source, w') = .ok none (source', w'') ∧ Frozen w w'' := by
  rw [← h.toServe_eq] at hserve
  obtain ⟨source', hnext⟩ := World.nextPage_of_nil h.not_poisoned hserve
  exact ⟨source', w', hnext, h⟩

/-- An entry that is stored and ahead is to be served. -/
theorem mem_toServe [Std.LawfulEqOrd κ] {source : Memory.Pages κ} {key : κ} {stored : Stamped α}
    (hdrained : source.drained = false) (hbeyond : Table.beyond source.last key = true)
    (hstored : w.memory.table.get? key = some stored) : (key, stored) ∈ toServe w source := by
  rw [toServe, hdrained, if_neg Bool.false_ne_true]
  exact Table.mem_after.mpr ⟨Table.get?_eq_some_iff.mp hstored, hbeyond⟩

/-- An entry that is to be served is on the page, or ahead of the source that has served it. -/
theorem mem_page_or_ahead {source : Memory.Pages κ} {key : κ} {stored : Stamped α}
    (h : (key, stored) ∈ toServe w source) :
    let page := (toServe w source).take source.pageSize.count
    (key, stored) ∈ page ∨ (source.served page).drained = false ∧
      Table.beyond (source.served page).last key = true := by
  intro page
  have hserve : toServe w source ≠ [] := List.ne_nil_of_mem h
  have hasc : Ascending (page ++ (toServe w source).drop source.pageSize.count) := by
    rw [List.take_append_drop, ← (after_of_toServe hserve).2]
    exact Table.ascending_after _ _
  rw [← List.take_append_drop source.pageSize.count (toServe w source)] at h
  refine (List.mem_append.mp h).imp id fun hmem => ⟨?_, ?_⟩
  · -- the page is full, since the key is behind it
    have hlength := List.length_pos_of_mem hmem
    rw [List.length_drop] at hlength
    refine decide_eq_false ?_
    rw [List.length_take]
    omega
  · have hne : page ≠ [] := page_ne_nil hserve
    rw [Memory.Pages.served, List.getLast?_eq_some_getLast hne]
    simpa using (List.pairwise_append.mp hasc).2.2 _ (List.getLast_mem hne) _ hmem

variable [Std.TransOrd κ]

/-- After a page, what is left is behind it. -/
theorem toServe_served {source : Memory.Pages κ} (hserve : toServe w source ≠ []) :
    toServe w (source.served ((toServe w source).take source.pageSize.count)) =
      (toServe w source).drop source.pageSize.count := by
  -- a page that is not full is the last one
  by_cases hfull : ((toServe w source).take source.pageSize.count).length < source.pageSize.count
  · have hdrop : (toServe w source).drop source.pageSize.count = [] := by
      rw [List.length_take] at hfull
      exact List.drop_eq_nil_of_le (by omega)
    rw [toServe, Memory.Pages.served, if_pos (decide_eq_true hfull), hdrop]
  · have hpage := page_ne_nil hserve
    have hsplit : toServe w source = ((toServe w source).take source.pageSize.count).dropLast ++
        ((toServe w source).take source.pageSize.count).getLast hpage ::
          (toServe w source).drop source.pageSize.count := by
      rw [← List.singleton_append, ← List.append_assoc, List.dropLast_append_getLast,
        List.take_append_drop]
    have hbeyond := Table.after_of_after_eq_append ((after_of_toServe hserve).2.trans hsplit)
    rw [toServe, if_neg (by simpa [Memory.Pages.served] using hfull), Memory.Pages.served,
      List.getLast?_eq_some_getLast hpage]
    exact hbeyond

/-- A page leaves less to serve. -/
theorem length_toServe_served_lt {source : Memory.Pages κ} (hserve : toServe w source ≠ []) :
    (toServe w (source.served ((toServe w source).take source.pageSize.count))).length <
      (toServe w source).length := by
  have hcount := source.pageSize.count_pos
  have hsome : 0 < (toServe w source).length := List.length_pos_iff.mpr hserve
  rw [toServe_served hserve, List.length_drop]
  omega

theorem nextPage_of_cons (h : Frozen w w') {source : Memory.Pages κ}
    (hserve : toServe w source ≠ []) :
    ∃ source' w'',
      World.nextPage (source, w') =
        .ok (some ((toServe w source).take source.pageSize.count)) (source', w'') ∧
      Frozen w w'' ∧ toServe w source' = (toServe w source).drop source.pageSize.count ∧
      (toServe w source').length < (toServe w source).length := by
  have hserve' := hserve
  rw [← h.toServe_eq] at hserve'
  obtain ⟨w'', hnext, hsame, hclock⟩ := World.nextPage_of_cons h.not_poisoned hserve'
  rw [h.toServe_eq] at hnext
  refine ⟨_, w'', hnext, ⟨h.toSameStore.trans hsame, hclock.trans h.clock_eq, h.stride_eq⟩,
    toServe_served hserve, length_toServe_served_lt hserve⟩

end Pages

/-! ## Collecting -/

namespace PagedEntries

/-- A callback whose works hand back their items, after waiting as long as it says. -/
def handBack (waits : Nat → ρ → Nat) (index : Nat) (item : ρ) (w : σ) : Deferred σ ρ × σ :=
  ({ waits := waits index item, finish := fun w => .ok item w }, w)

/-- A callback that keeps the items in order. -/
def record (_ : Nat) (item : ρ) : Action (List ρ × σ) Unit := fun s =>
  .ok () (s.1 ++ [item], s.2)

/-- A callback whose works hand back what `f` makes of their items, and that does nothing
else. -/
def HandsBack (f : ρ → υ) (callback : Nat → ρ → σ → Deferred σ υ × σ) : Prop :=
  ∀ index item w, (callback index item w).2 = w ∧
    ∀ w', (callback index item w).1.finish w' = .ok (f item) w'

theorem handsBack_handBack (waits : Nat → ρ → Nat) :
    HandsBack (σ := σ) (fun item => item) (handBack waits) := fun _ _ _ => ⟨rfl, fun _ => rfl⟩

section Collect

variable [Ord κ] {w : World κ α} (project : κ → Option α → ρ) {f : ρ → υ}
  {callback : Nat → ρ → World κ α → Deferred (World κ α) υ × World κ α}
  (hback : HandsBack f callback)

include hback

/-- The works for a page bring what is made of the items of its live entries. -/
theorem callEach_live (now : Timestamp) : ∀ (page : List (κ × Stamped α)) (index : Nat)
    {w' : World κ α}, Unmoved w w' → ∃ w'', Unmoved w w'' ∧
      (callEach project callback now index page w').2 = w'' ∧
      List.Forall₂ (fun t a => t.Brings a) (callEach project callback now index page w').1
        ((liveAmong w.policy now page).map fun e => f (project e.1 e.2))
  | [], _, w', h => ⟨w', h, rfl, .nil⟩
  | (key, stored) :: rest, index, w', h => by
    obtain ⟨w₁, hjudge, hw₁⟩ := h.judge stored now
    rcases hcheck : check w.policy (some stored) now with - | value
    · rw [hcheck] at hjudge
      rw [liveAmong_cons_none hcheck, callEach_of_expired hjudge]
      exact callEach_live now rest index (hw₁.note _)
    · rw [hcheck] at hjudge
      obtain ⟨hworld, hfinish⟩ := hback index (project key value) w₁
      obtain ⟨w'', hw'', hrest, hbrings⟩ := callEach_live now rest (index + 1) hw₁
      rw [liveAmong_cons_some hcheck, callEach_of_live hjudge, hworld]
      exact ⟨w'', hw'', hrest, .cons hfinish hbrings⟩

variable [Std.TransOrd κ]

/-- A collecting pass goes on to collect what is live of what its source has to serve, a
page at a time. -/
theorem collectFrom_live (rule : Nat → JoinRule) (limit pages : Nat) (results : List υ)
    {source : Memory.Pages κ} {w' : World κ α} (hlock : w.memory.poisoned = false)
    (hstride : w.clock.stride = 0) (h : Unmoved w w') (hlimit : (toServe w source).length < limit) :
    ∃ w'', collectFrom rule project callback limit pages results source w' =
        .ok (some (results ++ (liveAmong w.policy w.clock.time (toServe w source)).map fun e =>
          f (project e.1 e.2))) w'' ∧
      Unmoved (w.leafed ((toServe w source).length ⌈/⌉ source.pageSize.count)) w'' := by
  induction limit generalizing w w' pages results source with
  | zero => exact absurd hlimit (Nat.not_lt_zero _)
  | succ limit ih =>
    have hlock' : w'.memory.poisoned = false := h.memory_eq ▸ hlock
    have hserve' : toServe w' source = toServe w source :=
      (h.frozen hlock hstride).toServe_eq source
    by_cases hserve : toServe w source = []
    · obtain ⟨source', hpage⟩ := World.nextPage_of_nil hlock' (hserve'.trans hserve)
      have hnext : PageSource.nextPage (source, w') = .ok none (source', w') := hpage
      refine ⟨Context.note (.collected pages results.length) w', ?_, ?_⟩
      · rw [collectFrom, hnext, hserve]
        simp only [liveAmong, List.filterMap_nil, List.map_nil, List.append_nil]
      · rw [hserve, List.length_nil, zero_ceilDiv, World.leafed_zero]
        exact h.note _
    · have hpage := World.nextPage_eq hlock' fun hnil => hserve (hserve'.symm.trans hnil)
      have hleft : toServe (w.leafed 1)
          (source.served ((toServe w source).take source.pageSize.count)) =
            (toServe w source).drop source.pageSize.count := toServe_served hserve
      have hjoined := liveAmong_take_drop w.policy w.clock.time (toServe w source)
        source.pageSize.count
      rw [hserve'] at hpage
      rw [← hleft] at hjoined
      generalize (toServe w source).take source.pageSize.count = page at hpage hleft hjoined
      have hturned : Unmoved (w.leafed 1) (Context.note (.servingPage page.length) (w'.leafed 1)) :=
        ⟨by simp only [World.leafed, Context.note, h.memory_eq], h.policy_eq, h.clock_eq⟩
      generalize Context.note (.servingPage page.length) (w'.leafed 1) = turned at hpage hturned
      have hnow : Context.now turned = (w.clock.time, turned) :=
        (hturned.frozen hlock hstride).now
      obtain ⟨w₁, hw₁, hworld, hbrings⟩ :=
        callEach_live project hback w.clock.time page results.length hturned
      have hsome : 0 < (toServe w source).length := List.length_pos_iff.mpr hserve
      have hcount := source.pageSize.count_pos
      obtain ⟨w'', hrest, hmoved⟩ := ih (w := w.leafed 1) (pages + 1)
        (results ++ (liveAmong w.policy w.clock.time page).map fun e => f (project e.1 e.2))
        hlock hstride hw₁ (by rw [hleft, List.length_drop]; omega)
      refine ⟨w'', ?_, ?_⟩
      · have hnext : PageSource.nextPage (source, w') =
            .ok (some page) (source.served page, turned) := hpage
        rw [collectFrom, hnext]
        simp only [hnow, joinAll_of_brings _ _ hbrings, hworld, Result.bind_ok]
        rw [← hjoined, List.map_append, ← List.append_assoc]
        exact hrest
      · rw [hleft, List.length_drop, World.leafed_leafed] at hmoved
        rw [ceilDiv_eq_succ hsome hcount]
        exact hmoved

end Collect

/-! ## Delivering -/

/-- Beside any other state, a page source is still there. -/
instance {γ : Type} [PageSource (π × σ) κ (Stamped α)] :
    PageSource (π × (γ × σ)) κ (Stamped α) where
  nextPage s := (PageSource.nextPage (s.1, s.2.2)).mapWorld fun p => (p.1, s.2.1, p.2)

section Deliver

variable [Ord κ] {w : World κ α} (project : κ → Option α → ρ)

/-- A page is delivered as the items of its live entries. -/
theorem giveEach_live : ∀ (page : List (κ × Stamped α)) (index : Nat) (kept : List ρ)
    {w' : World κ α}, Frozen w w' → ∃ index' w'', Frozen w w'' ∧
      giveEach project record w.clock.time index page (kept, w') =
        .ok index'
          (kept ++ (liveAmong w.policy w.clock.time page).map fun e => project e.1 e.2, w'')
  | [], index, kept, w', h => by
    refine ⟨index, w', h, ?_⟩
    rw [giveEach]
    simp only [liveAmong, List.filterMap_nil, List.map_nil, List.append_nil]
  | (key, stored) :: rest, index, kept, w', h => by
    obtain ⟨w₁, hjudge, hw₁⟩ := h.judge stored
    simp only [giveEach, judge_beside, hjudge]
    rcases hcheck : check w.policy (some stored) w.clock.time with - | value
    · rw [liveAmong_cons_none hcheck]
      exact giveEach_live rest index kept (hw₁.note _)
    · rw [liveAmong_cons_some hcheck]
      obtain ⟨index', w'', hw'', hgive⟩ :=
        giveEach_live rest (index + 1) (kept ++ [project key value]) hw₁
      refine ⟨index', w'', hw'', ?_⟩
      simp only [record, Result.bind_ok, hgive, List.map_cons, List.append_assoc,
        List.singleton_append]

variable [Std.TransOrd κ]

/-- A delivering pass goes on to deliver what is live of what its source has to serve. -/
theorem deliverFrom_live : ∀ (limit pages delivered : Nat) (kept : List ρ)
    {source : Memory.Pages κ} {w' : World κ α}, Frozen w w' → (toServe w source).length < limit →
      ∃ w'', deliverFrom project record limit pages delivered source (kept, w') =
        .ok (some ())
          (kept ++
            (liveAmong w.policy w.clock.time (toServe w source)).map fun e => project e.1 e.2, w'')
  | 0, _, _, _, _, _, _, hlimit => absurd hlimit (Nat.not_lt_zero _)
  | limit + 1, pages, delivered, kept, source, w', h, hlimit => by
    by_cases hserve : toServe w source = []
    · obtain ⟨source', w'', hpage, -⟩ := nextPage_of_nil h hserve
      have hnext : PageSource.nextPage (source, (kept, w')) = .ok none (source', kept, w'') :=
        congrArg (Result.mapWorld _) hpage
      refine ⟨Context.note (.delivered pages delivered) w'', ?_⟩
      rw [deliverFrom, hnext, hserve]
      simp only [liveAmong, List.filterMap_nil, List.map_nil, List.append_nil]
      rfl
    · obtain ⟨source', w'', hpage, hw'', hleft, hfewer⟩ := nextPage_of_cons h hserve
      have hnext : PageSource.nextPage (source, (kept, w')) =
          .ok (some ((toServe w source).take source.pageSize.count)) (source', kept, w'') :=
        congrArg (Result.mapWorld _) hpage
      have hnow : Context.now (kept, w'') = (w.clock.time, kept, w'') := by
        change ((Context.now w'').1, _, (Context.now w'').2) = _
        rw [hw''.now]
      obtain ⟨delivered', w₁, hw₁, hgive⟩ := giveEach_live project
        ((toServe w source).take source.pageSize.count) delivered kept hw''
      obtain ⟨w₂, hrest⟩ := deliverFrom_live limit (pages + 1) delivered'
        (kept ++ (liveAmong w.policy w.clock.time
          ((toServe w source).take source.pageSize.count)).map fun e => project e.1 e.2) hw₁
        (Nat.lt_of_lt_of_le hfewer (Nat.le_of_lt_succ hlimit))
      refine ⟨w₂, ?_⟩
      rw [deliverFrom, hnext]
      simp only [hnow, hgive, Result.bind_ok]
      rw [hrest, hleft, List.append_assoc, ← List.map_append, liveAmong_take_drop]

end Deliver

end PagedEntries

end LazyExpiry
