import Mathlib.Data.List.Nodup
import LazyExpiry.Proofs.Paged.Reels
import LazyExpiry.Proofs.Views.Pages

/-!
# Paged passes over a store that others change

A page is a copy of what was stored when the source was asked. Until the next one is asked
for, callbacks, their works and others may do to the store what they like (`Amid`), and what
is given of the page is settled by the copy and by the one reading taken for it
(`Reel.Gives`).

What links a page to the next is the last key and no more (`Served`). Keys beyond it ascend,
so no key comes twice, and a page that is not full leaves none behind in its table, so a key
that stays is not missed. `shared_pages` says so of both passes.
-/

namespace LazyExpiry

variable {σ κ α π ρ υ : Type}

/-! ## Others -/

/-- A world with what others are about to do to it : after everything that a pass asks of the
world, the next change takes place. -/
structure Amid (σ : Type) where
  world : σ
  others : List (σ → σ) := []

namespace Amid

/-- The world after the next change. -/
def next : List (σ → σ) → σ → Amid σ
  | [], w => ⟨w, []⟩
  | change :: others, w => ⟨change w, others⟩

instance [Context σ] : Context (Amid σ) where
  now r := ((Context.now r.world).1, next r.others (Context.now r.world).2)
  isLive writtenAt now r := ((Context.isLive writtenAt now r.world).1,
    next r.others (Context.isLive writtenAt now r.world).2)
  note event r := next r.others (Context.note event r.world)

instance [PageSource (π × σ) κ (Stamped α)] : PageSource (π × Amid σ) κ (Stamped α) where
  nextPage s := (PageSource.nextPage (s.1, s.2.world)).mapWorld fun s' =>
    (s'.1, next s.2.others s'.2)

theorem nextPage_eq [PageSource (π × σ) κ (Stamped α)] (source : π) (r : Amid σ) :
    PageSource.nextPage (source, r) =
      (PageSource.nextPage (source, r.world)).mapWorld fun s => (s.1, next r.others s.2) := rfl

/-- Among nobody, a world answers as it does alone. -/
theorem mirrors_alone [Context σ] [PageSource (π × σ) κ (Stamped α)] :
    PagedMirrors π fun w : σ => ({ world := w } : Amid σ) where
  nextPage source w := by
    rw [nextPage_eq]
    rcases PageSource.nextPage (source, w) with _ | _ <;> rfl
  now _ := rfl
  isLive _ _ _ := rfl
  note _ _ := rfl

section Alone

variable [Context σ] [PageSource (π × σ) κ (Stamped α)]

/-- Among nobody, a pass collects what it collects alone. -/
theorem collectEachBy_alone {callback : Nat → ρ → σ → Deferred σ υ × σ}
    {callback' : Nat → ρ → Amid σ → Deferred (Amid σ) υ × Amid σ}
    (hcall : ∀ index item w, (callback index item w).1.Mirrors ({ world := · })
      (callback' index item { world := w }).1 ∧
        (callback' index item { world := w }).2 = { world := (callback index item w).2 })
    (rule : Nat → JoinRule) (it : PagedEntries π κ α ρ) (limit : Nat) (w : σ) :
    it.collectEachBy rule limit callback' { world := w } =
      (it.collectEachBy rule limit callback w).mapWorld ({ world := · }) := by
  rw [PagedEntries.collectEachBy, PagedEntries.collectEachBy, PagedEntries.collectFrom_eq,
    PagedEntries.collectFrom_eq]
  refine PagedEntries.collectFromBy_view mirrors_alone hcall (fun htasks w => ?_) limit 0 []
    it.source w
  rw [htasks.length_eq]
  exact joinAll_view _ htasks w

/-- Among nobody, a pass delivers what it delivers alone. -/
theorem deliverEach_alone {callback : Nat → ρ → Action σ Unit}
    {callback' : Nat → ρ → Action (Amid σ) Unit}
    (hcall : ∀ index item w, callback' index item { world := w } =
      (callback index item w).mapWorld ({ world := · }))
    (it : PagedEntries π κ α ρ) (limit : Nat) (w : σ) :
    it.deliverEach limit callback' { world := w } =
      (it.deliverEach limit callback w).mapWorld ({ world := · }) :=
  PagedEntries.deliverFrom_view mirrors_alone hcall limit 0 0 it.source w

end Alone

variable [Ord κ]

/-- The lock is sound and stays so, whatever others do, and values are judged by `policy`. -/
structure Sound (policy : Policy) (r : Amid (World κ α)) : Prop where
  intact : Intact policy r.world
  others : ∀ change ∈ r.others, ∀ {w : World κ α}, Intact policy w → Intact policy (change w)

theorem Sound.next {policy : Policy} {r : Amid (World κ α)} (h : r.Sound policy) {w : World κ α}
    (hw : Intact policy w) : (next r.others w).Sound policy := by
  obtain ⟨world, others⟩ := r
  rcases others with - | ⟨change, others⟩
  · exact ⟨hw, by simp [Amid.next]⟩
  · exact ⟨h.others change List.mem_cons_self hw, fun other hother =>
      h.others other (List.mem_cons_of_mem _ hother)⟩

end Amid

/-! ## Requests -/

section Requests

variable [Ord κ] [Std.TransOrd κ] {policy : Policy}

/-- The source ends if it has nothing to serve, and else it serves up to a page of that. -/
theorem Amid.nextPage_cases {r : Amid (World κ α)} (hr : r.Sound policy)
    (source : Memory.Pages κ) :
    (toServe r.world source = [] ∧
      ∃ s, PageSource.nextPage (source, r) = .ok none s ∧ s.2.Sound policy) ∨
    (toServe r.world source ≠ [] ∧ ∃ r',
      PageSource.nextPage (source, r) =
        .ok (some ((toServe r.world source).take source.pageSize.count))
          (source.served ((toServe r.world source).take source.pageSize.count), r') ∧
      r'.Sound policy) := by
  by_cases hserve : toServe r.world source = []
  · obtain ⟨source', hnext⟩ := World.nextPage_of_nil hr.intact.not_poisoned hserve
    refine .inl ⟨hserve, (source', next r.others r.world), ?_, hr.next hr.intact⟩
    exact congrArg (Result.mapWorld _) hnext
  · obtain ⟨w', hnext, hsame, -⟩ := World.nextPage_of_cons hr.intact.not_poisoned hserve
    refine .inr ⟨hserve, next r.others w', ?_, hr.next (hsame.intact hr.intact)⟩
    exact congrArg (Result.mapWorld _) hnext

/-- Whatever a pass asks for, the lock stays sound. -/
theorem Amid.heldByPaging (policy : Policy) :
    HeldByPaging (π := Memory.Pages κ) (Amid.Sound policy : Amid (World κ α) → Prop) where
  nextPage {r} source hr := by
    rcases Amid.nextPage_cases hr source with ⟨-, s, hnext, hs⟩ | ⟨-, r', hnext, hr'⟩
    · rw [hnext]
      exact hs
    · rw [hnext]
      exact hr'
  now hr := hr.next hr.intact.now
  isLive _ _ hr := hr.next ⟨hr.intact.policy_eq, hr.intact.not_poisoned⟩
  note _ hr := hr.next ⟨hr.intact.policy_eq, hr.intact.not_poisoned⟩

/-- A request met a sound world, and a judgement is by `policy`. -/
def PagedEvent.Sound (policy : Policy) : PagedEvent (Amid (World κ α)) κ α ρ υ → Prop
  | requested met _ => met.Sound policy
  | judged writtenAt now live => live = policy writtenAt now
  | _ => True

theorem PagedEvent.shownByPaging (policy : Policy) : ShownByPaging (Memory.Pages κ)
    (Amid.Sound policy)
    (PagedEvent.Sound policy : PagedEvent (Amid (World κ α)) κ α ρ υ → Prop) where
  requested _ _ hr := hr
  read _ := trivial
  judged writtenAt now {r} hr := by
    change r.world.policy writtenAt now = _
    rw [hr.intact.policy_eq]
  called _ _ _ := trivial
  joining _ := trivial

end Requests

/-! ## What is given of a page -/

/-- A reading of the clock. -/
def PagedEvent.reading? : PagedEvent ω κ α ρ υ → Option Timestamp
  | read now => some now
  | _ => none

/-- An item that the callback is given. -/
def PagedEvent.item? : PagedEvent ω κ α ρ υ → Option ρ
  | called _ item _ => some item
  | _ => none

namespace Reel

/-- The entries of the page, if there is one. -/
def page (s : Reel ω κ α ρ υ) : List (κ × Stamped α) :=
  match s.answer with
  | .ok (some page) => page
  | _ => []

/-- The readings of the clock. -/
def readings (s : Reel ω κ α ρ υ) : List Timestamp := s.events.filterMap PagedEvent.reading?

/-- The items that the callback was given. -/
def items (s : Reel ω κ α ρ υ) : List ρ := s.events.filterMap PagedEvent.item?

/-- The entries of the page that are live at the time that was read. -/
def shown (policy : Policy) (s : Reel ω κ α ρ υ) : List (κ × Option α) :=
  match s.readings with
  | [now] => liveAmong policy now s.page
  | _ => []

/-- The page came, the clock was read once, right then, and the callback was given what is live
at that time of the entries that were looked at. -/
structure Gives (policy : Policy) (project : κ → Option α → ρ) (s : Reel ω κ α ρ υ)
    (page seen : List (κ × Stamped α)) : Prop where
  answer_eq : s.answer = .ok (some page)
  read : ∃ now rest, s.events = .read now :: rest ∧ s.readings = [now] ∧
    s.items = (liveAmong policy now seen).map fun e => project e.1 e.2

theorem Gives.page_eq {policy : Policy} {project : κ → Option α → ρ} {s : Reel ω κ α ρ υ}
    {page seen : List (κ × Stamped α)} (h : s.Gives policy project page seen) : s.page = page := by
  rw [Reel.page, h.answer_eq]

end Reel

theorem readings_lookFilm (project : κ → Option α → ρ) (index : Nat) (looks : List (Look κ α)) :
    (lookFilm project index looks : List (PagedEvent ω κ α ρ υ)).filterMap PagedEvent.reading? =
      [] := by
  refine List.filterMap_eq_nil_iff.mpr fun event hevent => ?_
  rcases mem_lookFilm hevent with ⟨_, _, _, rfl⟩ | ⟨_, _, _, rfl⟩ <;> rfl

theorem items_lookFilm (project : κ → Option α → ρ) (index : Nat) (looks : List (Look κ α)) :
    (lookFilm project index looks : List (PagedEvent ω κ α ρ υ)).filterMap PagedEvent.item? =
      (callsIn project looks).map Prod.fst := by
  have judgement : ∀ t : Turn κ α,
      (t.judgement : List (PagedEvent ω κ α ρ υ)).filterMap PagedEvent.item? = [] := fun t => by
    match t with
    | .null _ _ _ => rfl
    | .value _ _ _ _ _ => rfl
    | .ended => rfl
    | .failed _ => rfl
  induction looks generalizing index with
  | nil => rfl
  | cons l looks ih =>
    rcases hfound : l.turn.found? with - | e
    · rw [lookFilm_cons_none hfound, callsIn_cons_none hfound, List.filterMap_append, judgement,
        List.nil_append, ih]
    · rw [lookFilm_cons_some hfound, callsIn_cons_some hfound, List.filterMap_append, judgement,
        List.nil_append, List.filterMap_cons_some (by rfl), ih, List.map_cons]

/-- What follows on a page, as a pass films it, gives what is live of the entries that were
looked at. -/
theorem gives_of_looks {policy : Policy} {project : κ → Option α → ρ} {met : ω}
    {page seen : List (κ × Stamped α)} {now : Timestamp} {index : Nat} {looks : List (Look κ α)}
    {closing : List (PagedEvent ω κ α ρ υ)} (hlooks : LooksAt now seen looks)
    (hclosing : ∀ event ∈ closing, event.isClosing = true)
    (hjudged : ∀ {writtenAt time live}, (.judged writtenAt time live : PagedEvent ω κ α ρ υ) ∈
      lookFilm project index looks → live = policy writtenAt time) :
    Reel.Gives policy project
      ⟨met, .ok (some page), .read now :: (lookFilm project index looks ++ closing)⟩ page seen where
  answer_eq := rfl
  read := by
    have hseen := seenIn_eq_liveAmong hlooks (judgedBy_of_lookFilm hjudged)
    have hread : closing.filterMap PagedEvent.reading? = [] :=
      List.filterMap_eq_nil_iff.mpr fun event hevent => by
        match event, hclosing event hevent with
        | .joining _, _ => rfl
        | .finished _ _ _, _ => rfl
    have hcalled : closing.filterMap PagedEvent.item? = [] :=
      List.filterMap_eq_nil_iff.mpr fun event hevent => by
        match event, hclosing event hevent with
        | .joining _, _ => rfl
        | .finished _ _ _, _ => rfl
    refine ⟨now, _, rfl, ?_, ?_⟩
    · rw [Reel.readings, List.filterMap_cons_some (by rfl), List.filterMap_append,
        readings_lookFilm, hread, List.append_nil]
    · rw [Reel.items, List.filterMap_cons_none (by rfl), List.filterMap_append, items_lookFilm,
        hcalled, List.append_nil, map_callsIn, hseen]

/-! ## From page to page -/

/-- A reel in a store that others change. -/
abbrev SharedReel (κ α ρ υ : Type) [Ord κ] := Reel (Amid (World κ α)) κ α ρ υ

/-- The pass came to the end of its source. -/
def succeeded {β : Type} : Except StoreError (Option β) → Bool
  | .ok (some _) => true
  | _ => false

theorem succeeded_map {β γ : Type} (outcome : Except StoreError (Option β)) (f : β → γ) :
    succeeded (outcome.map (Option.map f)) = succeeded outcome := by
  rcases outcome with e | - | b <;> rfl

/-- The last key of some entries, or else the one before. -/
def Served.lastOf (last : Option κ) (entries : List (κ × Stamped α)) : Option κ :=
  (entries.getLast?.map Prod.fst).or last

theorem Served.lastOf_append {last : Option κ} {page : List (κ × Stamped α)} (h : page ≠ [])
    (more : List (κ × Stamped α)) :
    lastOf last (page ++ more) = lastOf (page.getLast?.map Prod.fst) more := by
  rw [lastOf, lastOf, List.getLast?_append, List.getLast?_eq_some_getLast h]
  rcases more.getLast? with - | e <;> rfl

/-- What is shown of a page is in the order of its keys. -/
theorem Reel.sublist_shown (policy : Policy) (s : Reel ω κ α ρ υ) :
    ((s.shown policy).map Prod.fst).Sublist (s.page.map Prod.fst) := by
  unfold Reel.shown
  split
  · exact sublist_liveAmong _ _ _
  · exact List.nil_sublist _

theorem Reel.sublist_flatMap_shown (policy : Policy) (reels : List (Reel ω κ α ρ υ)) :
    ((reels.flatMap (Reel.shown policy)).map Prod.fst).Sublist
      ((reels.flatMap Reel.page).map Prod.fst) := by
  induction reels with
  | nil => exact .slnil
  | cons s reels ih =>
    rw [List.flatMap_cons, List.flatMap_cons, List.map_append, List.map_append]
    exact (s.sublist_shown policy).append ih

section Served

variable [Ord κ]

/-- The table in which the source was asked. -/
def SharedReel.table (s : SharedReel κ α ρ υ) : Table κ (Stamped α) := s.met.world.memory.table

/-- Page by page a source serves from its last key on, in the table of each request. -/
inductive Served (policy : Policy) (project : κ → Option α → ρ) :
    Memory.Pages κ → List (SharedReel κ α ρ υ) → Bool → Prop where
  | limit {source : Memory.Pages κ} : Served policy project source [] false
  | ended {source : Memory.Pages κ} {met : Amid (World κ α)} : toServe met.world source = [] →
    Served policy project source [⟨met, .ok none, []⟩] true
  | page {source : Memory.Pages κ} {s : SharedReel κ α ρ υ} {page : List (κ × Stamped α)}
    {reels : List (SharedReel κ α ρ υ)} {done : Bool} : toServe s.met.world source ≠ [] →
    (toServe s.met.world source).take source.pageSize.count = page →
    s.Gives policy project page page → Served policy project (source.served page) reels done →
    Served policy project source (s :: reels) done
  | broken {source : Memory.Pages κ} {s : SharedReel κ α ρ υ} {page seen : List (κ × Stamped α)} :
    toServe s.met.world source ≠ [] →
    (toServe s.met.world source).take source.pageSize.count = page → seen <+: page →
    s.Gives policy project page seen → Served policy project source [s] false

variable {policy : Policy} {project : κ → Option α → ρ}

/-- In sound worlds a pass goes on page by page. -/
theorem served_of_unfolds [Std.TransOrd κ]
    {Closes : PagedEntries.Closing (Amid (World κ α)) κ α ρ υ}
    (hclose : PagedEntries.ClosesWithWork Closes) {limit : Nat} {source : Memory.Pages κ}
    {index : Nat} {reels : List (SharedReel κ α ρ υ)}
    {outcome : Except StoreError (Option (List υ))}
    (h : PagedEntries.Unfolds project Closes limit source index reels outcome)
    (hsound : ∀ event ∈ reels.flatMap Reel.film, event.Sound policy) :
    Served policy project source reels (succeeded outcome) := by
  induction h with
  | limit => exact .limit
  | @ended limit source index met s hnext =>
    have hmet : met.Sound policy := hsound _ List.mem_cons_self
    rcases Amid.nextPage_cases hmet source with ⟨hserve, -⟩ | ⟨-, r', hnext', -⟩
    · exact .ended hserve
    · rw [hnext'] at hnext
      cases hnext
  | @failed limit source index met s e hnext =>
    have hmet : met.Sound policy := hsound _ List.mem_cons_self
    rcases Amid.nextPage_cases hmet source with ⟨-, s', hnext', -⟩ | ⟨-, r', hnext', -⟩ <;>
      rw [hnext'] at hnext <;> cases hnext
  | @page limit source index met s page now looks closing answers reels outcome hnext hlooks hc _
      ih =>
    have hmet : met.Sound policy := hsound _ List.mem_cons_self
    have hrest := ih fun event hevent => hsound event (List.mem_append_right _ hevent)
    rcases Amid.nextPage_cases hmet source with ⟨-, s', hnext', -⟩ | ⟨hserve, r', hnext', -⟩ <;>
      rw [hnext'] at hnext <;> cases hnext
    rw [succeeded_map]
    exact .page hserve rfl (gives_of_looks hlooks (hclose hc) fun hmem =>
      hsound (.judged _ _ _) (List.mem_append_left _ (mem_film_of_looks hmem))) hrest
  | @broken limit source index met s seen unseen now looks closing e hnext hlooks hc =>
    have hmet : met.Sound policy := hsound _ List.mem_cons_self
    rcases Amid.nextPage_cases hmet source with ⟨-, s', hnext', -⟩ | ⟨hserve, r', hnext', -⟩ <;>
      rw [hnext'] at hnext
    · cases hnext
    · simp only [Result.ok.injEq, Option.some.injEq] at hnext
      exact .broken hserve hnext.1 (List.prefix_append seen unseen)
        (gives_of_looks hlooks (hclose hc) fun hmem =>
          hsound (.judged _ _ _) (List.mem_append_left _ (mem_film_of_looks hmem)))

namespace Served

variable {source : Memory.Pages κ} {reels : List (SharedReel κ α ρ υ)} {done : Bool}

/-- At any reel the source goes on from the last key of the pages before it. -/
theorem split (h : Served policy project source reels done)
    {past later : List (SharedReel κ α ρ υ)} {s : SharedReel κ α ρ υ}
    (hsplit : reels = past ++ s :: later) : ∃ source' : Memory.Pages κ,
      source'.pageSize = source.pageSize ∧
      source'.last = lastOf source.last (past.flatMap Reel.page) ∧
      Served policy project source' (s :: later) done := by
  induction past generalizing source reels with
  | nil =>
    obtain rfl := hsplit
    exact ⟨source, rfl, rfl, h⟩
  | cons t past ih =>
    cases h with
    | limit => cases hsplit
    | ended _ => simp at hsplit
    | broken _ _ _ _ => simp at hsplit
    | page hserve hpage hgives hrest =>
      obtain ⟨rfl, hreels⟩ := List.cons.inj hsplit
      obtain ⟨source', hsize, hlast, hserved⟩ := ih hrest hreels
      refine ⟨source', hsize, ?_, hserved⟩
      rw [hlast, List.flatMap_cons, hgives.page_eq, lastOf_append (hpage ▸ page_ne_nil hserve)]
      rfl

/-- A reel with a page shows the first of what lies beyond the last key of the source. What is
given of the page is all that is live of it, unless the pass fails there. -/
theorem head {s : SharedReel κ α ρ υ} {later : List (SharedReel κ α ρ υ)}
    (h : Served policy project source (s :: later) done) {page : List (κ × Stamped α)}
    (hanswer : s.answer = .ok (some page)) :
    (page = (s.table.after source.last).take source.pageSize.count ∧ page ≠ []) ∧
      ∃ seen, seen <+: page ∧ (done = true ∨ later ≠ [] → seen = page) ∧
        s.Gives policy project page seen := by
  have served : ∀ {page' seen : List (κ × Stamped α)}, toServe s.met.world source ≠ [] →
      (toServe s.met.world source).take source.pageSize.count = page' →
      s.Gives policy project page' seen → page' = page ∧
        page = (s.table.after source.last).take source.pageSize.count ∧ page ≠ [] := by
    intro page' seen hserve hpage hgives
    obtain rfl : page' = page := by
      have := hgives.answer_eq.symm.trans hanswer
      simpa using this
    refine ⟨rfl, ?_, hpage ▸ page_ne_nil hserve⟩
    rw [← hpage, ← (after_of_toServe hserve).2]
    rfl
  cases h with
  | ended _ => cases hanswer
  | page hserve hpage hgives _ =>
    obtain ⟨rfl, hserved⟩ := served hserve hpage hgives
    exact ⟨hserved, _, List.prefix_refl _, fun _ => rfl, hgives⟩
  | broken hserve hpage hprefix hgives =>
    obtain ⟨rfl, hserved⟩ := served hserve hpage hgives
    exact ⟨hserved, _, hprefix, by simp, hgives⟩

variable [Std.TransOrd κ]

/-- What lies beyond the last key of a page lies beyond all of them. -/
theorem lt_of_beyond_last {page : List (κ × Stamped α)} (hasc : Ascending page) (hne : page ≠ [])
    {key : κ} (h : Table.beyond (page.getLast?.map Prod.fst) key = true) :
    ∀ e ∈ page, compare e.1 key = .lt := by
  obtain ⟨before, last, rfl⟩ : ∃ before last, page = before ++ [last] :=
    ⟨_, _, (List.dropLast_append_getLast hne).symm⟩
  have hlast : compare last.1 key = .lt := by simpa using h
  intro e he
  rcases List.mem_append.mp he with he | he
  · exact Std.TransCmp.lt_trans
      ((List.pairwise_append.mp hasc).2.2 e he last (List.mem_singleton_self last)) hlast
  · exact List.mem_singleton.mp he ▸ hlast

/-- The keys of all pages ascend, from beyond the last key of the source. -/
theorem ascending (h : Served policy project source reels done) :
    Ascending (reels.flatMap Reel.page) ∧
      ∀ e ∈ reels.flatMap Reel.page, Table.beyond source.last e.1 = true := by
  have one : ∀ {source : Memory.Pages κ} {s : SharedReel κ α ρ υ} {page},
      toServe s.met.world source ≠ [] →
      (toServe s.met.world source).take source.pageSize.count = page →
      page ≠ [] ∧ Ascending page ∧ ∀ e ∈ page, Table.beyond source.last e.1 = true := by
    intro source s page hserve hpage
    obtain ⟨-, hafter⟩ := after_of_toServe hserve
    rw [← hafter] at hpage
    refine ⟨?_, ?_, fun e he => ?_⟩
    · rw [← hpage, hafter]
      exact page_ne_nil hserve
    · exact hpage ▸ (Table.ascending_after _ _).sublist (List.take_sublist _ _)
    · exact (Table.mem_after.mp ((List.take_sublist _ _).subset (hpage ▸ he))).2
  induction h with
  | limit => exact ⟨.nil, by simp⟩
  | ended _ => exact ⟨.nil, by simp [Reel.page]⟩
  | @page source s page reels done hserve hpage hgives _ ih =>
    obtain ⟨hne, hasc, hbeyond⟩ := one hserve hpage
    obtain ⟨hascending, hbehind⟩ := ih
    have hlt : ∀ e ∈ reels.flatMap Reel.page, ∀ d ∈ page, compare d.1 e.1 = .lt := fun e he =>
      lt_of_beyond_last hasc hne (hbehind e he)
    rw [List.flatMap_cons, hgives.page_eq]
    refine ⟨List.pairwise_append.mpr ⟨hasc, hascending, fun d hd e he => hlt e he d hd⟩, ?_⟩
    intro e he
    rcases List.mem_append.mp he with he | he
    · exact hbeyond e he
    · obtain ⟨d, hd⟩ := List.exists_mem_of_ne_nil page hne
      exact Table.beyond_trans (hbeyond d hd) (hlt e he d hd)
  | broken hserve hpage _ hgives =>
    obtain ⟨-, hasc, hbeyond⟩ := one hserve hpage
    rw [List.flatMap_singleton, hgives.page_eq]
    exact ⟨hasc, hbeyond⟩

end Served

/-- The key was stored when the source was asked, and what was stored passed the check at the
time read for the page. -/
def SharedReel.Shows (policy : Policy) (s : SharedReel κ α ρ υ) (key : κ) : Prop :=
  ∃ stored, s.table.get? key = some stored ∧
    ∀ now ∈ s.readings, (check policy (some stored) now).isSome = true

/-- A key that every request meets is shown, if the source comes to its end. -/
theorem Served.mem_shown [Std.LawfulEqOrd κ] {source : Memory.Pages κ}
    {reels : List (SharedReel κ α ρ υ)} {done : Bool}
    (h : Served policy project source reels done) (hdone : done = true) {key : κ}
    (hshows : ∀ s ∈ reels, SharedReel.Shows policy s key) (hdrained : source.drained = false)
    (hbeyond : Table.beyond source.last key = true) :
    key ∈ (reels.flatMap (Reel.shown policy)).map Prod.fst := by
  induction h with
  | limit => cases hdone
  | broken _ _ _ _ => cases hdone
  | ended hserve =>
    obtain ⟨stored, hstored, -⟩ := hshows _ (List.mem_singleton_self _)
    have hmem := mem_toServe hdrained hbeyond hstored
    rw [hserve] at hmem
    cases hmem
  | @page source s page reels done hserve hpage hgives _ ih =>
    obtain ⟨stored, hstored, hlive⟩ := hshows s List.mem_cons_self
    obtain ⟨now, rest, -, hreadings, -⟩ := hgives.read
    have hmem := mem_page_or_ahead (mem_toServe hdrained hbeyond hstored)
    rw [hpage] at hmem
    rw [List.flatMap_cons, List.map_append, List.mem_append]
    rcases hmem with hmem | ⟨hmore, hahead⟩
    · obtain ⟨value, hvalue⟩ :=
        Option.isSome_iff_exists.mp (hlive now (hreadings ▸ List.mem_singleton_self now))
      refine .inl (List.mem_map.mpr ⟨(key, value), ?_, rfl⟩)
      rw [Reel.shown, hreadings, hgives.page_eq]
      exact mem_liveAmong.mpr ⟨stored, hmem, hvalue⟩
    · exact .inr (ih hdone (fun t ht => hshows t (List.mem_cons_of_mem _ ht)) hmore hahead)

/-! ## The rule -/

variable [Std.TransOrd κ] [Std.LawfulEqOrd κ] [DecidableEq κ]

/-- What the film of a pass over a shared store shows, if its source was opened with pages of
that size. -/
structure SharedPages (policy : Policy) (project : κ → Option α → ρ) (pageSize : PageSize)
    (film : List (PagedEvent (Amid (World κ α)) κ α ρ υ)) (done : Bool) : Prop where
  /-- Everything comes after a request for a page. -/
  cut : (reelsOf film).flatMap Reel.film = film
  /-- A page is the first of the entries beyond the last key of the page before it, as they were
  stored when the source was asked. -/
  page_eq : ∀ {past later} {s : SharedReel κ α ρ υ} {page}, reelsOf film = past ++ s :: later →
    s.answer = .ok (some page) →
    page = (s.table.after ((past.flatMap Reel.page).getLast?.map Prod.fst)).take pageSize.count ∧
      page ≠ []
  /-- The keys of all pages ascend strictly, so none comes twice. -/
  ascending : Ascending ((reelsOf film).flatMap Reel.page)
  /-- The callback was given what is live of a page at the one time that was read when it came,
  and all of that, unless the pass failed there. -/
  gives : ∀ {past later} {s : SharedReel κ α ρ υ} {page}, reelsOf film = past ++ s :: later →
    s.answer = .ok (some page) →
    ∃ seen, seen <+: page ∧ (done = true ∨ later ≠ [] → seen = page) ∧
      s.Gives policy project page seen
  /-- If the pass came to the end of its source, a key that every request showed was given, and
  once. -/
  complete : done = true → ∀ {key}, (∀ s ∈ reelsOf film, SharedReel.Shows policy s key) →
    (((reelsOf film).flatMap (Reel.shown policy)).map Prod.fst).count key = 1

theorem Served.sharedPages {pageSize : PageSize} {reels : List (SharedReel κ α ρ υ)}
    {film : List (PagedEvent (Amid (World κ α)) κ α ρ υ)} {done : Bool}
    (h : Served policy project { pageSize } reels done) (hfilm : film = reels.flatMap Reel.film)
    (hreels : reelsOf film = reels) : SharedPages policy project pageSize film done := by
  obtain rfl := hreels
  refine ⟨hfilm.symm, fun hsplit hanswer => ?_, h.ascending.1, fun hsplit hanswer => ?_,
    fun hdone key hshows => ?_⟩
  · obtain ⟨source', hsize, hlast, hserved⟩ := h.split hsplit
    have hpage := (hserved.head hanswer).1
    rwa [hsize, hlast, Served.lastOf, Option.or_none] at hpage
  · obtain ⟨source', -, -, hserved⟩ := h.split hsplit
    exact (hserved.head hanswer).2
  · refine List.count_eq_one_of_mem ?_ (h.mem_shown hdone hshows rfl rfl)
    have hkeys := Reel.sublist_flatMap_shown policy (reelsOf film)
    have hpairwise : (((reelsOf film).flatMap Reel.page).map Prod.fst).Pairwise
        (compare · · = .lt) := List.pairwise_map.mpr h.ascending.1
    exact nodup_of_ascending (hpairwise.sublist hkeys)

/-- Whatever the callback, its works and others do to the store, short of breaking its lock,
and however the clock moves, a pass that collects and one that delivers go by the pages as they
were when they were asked for. -/
theorem shared_pages (project : κ → Option α → ρ) (pageSize : PageSize)
    {r : Amid (World κ α)} (hr : r.Sound policy) (limit : Nat) :
    let pass : PagedEntries (Memory.Pages κ) κ α ρ := { source := { pageSize }, project }
    (∀ (rule : Nat → JoinRule)
      {callback : Nat → ρ → Amid (World κ α) → Deferred (Amid (World κ α)) υ × Amid (World κ α)},
      (∀ index item r, r.Sound policy → (callback index item r).2.Sound policy) →
      (∀ index item r r', r'.Sound policy →
        ((callback index item r).1.finish r').world.Sound policy) →
      (pass.collectFilmed rule limit callback r).mapWorld Filmed.world =
          pass.collectEachBy rule limit callback r ∧
        SharedPages policy project pageSize (pass.collectFilmed rule limit callback r).world.film
          (succeeded (pass.collectEachBy rule limit callback r).outcome)) ∧
    ∀ {callback : Nat → ρ → Action (Amid (World κ α)) Unit},
      (∀ index item r, r.Sound policy → (callback index item r).world.Sound policy) →
      (pass.deliverFilmed limit callback r).mapWorld Filmed.world =
          pass.deliverEach limit callback r ∧
        SharedPages policy project pageSize (pass.deliverFilmed limit callback r).world.film
          (succeeded (pass.deliverEach limit callback r).outcome) := by
  intro pass
  refine ⟨fun rule callback hcall hfinish => ⟨pass.collectFilmed_world rule limit callback r, ?_⟩,
    fun {callback} hcall => ⟨pass.deliverFilmed_world limit callback r, ?_⟩⟩
  · obtain ⟨reels, hfilm, hreels, hunfolds⟩ := pass.unfolds_collectFilmed rule limit callback r
    have hsound := (PagedEntries.holds_collectFilmed (Amid.heldByPaging policy)
      (PagedEvent.shownByPaging policy) hcall (fun index item r r' hr' =>
        ⟨hfinish index item r r' hr', trivial⟩) rule pass limit hr).film
    rw [hfilm] at hsound
    exact (served_of_unfolds PagedEntries.joinCloses_withWork hunfolds hsound).sharedPages hfilm
      hreels
  · obtain ⟨reels, outcome, hfilm, hreels, hunfolds, houtcome⟩ :=
      pass.unfolds_deliverFilmed limit callback r
    have hsound := (PagedEntries.holds_deliverFilmed (Amid.heldByPaging policy)
      (PagedEvent.shownByPaging policy) hcall pass limit hr).film
    rw [hfilm] at hsound
    have hserved := served_of_unfolds PagedEntries.nothingCloses_withWork hunfolds hsound
    have hdone : succeeded outcome = succeeded (pass.deliverEach limit callback r).outcome := by
      rw [houtcome]
      rcases outcome with e | - | answers <;> rfl
    exact hdone ▸ hserved.sharedPages hfilm hreels

end Served

/-! A store that is changed in front of a pass and behind it. -/

namespace Amid

/-- A store with two entries. While the first page is being read, others write over its entry. -/
def busy : Amid (World Nat Nat) where
  world :=
    { memory := { table := ⟨[(1, ⟨some 10, 0⟩), (3, ⟨some 12, 0⟩)], by decide⟩ }
      policy := .always }
  others := [fun w => (Direct.put 1 (some 11) w).world]

/-- At the first item another entry is put behind it. At every other one the store is cleared,
but for the last key. -/
def meddle (index : Nat) (_ : Nat × Option Nat) : Action (Amid (World Nat Nat)) Unit := fun r =>
  if index = 0 then .ok () { r with world := (Direct.put 2 (some 20) r.world).world }
  else .ok () { r with world := (Direct.put 3 (some 30) (Direct.clear r.world).world).world }

/-- The same, in works that wait and then hand back their items. -/
def meddleLater (index : Nat) (item : Nat × Option Nat) (r : Amid (World Nat Nat)) :
    Deferred (Amid (World Nat Nat)) (Nat × Option Nat) × Amid (World Nat Nat) :=
  ({ waits := index, finish := fun r => (meddle index item r).map fun _ => item }, r)

theorem sound_busy : busy.Sound .always := by
  refine ⟨⟨rfl, rfl⟩, fun change hchange w hw => ?_⟩
  obtain rfl := List.mem_singleton.mp hchange
  exact hw.put 1 (some 11)

theorem Sound.meddle {r : Amid (World Nat Nat)} (hr : r.Sound .always) (index : Nat)
    (item : Nat × Option Nat) : (meddle index item r).world.Sound .always := by
  unfold Amid.meddle
  split
  · exact ⟨hr.intact.put 2 (some 20), hr.others⟩
  · exact ⟨hr.intact.clear.put 3 (some 30), hr.others⟩

/-- A pass over the busy store with pages of one. -/
def pass : PagedEntries (Memory.Pages Nat) Nat Nat (Nat × Option Nat) where
  source := { pageSize := .ofNat 1 }
  project := Prod.mk

/-- The first entry is delivered as it was when its page came, the one that was put behind it is
not missed, and the one that stays is delivered once, as it was when its own page came. -/
theorem shared_pages_busy :
    SharedPages .always Prod.mk (.ofNat 1) (pass.deliverFilmed 5 meddle busy).world.film true ∧
      (pass.deliverFilmed 5 meddle busy).world.film.filterMap PagedEvent.item? =
        [(1, some 10), (2, some 20), (3, some 30)] ∧
      SharedPages .always Prod.mk (.ofNat 1)
        (pass.collectFilmed JoinRule.ofCount 5 meddleLater busy).world.film true := by
  obtain ⟨hcollect, hdeliver⟩ := shared_pages (υ := Nat × Option Nat)
    (Prod.mk : Nat → Option Nat → Nat × Option Nat) (.ofNat 1) sound_busy 5
  have hdelivered : SharedPages .always Prod.mk (.ofNat 1)
      (pass.deliverFilmed 5 meddle busy).world.film
      (succeeded (pass.deliverEach 5 meddle busy).outcome) :=
    (hdeliver fun index item r hr => hr.meddle index item).2
  have hcollected : SharedPages .always Prod.mk (.ofNat 1)
      (pass.collectFilmed JoinRule.ofCount 5 meddleLater busy).world.film
      (succeeded (pass.collectEachBy JoinRule.ofCount 5 meddleLater busy).outcome) := by
    refine (hcollect JoinRule.ofCount (fun index item r hr => hr) fun index item r r' hr' => ?_).2
    rw [meddleLater, Result.world_map]
    exact hr'.meddle index item
  have hdelivers : succeeded (pass.deliverEach 5 meddle busy).outcome = true := by decide +kernel
  have hcollects : succeeded (pass.collectEachBy JoinRule.ofCount 5 meddleLater busy).outcome =
      true := by decide +kernel
  exact ⟨hdelivers ▸ hdelivered, by decide +kernel, hcollects ▸ hcollected⟩

end Amid

end LazyExpiry
