import LazyExpiry.Proofs.Paged.FirstFailure
import LazyExpiry.Proofs.Paged.Shared

/-!
# What a delivering pass does, in what order

The callback of a delivering pass leaves no work, so a call is over before the next entry is
looked at. On film a call is followed by what became of it (`Filmed.ofDelivery`), and a page is
given entry by entry, up to its end or to the first call that fails (`GivesPage`).

A pass goes from page to page in this way (`Delivers`). It succeeds if and only if it comes to
the end of its source without a failure (`Delivers.outcome_eq_ok_iff`), and what it has given by
any end is a front of the live entries of its pages, all of them unless a call failed
(`Delivers.items_of_judgedBy`).
-/

namespace LazyExpiry

variable {ω κ α π ρ υ : Type}

/-! ## Deliveries on film -/

namespace Filmed

/-- A callback that leaves no work, whose calls are filmed with what became of them. -/
def ofDelivery (callback : Nat → ρ → Action ω Unit) (index : Nat) (item : ρ) :
    Action (Filmed ω κ α ρ Unit) Unit := fun r =>
  (callback index item r.world).mapWorld fun w => (r.shoot r.world (.called index item 0)).shoot w
    (.finished index item (callback index item r.world).outcome)

variable {callback : Nat → ρ → Action ω Unit} {index : Nat} {item : ρ} {r : Filmed ω κ α ρ Unit}

theorem ofDelivery_of_ok {w : ω} (h : callback index item r.world = .ok () w) :
    ofDelivery callback index item r = .ok ()
      ⟨w, r.film ++ [.called index item 0, .finished index item (.ok ())]⟩ := by
  simp [ofDelivery, h, shoot]

theorem ofDelivery_of_error {e : StoreError} {w : ω}
    (h : callback index item r.world = .error e w) :
    ofDelivery callback index item r = .error e
      ⟨w, r.film ++ [.called index item 0, .finished index item (.error e)]⟩ := by
  simp [ofDelivery, h, shoot]

end Filmed

/-- A delivering pass to be made. -/
structure Delivery (ω π κ α ρ : Type) extends PagedEntries π κ α ρ where
  /-- How many pages may be asked for. -/
  limit : Nat
  callback : Nat → ρ → Action ω Unit
  world : ω

namespace Delivery

variable [Context ω] [PageSource (π × ω) κ (Stamped α)]

/-- What the pass comes to. -/
def result (d : Delivery ω π κ α ρ) : Result ω (Option Unit) :=
  d.toPagedEntries.deliverEach d.limit d.callback d.world

/-- What the pass comes to, on film. -/
def filmed (d : Delivery ω π κ α ρ) : Result (Filmed ω κ α ρ Unit) (Option Unit) :=
  PagedEntries.deliverFrom d.project (Filmed.ofDelivery d.callback) d.limit 0 0 d.source
    { world := d.world }

/-- What the pass asks for and does. -/
def film (d : Delivery ω π κ α ρ) : List (PagedEvent ω κ α ρ Unit) := d.filmed.world.film

/-- Without its film, the pass on film is the pass. -/
theorem filmed_world (d : Delivery ω π κ α ρ) : d.filmed.mapWorld Filmed.world = d.result := by
  refine (PagedEntries.deliverFrom_view (Filmed.mirrors_world (π := π)) (fun index item r => ?_)
    d.limit 0 0 d.source { world := d.world }).symm
  rw [Filmed.ofDelivery]
  rcases d.callback index item r.world with _ | _ <;> rfl

/-- The pass on film is over when the pass is. -/
theorem outcome_filmed (d : Delivery ω π κ α ρ) : d.filmed.outcome = d.result.outcome := by
  rw [← d.filmed_world, Result.outcome_mapWorld]

/-- A pass that is over by its limit is the same under a higher one. -/
theorem filmed_of_le {d : Delivery ω π κ α ρ} (h : d.result.outcome ≠ .ok none) {limit : Nat}
    (hle : d.limit ≤ limit) : { d with limit }.filmed = d.filmed :=
  PagedEntries.deliverFrom_of_le hle (d.outcome_filmed.symm ▸ h)

end Delivery

/-! ## Pages and passes -/

/-- The film of a page whose live items are given to the callback, the first after `index`
others, and how many have been given by its end, or the failure of the call that is its last. -/
inductive GivesPage (project : κ → Option α → ρ) (now : Timestamp) : Nat →
    List (κ × Stamped α) → List (PagedEvent ω κ α ρ Unit) → Except StoreError Nat → Prop where
  | done {index : Nat} : GivesPage project now index [] [] (.ok index)
  | expired {index : Nat} {e : κ × Stamped α} {page : List (κ × Stamped α)} {t : Turn κ α}
    {film : List (PagedEvent ω κ α ρ Unit)} {outcome : Except StoreError Nat} :
    t.entry? = some (e.1, e.2, now) → t.found? = none →
    GivesPage project now index page film outcome →
    GivesPage project now index (e :: page) (t.judgement ++ film) outcome
  | given {index : Nat} {e : κ × Stamped α} {page : List (κ × Stamped α)} {t : Turn κ α}
    {live : κ × Option α} {film : List (PagedEvent ω κ α ρ Unit)}
    {outcome : Except StoreError Nat} :
    t.entry? = some (e.1, e.2, now) → t.found? = some live →
    GivesPage project now (index + 1) page film outcome →
    GivesPage project now index (e :: page)
      (t.judgement ++ .called index (project live.1 live.2) 0 ::
        .finished index (project live.1 live.2) (.ok ()) :: film) outcome
  /-- The call failed, and the rest of the page is dropped. -/
  | broken {index : Nat} {e : κ × Stamped α} {page : List (κ × Stamped α)} {t : Turn κ α}
    {live : κ × Option α} {error : StoreError} :
    t.entry? = some (e.1, e.2, now) → t.found? = some live →
    GivesPage project now index (e :: page)
      (t.judgement ++ [.called index (project live.1 live.2) 0,
        .finished index (project live.1 live.2) (.error error)]) (.error error)

/-- The film of a delivering pass that may ask a source for `limit` pages, after `index` items, and
what the pass comes to. The clock is read once for every page, when the page has come and before the
first of its items is given. -/
inductive Delivers [PageSource (π × ω) κ (Stamped α)] (project : κ → Option α → ρ) :
    Nat → π → Nat → List (PagedEvent ω κ α ρ Unit) → Except StoreError (Option Unit) → Prop where
  /-- No further page may be asked for. -/
  | limit {source : π} {index : Nat} : Delivers project 0 source index [] (.ok none)
  | ended {limit : Nat} {source : π} {index : Nat} {met : ω} {s : π × ω} :
    PageSource.nextPage (source, met) = .ok none s →
    Delivers project (limit + 1) source index [.requested met (.ok none)] (.ok (some ()))
  | failed {limit : Nat} {source : π} {index : Nat} {met : ω} {s : π × ω} {e : StoreError} :
    PageSource.nextPage (source, met) = .error e s →
    Delivers project (limit + 1) source index [.requested met (.error e)] (.error e)
  | page {limit : Nat} {source : π} {index index' : Nat} {met : ω} {s : π × ω}
    {page : List (κ × Stamped α)} {now : Timestamp} {given film : List (PagedEvent ω κ α ρ Unit)}
    {outcome : Except StoreError (Option Unit)} :
    PageSource.nextPage (source, met) = .ok (some page) s →
    GivesPage project now index page given (.ok index') →
    Delivers project limit s.1 index' film outcome →
    Delivers project (limit + 1) source index
      (.requested met (.ok (some page)) :: .read now :: (given ++ film)) outcome
  /-- The callback failed on the page, and no further one is asked for. -/
  | broken {limit : Nat} {source : π} {index : Nat} {met : ω} {s : π × ω}
    {page : List (κ × Stamped α)} {now : Timestamp} {given : List (PagedEvent ω κ α ρ Unit)}
    {e : StoreError} : PageSource.nextPage (source, met) = .ok (some page) s →
    GivesPage project now index page given (.error e) →
    Delivers project (limit + 1) source index
      (.requested met (.ok (some page)) :: .read now :: given) (.error e)

section Film

variable [Context ω] [PageSource (π × ω) κ (Stamped α)]

/-- A page is given on film. -/
theorem givesPage_giveEach (project : κ → Option α → ρ) (callback : Nat → ρ → Action ω Unit)
    (now : Timestamp) (page : List (κ × Stamped α)) (index : Nat) (r : Filmed ω κ α ρ Unit) :
    ∃ given, (PagedEntries.giveEach project (Filmed.ofDelivery callback) now index page
        r).world.film = r.film ++ given ∧
      GivesPage project now index page given
        (PagedEntries.giveEach project (Filmed.ofDelivery callback) now index page r).outcome := by
  induction page generalizing index r with
  | nil => exact ⟨[], (List.append_nil _).symm, .done⟩
  | cons e page ih =>
    obtain ⟨key, stored⟩ := e
    obtain ⟨turn, hentry, hfilm, hfound⟩ := judge_filmed key stored now r
    rcases hjudge : judge (some stored) now r with ⟨- | value, r₁⟩ <;> rw [hjudge] at hfilm hfound
    · obtain ⟨given, hgiven, hpage⟩ := ih index (Context.note (.skipping now) r₁)
      rw [PagedEntries.giveEach_of_expired hjudge]
      refine ⟨_, ?_, .expired hentry hfound hpage⟩
      rw [hgiven, ← List.append_assoc, ← hfilm]
      rfl
    · rw [PagedEntries.giveEach_of_live hjudge]
      rcases hcall : callback index (project key value) r₁.world with ⟨_, w⟩ | ⟨error, w⟩
      · rw [Filmed.ofDelivery_of_ok hcall, Result.bind_ok]
        obtain ⟨given, hgiven, hpage⟩ := ih (index + 1) ⟨w, r₁.film ++
          [.called index (project key value) 0, .finished index (project key value) (.ok ())]⟩
        refine ⟨_, ?_, .given hentry hfound hpage⟩
        rw [hgiven, ← List.append_assoc, ← hfilm]
        simp
      · rw [Filmed.ofDelivery_of_error hcall, Result.bind_error]
        refine ⟨_, ?_, .broken hentry hfound⟩
        rw [← List.append_assoc, ← hfilm]
        rfl

/-- A pass delivers on film. -/
theorem delivers_deliverFrom (project : κ → Option α → ρ) (callback : Nat → ρ → Action ω Unit)
    (limit pages delivered : Nat) (source : π) (r : Filmed ω κ α ρ Unit) :
    ∃ film, (PagedEntries.deliverFrom project (Filmed.ofDelivery callback) limit pages delivered
        source r).world.film = r.film ++ film ∧
      Delivers project limit source delivered film (PagedEntries.deliverFrom project
        (Filmed.ofDelivery callback) limit pages delivered source r).outcome := by
  induction limit generalizing pages delivered source r with
  | zero => exact ⟨[], (List.append_nil _).symm, .limit⟩
  | succ limit ih =>
    rw [PagedEntries.deliverFrom, Filmed.nextPage_eq]
    rcases hn : PageSource.nextPage (source, r.world) with ⟨- | page, s⟩ | ⟨e, s⟩
    · exact ⟨_, rfl, .ended hn⟩
    · simp only [Result.mapWorld_ok, Result.outcome_ok, Filmed.now_eq, Filmed.world_shoot]
      generalize hbegun : (r.shoot s.2 (.requested r.world (.ok (some page)))).shoot
        (Context.now s.2).2 (.read (Context.now s.2).1) = r₁
      have hread : r₁.film = r.film ++
          [.requested r.world (.ok (some page)), .read (Context.now s.2).1] := by
        rw [← hbegun]
        simp
      obtain ⟨given, hgiven, hpage⟩ := givesPage_giveEach project callback (Context.now s.2).1 page
        delivered r₁
      rcases hg : PagedEntries.giveEach project (Filmed.ofDelivery callback) (Context.now s.2).1
        delivered page r₁ with ⟨delivered', r'⟩ | ⟨e, r'⟩ <;> rw [hg] at hgiven hpage
      · obtain ⟨film, hfilm, hrest⟩ := ih (pages + 1) delivered' s.1 r'
        rw [Result.bind_ok]
        refine ⟨.requested r.world (.ok (some page)) :: .read _ :: (given ++ film), ?_,
          .page hn hpage hrest⟩
        rw [hfilm, ← Result.world_ok delivered' r', hgiven, hread]
        simp
      · rw [Result.bind_error]
        refine ⟨.requested r.world (.ok (some page)) :: .read _ :: given, ?_, .broken hn hpage⟩
        rw [Result.world_error, ← Result.world_error (α := Nat) e r', hgiven, hread]
        simp
    · exact ⟨_, rfl, .failed hn⟩

theorem Delivery.delivers (d : Delivery ω π κ α ρ) :
    Delivers d.project d.limit d.source 0 d.film d.result.outcome := by
  obtain ⟨film, hfilm, hdelivers⟩ := delivers_deliverFrom d.project d.callback d.limit 0 0 d.source
    { world := d.world }
  rw [List.nil_append] at hfilm
  rw [← d.filmed_world, Result.outcome_mapWorld, Delivery.film, Delivery.filmed, hfilm]
  exact hdelivers

end Film

/-! ## The end of a delivering pass -/

/-- The source was asked for a page and had no more. -/
def PagedEvent.isEnd : PagedEvent ω κ α ρ υ → Bool
  | requested _ (.ok none) => true
  | _ => false

theorem PagedEvent.isEnd_of_not_request {event : PagedEvent ω κ α ρ υ}
    (h : event.isRequest = false) : event.isEnd = false := by
  match event with
  | .requested _ _ => cases h
  | .read _ => rfl
  | .judged _ _ _ => rfl
  | .called _ _ _ => rfl
  | .joining _ => rfl
  | .finished _ _ _ => rfl

/-- A call or a work that failed. -/
def PagedEvent.isBroken : PagedEvent ω κ α ρ υ → Bool
  | finished _ _ (.error _) => true
  | _ => false

theorem PagedEvent.isBroken_of_failure? {event : PagedEvent ω κ α ρ υ} {e : StoreError}
    (h : event.failure? = some e) (hrequest : event.isRequest = false) :
    event.isBroken = true := by
  match event with
  | .requested _ _ => cases hrequest
  | .finished _ _ (.error _) => rfl
  | .finished _ _ (.ok _) => cases h
  | .read _ => cases h
  | .judged _ _ _ => cases h
  | .called _ _ _ => cases h
  | .joining _ => cases h

/-- A judgement is by that policy. -/
def PagedEvent.JudgedBy (policy : Policy) : PagedEvent ω κ α ρ υ → Prop
  | judged writtenAt now live => live = policy writtenAt now
  | _ => True

/-- What holds of judgements holds of everything filmed of a look. -/
theorem Turn.forall_judgement {P : PagedEvent ω κ α ρ υ → Prop} (t : Turn κ α)
    (h : ∀ writtenAt now live, P (.judged writtenAt now live)) :
    ∀ event ∈ t.judgement, P event := by
  intro event hevent
  match t with
  | .value _ _ _ _ _ => exact List.mem_singleton.mp hevent ▸ h _ _ _
  | .null _ _ _ => cases hevent
  | .ended => cases hevent
  | .failed _ => cases hevent

theorem Turn.filterMap_judgement {β : Type} {f : PagedEvent ω κ α ρ υ → Option β} (t : Turn κ α)
    (h : ∀ writtenAt now live, f (.judged writtenAt now live) = none) :
    t.judgement.filterMap f = [] :=
  List.filterMap_eq_nil_iff.mpr (t.forall_judgement h)

/-- A judgement gives no item. -/
theorem Turn.items_judgement (t : Turn κ α) :
    (t.judgement : List (PagedEvent ω κ α ρ υ)).filterMap PagedEvent.item? = [] :=
  t.filterMap_judgement fun _ _ _ => rfl

theorem Turn.judgedBy_of_judgement {policy : Policy} (t : Turn κ α)
    (h : ∀ event ∈ (t.judgement : List (PagedEvent ω κ α ρ υ)), event.JudgedBy policy) :
    t.JudgedBy policy := by
  match t with
  | .value _ _ _ _ _ => exact h _ (List.mem_singleton_self _)
  | .null _ _ _ => trivial
  | .ended => trivial
  | .failed _ => trivial

section Ends

variable {project : κ → Option α → ρ} {now : Timestamp} {index : Nat}
  {page : List (κ × Stamped α)} {film : List (PagedEvent ω κ α ρ Unit)}

namespace GivesPage

variable {outcome : Except StoreError Nat}

theorem uncut (h : GivesPage project now index page film outcome) :
    ∀ event ∈ film, event.isRequest = false := by
  induction h with
  | done => simp
  | @expired _ _ _ t _ _ _ _ _ ih =>
    exact List.forall_mem_append.mpr ⟨t.forall_judgement fun _ _ _ => rfl, ih⟩
  | @given _ _ _ t _ _ _ _ _ _ ih =>
    exact List.forall_mem_append.mpr ⟨t.forall_judgement fun _ _ _ => rfl,
      List.forall_mem_cons.mpr ⟨rfl, List.forall_mem_cons.mpr ⟨rfl, ih⟩⟩⟩
  | @broken _ _ _ t _ _ _ _ =>
    exact List.forall_mem_append.mpr ⟨t.forall_judgement fun _ _ _ => rfl,
      by simp [PagedEvent.isRequest]⟩

theorem endsBy (h : GivesPage project now index page film outcome) : EndsBy film outcome := by
  induction h with
  | done => simp [EndsBy]
  | @expired _ _ _ t _ _ _ _ _ ih => exact ih.append (t.forall_judgement fun _ _ _ => rfl)
  | @given _ _ _ t _ _ _ _ _ _ ih =>
    exact ((ih.cons rfl).cons rfl).append (t.forall_judgement fun _ _ _ => rfl)
  | @broken _ _ _ t _ _ _ _ =>
    exact ((endsBy_singleton rfl).cons rfl).append (t.forall_judgement fun _ _ _ => rfl)

theorem exists_isBroken {e : StoreError} (h : GivesPage project now index page film (.error e)) :
    ∃ event ∈ film, event.isBroken = true := by
  have huncut := h.uncut
  obtain ⟨past, failure, rfl, hfailure, -⟩ := h.endsBy
  have hlast : failure ∈ past ++ [failure] := by simp
  exact ⟨failure, hlast, PagedEvent.isBroken_of_failure? hfailure (huncut failure hlast)⟩

/-- What is given of a page is a front of what is live of it, and all of that if no call fails. -/
theorem items_of_judgedBy {policy : Policy} (h : GivesPage project now index page film outcome)
    (hjudged : ∀ event ∈ film, event.JudgedBy policy) :
    film.filterMap PagedEvent.item? <+:
        (liveAmong policy now page).map (fun e => project e.1 e.2) ∧
      ∀ {index'}, outcome = .ok index' → film.filterMap PagedEvent.item? =
        (liveAmong policy now page).map fun e => project e.1 e.2 := by
  -- an entry is found if it passes the check
  have checked : ∀ {t : Turn κ α} {e : κ × Stamped α} {film : List (PagedEvent ω κ α ρ Unit)},
      (∀ event ∈ t.judgement ++ film, event.JudgedBy policy) → t.entry? = some (e.1, e.2, now) →
        t.found? = (check policy (some e.2) now).map (e.1, ·) := by
    intro t e film ht hentry
    rw [Turn.found?_eq_check (t.judgedBy_of_judgement (List.forall_mem_append.mp ht).1), hentry]
    rfl
  induction h with
  | done => exact ⟨List.prefix_refl _, fun _ => rfl⟩
  | @expired index e page t film outcome hentry hfound _ ih =>
    have hcheck := checked hjudged hentry
    rw [hfound, eq_comm, Option.map_eq_none_iff] at hcheck
    rw [List.filterMap_append, t.items_judgement, List.nil_append, liveAmong_cons_none hcheck]
    exact ih (List.forall_mem_append.mp hjudged).2
  | @given index e page t live film outcome hentry hfound _ ih =>
    have hcheck := checked hjudged hentry
    rw [hfound, eq_comm, Option.map_eq_some_iff] at hcheck
    obtain ⟨value, hcheck, rfl⟩ := hcheck
    obtain ⟨hfront, hall⟩ := ih fun event hevent => hjudged event
      (List.mem_append_right _ (List.mem_cons_of_mem _ (List.mem_cons_of_mem _ hevent)))
    rw [List.filterMap_append, t.items_judgement, List.nil_append, liveAmong_cons_some hcheck]
    exact ⟨(List.prefix_cons_inj _).mpr hfront, fun hok => congrArg (_ :: ·) (hall hok)⟩
  | @broken index e page t live error hentry hfound =>
    have hcheck := checked hjudged hentry
    rw [hfound, eq_comm, Option.map_eq_some_iff] at hcheck
    obtain ⟨value, hcheck, rfl⟩ := hcheck
    rw [List.filterMap_append, t.items_judgement, List.nil_append, liveAmong_cons_some hcheck]
    exact ⟨⟨_, rfl⟩, fun hok => by cases hok⟩

end GivesPage

/-- The items of the entries that the source handed out, as far as they are live at the time read
for their page. -/
def shownItems (policy : Policy) (project : κ → Option α → ρ)
    (film : List (PagedEvent ω κ α ρ υ)) : List ρ :=
  (timedEntries film).filterMap fun e => (check policy (some e.2.1) e.2.2).map (project e.1)

theorem shownItems_page {policy : Policy} {met : ω} {given : List (PagedEvent ω κ α ρ υ)}
    (h : ∀ event ∈ given, event.isRequest = false) (film : List (PagedEvent ω κ α ρ υ)) :
    shownItems policy project (.requested met (.ok (some page)) :: .read now :: (given ++ film)) =
      (liveAmong policy now page).map (fun e => project e.1 e.2) ++
        shownItems policy project film := by
  rw [shownItems, timedEntries, timedEntries_append_of_uncut h, List.filterMap_append, shownItems,
    List.filterMap_map, liveAmong, List.map_filterMap]
  refine congrArg (· ++ _) (List.filterMap_congr fun e _ => ?_)
  rcases hcheck : check policy (some e.2) now with - | value <;> simp [hcheck]

namespace Delivers

variable [PageSource (π × ω) κ (Stamped α)] {limit : Nat} {source : π}
  {outcome : Except StoreError (Option Unit)}

/-- A delivering pass comes to the first failure on its film, which is the end of it. -/
theorem endsBy (h : Delivers project limit source index film outcome) : EndsBy film outcome := by
  induction h with
  | limit => simp [EndsBy]
  | ended _ => simp [EndsBy, PagedEvent.failure?]
  | failed _ => exact endsBy_singleton rfl
  | page _ hpage _ ih =>
    have hgiven := hpage.endsBy
    exact ((ih.append hgiven).cons rfl).cons rfl
  | broken _ hpage =>
    have hgiven : EndsBy _ (.error _ : Except StoreError (Option Unit)) := hpage.endsBy.map some
    exact (EndsBy.cons hgiven rfl).cons rfl

theorem limited (h : Delivers project limit source index film outcome) :
    Limited limit source (reelsOf film) outcome := by
  induction h with
  | limit => exact limited_zero
  | ended _ => exact limited_over (by simp)
  | failed _ => exact limited_over (by simp)
  | page hnext hpage _ ih =>
    rw [← reelsOf_append_of_uncut hpage.uncut] at ih
    exact ih.page hnext id
  | broken _ _ => exact limited_over (by simp)

/-- It succeeds if and only if the source came to its end without a failure. -/
theorem outcome_eq_ok_iff (h : Delivers project limit source index film outcome) :
    outcome = .ok (some ()) ↔
      film.any PagedEvent.isEnd = true ∧ ∀ event ∈ film, event.failure? = none := by
  have hends : outcome = .ok (some ()) ↔ film.any PagedEvent.isEnd = true := by
    have noEnd : ∀ {given : List (PagedEvent ω κ α ρ Unit)},
        (∀ event ∈ given, event.isRequest = false) → given.any PagedEvent.isEnd = false :=
      fun hgiven => List.any_eq_false.mpr fun event hevent => by
        simp [PagedEvent.isEnd_of_not_request (hgiven event hevent)]
    induction h with
    | limit => simp
    | ended _ => simp [PagedEvent.isEnd]
    | failed _ => simp [PagedEvent.isEnd]
    | page _ hpage _ ih => simp [ih, noEnd hpage.uncut, PagedEvent.isEnd]
    | broken _ hpage => simp [noEnd hpage.uncut, PagedEvent.isEnd]
  rw [hends]
  refine ⟨fun hend => ⟨hend, ?_⟩, And.left⟩
  have hgood := h.endsBy
  rwa [hends.mpr hend] at hgood

/-- What is given is a front of what is live on the pages that came, and all of that if no call
fails. -/
theorem items_of_judgedBy {policy : Policy}
    (h : Delivers project limit source index film outcome)
    (hjudged : ∀ event ∈ film, event.JudgedBy policy) :
    film.filterMap PagedEvent.item? <+: shownItems policy project film ∧
      ((∀ event ∈ film, event.isBroken = false) →
        film.filterMap PagedEvent.item? = shownItems policy project film) := by
  induction h with
  | limit => exact ⟨List.prefix_refl _, fun _ => rfl⟩
  | ended _ => exact ⟨List.prefix_refl _, fun _ => rfl⟩
  | failed _ => exact ⟨List.prefix_refl _, fun _ => rfl⟩
  | @page limit source index index' met s page now given film outcome _ hpage _ ih =>
    obtain ⟨-, -, hjudged⟩ := by simpa only [List.forall_mem_cons] using hjudged
    obtain ⟨hgiven, hfilm⟩ := List.forall_mem_append.mp hjudged
    obtain ⟨hfront, hall⟩ := ih hfilm
    rw [shownItems_page hpage.uncut, ← (hpage.items_of_judgedBy hgiven).2 rfl,
      List.filterMap_cons_none (by rfl), List.filterMap_cons_none (by rfl),
      List.filterMap_append]
    refine ⟨(List.prefix_append_right_inj _).mpr hfront, fun hgood => ?_⟩
    rw [hall fun event hevent => hgood event (List.mem_cons_of_mem _
      (List.mem_cons_of_mem _ (List.mem_append_right _ hevent)))]
  | @broken limit source index met s page now given e _ hpage =>
    obtain ⟨-, -, hgiven⟩ := by simpa only [List.forall_mem_cons] using hjudged
    have hshown : shownItems policy project
        (.requested met (.ok (some page)) :: .read now :: given) =
          (liveAmong policy now page).map fun e => project e.1 e.2 := by
      have hfilm : shownItems policy project
          (.requested met (.ok (some page)) :: .read now :: (given ++ [])) =
            (liveAmong policy now page).map (fun e => project e.1 e.2) ++ [] :=
        shownItems_page hpage.uncut []
      rwa [List.append_nil, List.append_nil] at hfilm
    rw [hshown, List.filterMap_cons_none (by rfl), List.filterMap_cons_none (by rfl)]
    refine ⟨(hpage.items_of_judgedBy hgiven).1, fun hgood => ?_⟩
    obtain ⟨event, hevent, hbroken⟩ := hpage.exists_isBroken
    rw [hgood event (List.mem_cons_of_mem _ (List.mem_cons_of_mem _ hevent))] at hbroken
    cases hbroken

end Delivers

end Ends

end LazyExpiry
