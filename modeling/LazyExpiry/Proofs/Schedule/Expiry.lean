import LazyExpiry.Proofs.Paged.Requests
import LazyExpiry.Proofs.Schedule.Gains
import LazyExpiry.Proofs.Schedule.Sight

/-!
# A lifetime decides what is seen of a key

A pass by pages takes what is on a page as it was stored when the page was asked for, and judges
it by one reading of the clock. So what its film tells of one key (`TellsLapse`, `TellsEntry`)
settles what it gives for that key : nothing once the key has lapsed (`Unfolds.not_given`), and
an entry that stays by readings below its limit (`Unfolds.givenBelow`). And it comes to its end
if it may ask often enough and nothing fails (`Journaled.Ends`).

`lifetime_decides` puts this beside point reads and open passes. What a read does not show stays
hidden while it is not written and time does not go back, and a value is shown until its
lifetime has passed.
-/

namespace LazyExpiry

variable {ω κ α π ρ τ υ : Type}

/-! ## What a paged pass gives -/

/-- In a pass whose judgements are by a policy, the callback is given what is live of the entries
that were looked at. These are all of the page, unless the pass failed there. -/
theorem PagedEntries.Unfolds.gives [PageSource (π × ω) κ (Stamped α)] {policy : Policy}
    {project : κ → Option α → ρ} {Closes : Closing ω κ α ρ υ} (hclose : ClosesWithWork Closes)
    {limit : Nat} {source : π} {index : Nat} {reels : List (Reel ω κ α ρ υ)}
    {outcome : Except StoreError (Option (List υ))}
    (h : Unfolds project Closes limit source index reels outcome)
    (hjudged : ∀ {writtenAt now live}, .judged writtenAt now live ∈ reels.flatMap Reel.film →
      live = policy writtenAt now)
    {past later : List (Reel ω κ α ρ υ)} {s : Reel ω κ α ρ υ}
    (hsplit : reels = past ++ s :: later) :
    s.events = [] ∧ s.page = [] ∨ ∃ page seen, seen <+: page ∧
      (succeeded outcome = true ∨ later ≠ [] → seen = page) ∧
      s.Gives policy project page seen := by
  induction h generalizing past with
  | limit => simp at hsplit
  | ended _ | failed _ =>
    rcases past with - | ⟨t, past⟩
    · obtain ⟨rfl, -⟩ := List.cons.inj hsplit
      exact .inl ⟨rfl, rfl⟩
    · simp at hsplit
  | page _ hlooks hc _ ih =>
    rcases past with - | ⟨t, past⟩
    · obtain ⟨rfl, -⟩ := List.cons.inj hsplit
      exact .inr ⟨_, _, List.prefix_refl _, fun _ => rfl, gives_of_looks hlooks (hclose hc)
        fun hmem => hjudged (List.mem_append_left _ (mem_film_of_looks hmem))⟩
    · rw [succeeded_map]
      exact ih (fun hmem => hjudged (List.mem_append_right _ hmem)) (List.cons.inj hsplit).2
  | broken _ hlooks hc =>
    rcases past with - | ⟨t, past⟩
    · obtain ⟨rfl, rfl⟩ := List.cons.inj hsplit
      refine .inr ⟨_, _, List.prefix_append _ _, fun hdone => ?_, gives_of_looks hlooks (hclose hc)
        fun hmem => hjudged (List.mem_append_left _ (mem_film_of_looks hmem))⟩
      simp [succeeded] at hdone
    · simp at hsplit

/-- The items on a film are those of its reels. -/
theorem items_film (reels : List (Reel ω κ α ρ υ)) :
    (reels.flatMap Reel.film).filterMap PagedEvent.item? = reels.flatMap Reel.items := by
  rw [List.filterMap_flatMap]
  exact List.flatMap_congr fun s _ => List.filterMap_cons_none rfl

/-- An item is given for an entry that was looked at, and is live at the one time that was read. -/
theorem Reel.Gives.mem_items_iff [Ord κ] [Std.TransOrd κ] {policy : Policy}
    {project : κ → Option α → ρ} {s : Reel ω κ α ρ υ} {page seen : List (κ × Stamped α)}
    (h : s.Gives policy project page seen) : ∃ now, s.readings = [now] ∧ .read now ∈ s.film ∧
      ∀ item, item ∈ s.items ↔ ∃ key stored value, (key, stored) ∈ seen ∧
        check policy (some stored) now = some value ∧ project key value = item := by
  obtain ⟨now, rest, hevents, hreadings, hitems⟩ := h.read
  refine ⟨now, hreadings, ?_, fun item => ?_⟩
  · rw [Reel.film, hevents]
    exact List.mem_cons_of_mem _ List.mem_cons_self
  · simp only [hitems, List.mem_map, Prod.exists, mem_liveAmong]
    constructor
    · rintro ⟨key, value, ⟨stored, hseen, hcheck⟩, rfl⟩
      exact ⟨key, stored, value, hseen, hcheck, rfl⟩
    · rintro ⟨key, stored, value, hseen, hcheck, rfl⟩
      exact ⟨key, value, ⟨stored, hseen, hcheck⟩, rfl⟩

/-- If a value is all that is stored under a key on a page, then nothing else is given for the
key, and it is given if it was looked at by a reading below its limit. -/
theorem Reel.Gives.given_iff [Ord κ] [Std.TransOrd κ] {lifetime : Lifetime} {key : κ} {v : α}
    {writtenAt : Timestamp} {project : κ → Option α → ρ} {s : Reel ω κ α (κ × ρ) υ}
    {page seen : List (κ × Stamped α)}
    (h : s.Gives lifetime.isLive (fun k value => (k, project k value)) page seen)
    (hstored : ∀ stored, (key, stored) ∈ seen → stored = ⟨some v, writtenAt⟩) :
    ∃ now, s.readings = [now] ∧ ∀ given, given.1 = key → (given ∈ s.items ↔
      given = (key, project key (some v)) ∧ key ∈ seen.map Prod.fst ∧
        now < lifetime.expiresAt writtenAt) := by
  obtain ⟨now, hreadings, -, hitems⟩ := h.mem_items_iff
  refine ⟨now, hreadings, fun given hkey => (hitems given).trans ⟨?_, ?_⟩⟩
  · rintro ⟨k, stored, value, hseen, hcheck, rfl⟩
    obtain rfl : k = key := hkey
    obtain rfl := hstored stored hseen
    rw [check_lifetime_value] at hcheck
    split at hcheck
    · obtain rfl := Option.some.inj hcheck
      exact ⟨rfl, List.mem_map_of_mem hseen, ‹_›⟩
    · cases hcheck
  · rintro ⟨rfl, hmem, hlt⟩
    obtain ⟨⟨_, stored⟩, hseen, rfl⟩ := List.mem_map.mp hmem
    refine ⟨_, stored, some v, hseen, ?_, rfl⟩
    rw [hstored stored hseen, check_lifetime_value, if_pos hlt]

/-- A page that gave anything was answered. -/
theorem Reel.Gives.requested_mem {policy : Policy} {project : κ → Option α → ρ}
    {s : Reel ω κ α ρ υ} {page seen : List (κ × Stamped α)}
    (h : s.Gives policy project page seen) : .requested s.met (.ok (some page)) ∈ s.film := by
  rw [← h.answer_eq]
  exact List.mem_cons_self

/-! ## Paged passes in a schedule -/

section Paged

variable [Ord κ] [Std.TransOrd κ] {lifetime : Lifetime} {key : κ} {a b c : Journaled κ α ρ}
  {source : Memory.Pages κ}

/-- What is on a page is stored. -/
theorem Timed.mem_of_page (h : Timed lifetime c.world) {page : List (κ × Stamped α)}
    (hpage : (PageSource.nextPage (source, c)).outcome = .ok (some page)) {e : κ × Stamped α}
    (he : e ∈ page) : e ∈ c.world.memory.table.entries := by
  rcases Journaled.nextPage_cases h.not_poisoned source with ⟨-, s, hnext⟩ | ⟨hserve, c', hnext⟩
  · rw [hnext] at hpage
    cases hpage
  · rw [hnext, Result.outcome_ok] at hpage
    obtain rfl := Option.some.inj (Except.ok.inj hpage)
    have hmem := List.mem_of_mem_take he
    rw [← (after_of_toServe hserve).2] at hmem
    exact (Table.mem_after.mp hmem).1

/-! ### Passes that are opened now -/

/-- A pass by pages of that size, whose items come with their keys. -/
def PagedEntries.keyed (pageSize : PageSize) (project : κ → Option α → τ) :
    PagedEntries (Memory.Pages κ) κ α (κ × τ) where
  source := { pageSize }
  project key value := (key, project key value)

/-- If no call and no work fails, and the pass may ask more often than there were entries at the
start and have been written since, then it comes to the end of its source. -/
def Journaled.Ends {β : Type} (b : Journaled κ α ρ) (limit : Nat)
    (film : List (PagedEvent (Journaled κ α ρ) κ α τ υ))
    (r : Result (Journaled κ α ρ) (Option β)) : Prop :=
  ∃ written, r.world.writes = b.writes + written ∧
    ((∀ event ∈ film, event.isBroken = false) → b.world.memory.table.size + written < limit →
      succeeded r.outcome = true)

/-- If the callback of a paged pass that is opened now, and the works which that leaves, do such
deeds only, then `P` is so of its film and of whether it comes to its end. And it does come to its
end if it may ask often enough and nothing fails. -/
structure Journaled.Films (ok : Deed κ α ρ → System κ α ρ → Prop) (project : κ → Option α → τ)
    (P : (υ : Type) → List (PagedEvent (Journaled κ α ρ) κ α (κ × τ) υ) → Bool → Prop)
    (b : Journaled κ α ρ) : Prop where
  collects : ∀ {υ : Type} (pageSize : PageSize) (rule : Nat → JoinRule) (limit : Nat)
    {callback : Nat → κ × τ → Journaled κ α ρ → Deferred (Journaled κ α ρ) υ × Journaled κ α ρ},
    (∀ index item c, Reaches ok c (callback index item c).2) →
    (∀ index item c c', Reaches ok c' ((callback index item c).1.finish c').world) →
    let pass := PagedEntries.keyed pageSize project
    (pass.collectFilmed rule limit callback b).mapWorld Filmed.world =
        pass.collectEachBy rule limit callback b ∧
      P υ (pass.collectFilmed rule limit callback b).world.film
        (succeeded (pass.collectEachBy rule limit callback b).outcome) ∧
      b.Ends limit (pass.collectFilmed rule limit callback b).world.film
        (pass.collectEachBy rule limit callback b)
  delivers : ∀ (pageSize : PageSize) (limit : Nat)
    {callback : Nat → κ × τ → Action (Journaled κ α ρ) Unit},
    (∀ index item c, Reaches ok c (callback index item c).world) →
    let pass := PagedEntries.keyed pageSize project
    (pass.deliverFilmed limit callback b).mapWorld Filmed.world =
        pass.deliverEach limit callback b ∧
      P Unit (pass.deliverFilmed limit callback b).world.film
        (succeeded (pass.deliverEach limit callback b).outcome) ∧
      b.Ends limit
        ({ toPagedEntries := pass, limit, callback, world := b } : Delivery _ _ κ α (κ × τ)).film
        (pass.deliverEach limit callback b)

theorem Journaled.heldByPaging_of_reaches {ok : Deed κ α ρ → System κ α ρ → Prop}
    {I : Journaled κ α ρ → Prop} (hpass : ∀ d st, d.ofPass = true → ok d st)
    (hheld : ∀ {c c'}, Reaches ok c c' → I c → I c') : HeldByPaging (π := Memory.Pages κ) I :=
  heldByPaging_of_ofPass fun d hd c => hheld ((Reaches.here c).deed d (hpass d c.system hd))

section Ends

variable {ok : Deed κ α ρ → System κ α ρ → Prop} (hpass : ∀ d st, d.ofPass = true → ok d st)

include hpass

theorem Journaled.linkedByPaging : LinkedByPaging (Memory.Pages κ)
    (fun c : Journaled κ α ρ => c.system.Sound) (Reaches ok) where
  refl := .here
  trans h h' := h.trans h'
  keeps hc h := (h.gains hpass hc).1
  nextPage source c _ := by
    rw [nextPage_eq, Result.world_mapWorld]
    exact (Reaches.here c).deed _ (hpass _ _ rfl)
  now {c} _ := (Reaches.here c).deed .readClock (hpass _ _ rfl)
  isLive writtenAt now c _ := (Reaches.here c).deed (.judge writtenAt now) (hpass _ _ rfl)
  note event c _ := (Reaches.here c).deed (.note event) (hpass _ _ rfl)

theorem Journaled.depletes : Depletes (fun c : Journaled κ α ρ => c.system.Sound) (Reaches ok)
    (fun (source : Memory.Pages κ) c => (toServe c.world source).length) writes where
  answers {source met e s} hmet hnext := by
    rcases nextPage_cases hmet.not_poisoned source with ⟨-, s', hend⟩ | ⟨-, c', hpage⟩
    · cases hend.symm.trans hnext
    · cases hpage.symm.trans hnext
  page {source met page s} hmet hnext := by
    rcases nextPage_cases hmet.not_poisoned source with ⟨-, s', hend⟩ | ⟨hserve, c', hpage⟩
    · cases hend.symm.trans hnext
    · cases hpage.symm.trans hnext
      exact length_toServe_served_lt hserve
  grows hw h source := h.toServe_le hpass hw source

/-- A pass with its requests on film, which goes from reachable world to reachable world, ends
so. -/
theorem PagedEntries.Unfolds.ends {β : Type} {project : κ → Option α → τ}
    {Closes : Closing (Journaled κ α ρ) κ α τ υ} {pageSize : PageSize} {limit : Nat}
    {reels : List (Reel (Journaled κ α ρ) κ α τ υ)} {outcome : Except StoreError (Option (List υ))}
    (h : Unfolds project Closes limit ({ pageSize } : Memory.Pages κ) 0 reels outcome)
    {film : List (PagedEvent (Journaled κ α ρ) κ α τ υ)}
    {r : Result (Journaled κ α ρ) (Option β)} (hfilm : requestsIn film = reels.map Reel.request)
    (halong : Along (Journaled.Reaches ok) b ((requestsIn film).map PageRequest.met) r.world)
    (hfailure : ∀ {e}, outcome = .error e → ∃ event ∈ film, event.failure? = some e)
    (houtcome : succeeded r.outcome = succeeded outcome) (hsound : b.system.Sound) :
    b.Ends limit film r := by
  obtain ⟨-, written, hwrites, -⟩ :=
    (halong.related Journaled.Reaches.trans).gains hpass hsound
  refine ⟨written, hwrites, fun hgood hless => houtcome.trans ?_⟩
  refine (Journaled.depletes hpass).ends h hfilm halong (Journaled.linkedByPaging hpass).keeps
    hsound hfailure hgood ?_
  have hfresh : (toServe b.world ({ pageSize } : Memory.Pages κ)).length =
      b.world.memory.table.size := congrArg List.length (toServe_fresh _ _)
  omega

end Ends

/-- What follows from what such deeds keep is so of every paged pass that is opened now. -/
theorem Journaled.films {ok : Deed κ α ρ → System κ α ρ → Prop} {project : κ → Option α → τ}
    {P : (υ : Type) → List (PagedEvent (Journaled κ α ρ) κ α (κ × τ) υ) → Bool → Prop}
    {I : Journaled κ α ρ → Prop}
    {E : (υ : Type) → PagedEvent (Journaled κ α ρ) κ α (κ × τ) υ → Prop}
    (hpass : ∀ d st, d.ofPass = true → ok d st)
    (hheld : ∀ {c c'}, Reaches ok c c' → I c → I c')
    (hshown : ∀ υ, ShownByPaging (Memory.Pages κ) I (E υ))
    (hfinished : ∀ {υ} index item outcome, E υ (.finished index item outcome))
    (hunfolds : ∀ {υ} {Closes : PagedEntries.Closing (Journaled κ α ρ) κ α (κ × τ) υ}
      {pageSize : PageSize} {limit : Nat} {reels : List (Reel (Journaled κ α ρ) κ α (κ × τ) υ)}
      {outcome : Except StoreError (Option (List υ))}, PagedEntries.ClosesWithWork Closes →
      PagedEntries.Unfolds (PagedEntries.keyed pageSize project).project Closes limit
        (PagedEntries.keyed pageSize project).source 0 reels outcome →
      (∀ event ∈ reels.flatMap Reel.film, E υ event) →
      reelsOf (reels.flatMap Reel.film) = reels →
      P υ (reels.flatMap Reel.film) (succeeded outcome))
    (hb : I b) (hsound : b.system.Sound) : b.Films ok project P where
  collects pageSize rule limit callback hcall hfinish := by
    intro pass
    refine ⟨pass.collectFilmed_world rule limit callback b, ?_, ?_⟩
    · obtain ⟨reels, hfilm, hreels, h⟩ := pass.unfolds_collectFilmed rule limit callback b
      have htells := (PagedEntries.holds_collectFilmed (heldByPaging_of_reaches hpass hheld)
        (hshown _) (fun index item c => hheld (hcall index item c))
        (fun index item c c' hc' => ⟨hheld (hfinish index item c c') hc', hfinished _ _ _⟩) rule
        pass limit hb).film
      rw [hfilm] at htells hreels ⊢
      exact hunfolds PagedEntries.joinCloses_withWork h htells hreels
    · let c : Collection (Journaled κ α ρ) (Memory.Pages κ) κ α _ _ :=
        { toPagedEntries := pass, rule, limit, callback, world := b }
      obtain ⟨reels, hrequests, h, -⟩ := c.requests
      exact h.ends hpass hrequests
        (Collection.along (c := c) (linkedByPaging hpass) (fun index item w _ => hcall index item w)
          (fun index item w w' _ => hfinish index item w w') hsound)
        c.exists_failure? rfl hsound
  delivers pageSize limit callback hcall := by
    intro pass
    refine ⟨pass.deliverFilmed_world limit callback b, ?_, ?_⟩
    · obtain ⟨reels, outcome, hfilm, hreels, h, houtcome⟩ :=
        pass.unfolds_deliverFilmed limit callback b
      have htells := (PagedEntries.holds_deliverFilmed (heldByPaging_of_reaches hpass hheld)
        (hshown _) (fun index item c => hheld (hcall index item c)) pass limit hb).film
      rw [hfilm] at htells hreels ⊢
      rw [houtcome, succeeded_map]
      exact hunfolds PagedEntries.nothingCloses_withWork h htells hreels
    · let d : Delivery (Journaled κ α ρ) (Memory.Pages κ) κ α _ :=
        { toPagedEntries := pass, limit, callback, world := b }
      obtain ⟨reels, outcome, hrequests, h, houtcome, -⟩ := d.requests
      exact h.ends hpass hrequests
        (Delivery.along (d := d) (linkedByPaging hpass) (fun index item w _ => hcall index item w)
          hsound)
        (fun he => d.exists_failure? (houtcome.trans (he ▸ rfl))) (houtcome ▸ succeeded_map _ _)
        hsound

/-! ### After a key has lapsed -/

/-- What a paged pass films once a key has lapsed. -/
def PagedEvent.TellsLapse (lifetime : Lifetime) (key : κ) (since : Timestamp) :
    PagedEvent (Journaled κ α ρ) κ α τ υ → Prop
  | requested _ answer => ∀ page, answer = .ok (some page) → ∀ stored, (key, stored) ∈ page →
    ∀ now, since ≤ now → check lifetime.isLive (some stored) now = none
  | read now => since ≤ now
  | judged writtenAt now live => live = lifetime.isLive writtenAt now
  | _ => True

/-- No page of such a film gives an item for the key. -/
theorem PagedEntries.Unfolds.not_given {since : Timestamp} {project : κ → Option α → τ}
    {Closes : Closing (Journaled κ α ρ) κ α (κ × τ) υ} (hclose : ClosesWithWork Closes)
    {limit index : Nat} {reels : List (Reel (Journaled κ α ρ) κ α (κ × τ) υ)}
    {outcome : Except StoreError (Option (List υ))}
    (h : Unfolds (fun k value => (k, project k value)) Closes limit source index reels outcome)
    (hlapsed : ∀ event ∈ reels.flatMap Reel.film, event.TellsLapse lifetime key since) :
    ∀ item ∈ (reels.flatMap Reel.film).filterMap PagedEvent.item?, item.1 ≠ key := by
  rw [items_film]
  rintro item hitem rfl
  obtain ⟨s, hs, hitem⟩ := List.mem_flatMap.mp hitem
  have on_film : ∀ event ∈ s.film, event.TellsLapse lifetime item.1 since := fun event hevent =>
    hlapsed event (List.mem_flatMap.mpr ⟨s, hs, hevent⟩)
  obtain ⟨past, later, hsplit⟩ := List.append_of_mem hs
  rcases h.gives hclose (fun hmem => hlapsed _ hmem) hsplit with ⟨hnone, -⟩ |
    ⟨page, seen, hpart, -, hgives⟩
  · rw [Reel.items, hnone] at hitem
    cases hitem
  · obtain ⟨now, -, hread, hitems⟩ := hgives.mem_items_iff
    obtain ⟨k, stored, value, hseen, hcheck, rfl⟩ := (hitems item).mp hitem
    have hover := on_film _ hgives.requested_mem page rfl stored (hpart.subset hseen) now
      (on_film _ hread)
    rw [hcheck] at hover
    cases hover

variable [Std.LawfulEqOrd κ]

theorem PagedEvent.shownByPaging_tellsLapse (lifetime : Lifetime) (key : κ) (since : Timestamp) :
    ShownByPaging (Memory.Pages κ)
      (fun c : Journaled κ α ρ => c.system.Sound ∧ Lapsed lifetime key since c.world)
      (PagedEvent.TellsLapse lifetime key since :
        PagedEvent (Journaled κ α ρ) κ α τ υ → Prop) where
  requested source c hc page hpage stored hstored now hnow := by
    have hmem := hc.2.toTimed.mem_of_page hpage hstored
    rw [← hc.2.check_eq now hnow, Table.get?_eq_some_iff.mpr hmem]
  read {c} hc := hc.2.since_le
  judged writtenAt now _ hc := congrFun (congrFun hc.2.policy_eq writtenAt) now
  called _ _ _ := trivial
  joining _ := trivial

/-! ### While an entry stays -/

/-- What a paged pass films while an entry stays. -/
def PagedEvent.TellsEntry (lifetime : Lifetime) (key : κ) (stored : Stamped α) :
    PagedEvent (Journaled κ α ρ) κ α τ υ → Prop
  | requested met answer => Holds lifetime key stored met.world ∧
    ∀ page, answer = .ok (some page) → ∀ stored', (key, stored') ∈ page → stored' = stored
  | judged writtenAt now live => live = lifetime.isLive writtenAt now
  | _ => True

/-- A pass that comes to its end has had the entry on a page. -/
theorem PagedEntries.Unfolds.mem_page {stored : Stamped α} {project : κ → Option α → τ}
    {Closes : Closing (Journaled κ α ρ) κ α τ υ} {limit index : Nat}
    {reels : List (Reel (Journaled κ α ρ) κ α τ υ)}
    {outcome : Except StoreError (Option (List υ))}
    (h : Unfolds project Closes limit source index reels outcome) (hdone : succeeded outcome = true)
    (hmet : ∀ s ∈ reels, Holds lifetime key stored s.met.world)
    (hdrained : source.drained = false) (hbeyond : Table.beyond source.last key = true) :
    ∃ s ∈ reels, (key, stored) ∈ s.page := by
  induction h with
  | limit | failed _ | broken _ _ _ => cases hdone
  | ended hnext =>
    have hholds := hmet _ (List.mem_singleton_self _)
    have hmem := mem_toServe hdrained hbeyond hholds.get?_eq
    rcases Journaled.nextPage_cases hholds.not_poisoned _ with ⟨hnil, -⟩ | ⟨-, c', hserves⟩
    · exact absurd hnil (List.ne_nil_of_mem hmem)
    · cases hserves.symm.trans hnext
  | @page limit source index met s page now looks closing answers reels outcome hnext _ _ _ ih =>
    have hholds := hmet _ List.mem_cons_self
    have hmem := mem_toServe hdrained hbeyond hholds.get?_eq
    obtain ⟨c', hserves⟩ := ((Journaled.nextPage_cases hholds.not_poisoned _).resolve_left
      fun hnil => List.ne_nil_of_mem hmem hnil.1).2
    have hsame := hserves.symm.trans hnext
    simp only [Result.ok.injEq, Option.some.injEq] at hsame
    obtain ⟨rfl, rfl⟩ := hsame
    rcases mem_page_or_ahead hmem with hpage | ⟨hmore, hahead⟩
    · exact ⟨_, List.mem_cons_self, hpage⟩
    · obtain ⟨t, ht, hpage⟩ := ih (succeeded_map _ _ ▸ hdone)
        (fun t ht => hmet t (List.mem_cons_of_mem _ ht)) hmore hahead
      exact ⟨t, List.mem_cons_of_mem _ ht, hpage⟩

/-- On that film of a paged pass, the item is the only one that is given for its key. Of a page
it is given if the key is among the entries that were looked at, which are all of them unless the
pass failed there, and the one reading for the page was below the limit. If the pass came to the
end of its source, then the key was on a page. -/
structure GivenBelow (item : κ × τ) (limit : Timestamp)
    (film : List (PagedEvent ω κ α (κ × τ) υ)) (done : Bool) : Prop where
  cut : (reelsOf film).flatMap Reel.film = film
  only : ∀ given ∈ film.filterMap PagedEvent.item?, given.1 = item.1 → given = item
  given_iff : ∀ {past later s}, reelsOf film = past ++ s :: later →
    s.items = [] ∧ s.page = [] ∨ ∃ seen now, seen <+: s.page ∧
      (done = true ∨ later ≠ [] → seen = s.page) ∧ s.readings = [now] ∧
      (item ∈ s.items ↔ item.1 ∈ seen.map Prod.fst ∧ now < limit)
  on_page : done = true → ∃ s ∈ reelsOf film, item.1 ∈ s.page.map Prod.fst

theorem PagedEntries.Unfolds.givenBelow {v : α} {writtenAt : Timestamp} {project : κ → Option α → τ}
    {Closes : Closing (Journaled κ α ρ) κ α (κ × τ) υ} (hclose : ClosesWithWork Closes)
    {pageSize : PageSize} {limit index : Nat}
    {reels : List (Reel (Journaled κ α ρ) κ α (κ × τ) υ)}
    {outcome : Except StoreError (Option (List υ))}
    (h : Unfolds (fun k value => (k, project k value)) Closes limit
      ({ pageSize } : Memory.Pages κ) index reels outcome)
    (htells : ∀ event ∈ reels.flatMap Reel.film,
      event.TellsEntry lifetime key ⟨some v, writtenAt⟩)
    (hreels : reelsOf (reels.flatMap Reel.film) = reels) :
    GivenBelow (key, project key (some v)) (lifetime.expiresAt writtenAt)
      (reels.flatMap Reel.film) (succeeded outcome) := by
  have on_film : ∀ s ∈ reels, ∀ event ∈ s.film,
      event.TellsEntry lifetime key ⟨some v, writtenAt⟩ := fun s hs event hevent =>
    htells event (List.mem_flatMap.mpr ⟨s, hs, hevent⟩)
  have stored_eq : ∀ s ∈ reels, ∀ {page seen}, seen <+: page →
      s.Gives lifetime.isLive (fun k value => (k, project k value)) page seen →
      ∀ stored, (key, stored) ∈ seen → stored = ⟨some v, writtenAt⟩ :=
    fun s hs page seen hpart hgives stored hseen =>
      (on_film s hs _ hgives.requested_mem).2 page rfl stored (hpart.subset hseen)
  refine { cut := congrArg _ hreels, only := ?_, given_iff := fun {past later s} hsplit => ?_,
           on_page := fun hdone => ?_ }
  · rw [items_film]
    intro given hgiven hkey
    obtain ⟨s, hs, hitem⟩ := List.mem_flatMap.mp hgiven
    obtain ⟨past, later, hsplit⟩ := List.append_of_mem hs
    rcases h.gives hclose (fun hmem => htells _ hmem) hsplit with ⟨hnone, -⟩ |
      ⟨page, seen, hpart, -, hgives⟩
    · rw [Reel.items, hnone] at hitem
      cases hitem
    · obtain ⟨now, -, hiff⟩ := hgives.given_iff (stored_eq s hs hpart hgives)
      exact ((hiff given hkey).mp hitem).1
  · rw [hreels] at hsplit
    have hs : s ∈ reels := hsplit ▸ List.mem_append_right _ List.mem_cons_self
    rcases h.gives hclose (fun hmem => htells _ hmem) hsplit with ⟨hnone, hpage⟩ |
      ⟨page, seen, hpart, hall, hgives⟩
    · exact .inl ⟨by rw [Reel.items, hnone]; rfl, hpage⟩
    · obtain ⟨now, hreadings, hiff⟩ := hgives.given_iff (stored_eq s hs hpart hgives)
      rw [hgives.page_eq]
      exact .inr ⟨seen, now, hpart, hall, hreadings, (hiff _ rfl).trans (and_iff_right rfl)⟩
  · obtain ⟨s, hs, hpage⟩ := h.mem_page hdone (fun s hs =>
      (on_film s hs _ List.mem_cons_self).1) rfl rfl
    exact ⟨s, hreels.symm ▸ hs, List.mem_map_of_mem hpage⟩

theorem PagedEvent.shownByPaging_tellsEntry (lifetime : Lifetime) (key : κ) (stored : Stamped α) :
    ShownByPaging (Memory.Pages κ)
      (fun c : Journaled κ α ρ => c.system.Sound ∧ Holds lifetime key stored c.world)
      (PagedEvent.TellsEntry lifetime key stored :
        PagedEvent (Journaled κ α ρ) κ α τ υ → Prop) where
  requested source c hc := by
    refine ⟨hc.2, fun page hpage stored' hstored => ?_⟩
    have hmem := Table.get?_eq_some_iff.mpr (hc.2.toTimed.mem_of_page hpage hstored)
    exact Option.some.inj (hmem.symm.trans hc.2.get?_eq)
  read _ := trivial
  judged writtenAt now _ hc := congrFun (congrFun hc.2.policy_eq writtenAt) now
  called _ _ _ := trivial
  joining _ := trivial

/-! ## The rule -/

/-- Nothing is seen of a key, by reads and by passes that are opened now. -/
structure Journaled.Hides (key : κ) (b : Journaled κ α ρ) : Prop where
  reads : b.world.Reads key none
  opens : ∀ (handle : Nat) (project : κ → Option α → ρ) {c : Journaled κ α ρ},
    Reaches (Deed.Onward key) (b.opened handle project) c →
    ∀ p, c.pass? handle = some p → p.Unseen key
  pages : ∀ {τ : Type} (project : κ → Option α → τ), b.Films (Deed.Onward key) project
    fun _ film _ => ∀ item ∈ film.filterMap PagedEvent.item?, item.1 ≠ key

/-- A value is seen of a key, by reads and by passes that are opened now, as long as what they
read off the clock is below the limit. -/
structure Journaled.Shows (key : κ) (v : α) (limit : Timestamp) (b : Journaled κ α ρ) :
    Prop where
  reads : b.world.Reads key (if b.world.clock.time < limit then some (some v) else none)
  opens : ∀ (handle : Nat) (project : κ → Option α → ρ) {c : Journaled κ α ρ},
    Reaches (Deed.Attends key handle) (b.opened handle project) c →
    Journaled.Sees key (some v) limit handle project (b.opened handle project) c
  pages : ∀ {τ : Type} (project : κ → Option α → τ), b.Films (Deed.Spares key) project
    fun _ film done => GivenBelow (key, project key (some v)) limit film done

variable [DecidableEq κ]

theorem Lapsed.hides {since : Timestamp} (h : Lapsed lifetime key since b.world)
    (hsound : b.system.Sound) : b.Hides key where
  reads := h.reads
  opens handle project _ hc := h.unseen hsound handle project hc
  pages _ := Journaled.films (fun _ st hd => (Deed.spares_of_ofPass hd key st).1)
    (fun hreach hc => hc.2.reached hc.1 hreach)
    (fun _ => PagedEvent.shownByPaging_tellsLapse lifetime key since) (fun _ _ _ => trivial)
    (fun hclose hunfolds htells _ => hunfolds.not_given hclose htells) ⟨hsound, h⟩ hsound

theorem Holds.shows {v : α} {writtenAt : Timestamp}
    (h : Holds lifetime key ⟨some v, writtenAt⟩ b.world) (hsound : b.system.Sound) :
    b.Shows key v (lifetime.expiresAt writtenAt) where
  reads := h.reads
  opens handle project _ hc := h.sees hsound handle project hc
  pages _ := Journaled.films (fun _ st hd => (Deed.spares_of_ofPass hd key st).2)
    (fun hreach hc => hc.2.reached hc.1 hreach)
    (fun _ => PagedEvent.shownByPaging_tellsEntry lifetime key _) (fun _ _ _ => trivial)
    (fun hclose hunfolds htells hreels => hunfolds.givenBelow hclose htells hreels) ⟨hsound, h⟩
    hsound

/-- Whatever has become of a store that was not poisoned, under a lifetime and a clock that
stands still between calls : a key that a read does not show stays hidden while it is not written
and time does not go back, and a value that is stored is shown before its lifetime has passed and
not after it, until it is touched. -/
theorem lifetime_decides {w : World κ α} (hw : Timed lifetime w)
    (ha : Journaled.Reaches (fun _ _ => True) { system := { scene := { world := w } } } a)
    (key : κ) :
    ((Direct.get key a.world).outcome = .ok none →
      ∀ {b}, Journaled.Reaches (Deed.Onward key) a b → b.Hides key) ∧
    ∀ {v writtenAt}, a.world.memory.table.get? key = some ⟨some v, writtenAt⟩ →
      ∀ {b}, Journaled.Reaches (Deed.Spares key) a b →
        b.Shows key v (lifetime.expiresAt writtenAt) := by
  obtain ⟨hsound, htimed⟩ := hw.reached (System.Sound.start hw.not_poisoned) ha
  refine ⟨fun hget b hb => ?_, fun {v writtenAt} hstored b hb => ?_⟩
  · obtain ⟨hsound', hlapsed⟩ := (htimed.lapsed hget).reached hsound hb
    exact hlapsed.hides hsound'
  · have hholds : Holds lifetime key ⟨some v, writtenAt⟩ a.world := ⟨htimed, hstored⟩
    obtain ⟨hsound', hholds'⟩ := hholds.reached hsound hb
    exact hholds'.shows hsound'

end Paged

/-- A lifetime of ten milliseconds. -/
def brief : Lifetime := { span := .ofMillis 10 }

/-- An empty store under that lifetime. -/
def brieflyKept : World Nat Nat := { clock := { time := 100 }, policy := brief.isLive }

/-- The first of two values has lapsed when the second one is put. -/
def fading : Journaled Nat Nat Unit :=
  Journaled.run [.move (.act (.direct (.put 1 (some 5)))),
    .move (.act (.advanceClock (.ofMillis 10))), .move (.act (.direct (.put 2 (some 7))))]
    { system := { scene := { world := brieflyKept } } }

/-- A receiver that lets as much time go by as there is. -/
def outwait (_ : Nat) (_ : Nat × Option Nat) : Action (Journaled Nat Nat Unit) Unit := fun c =>
  .ok () ((Deed.move (.act (.advanceClock { secs := Timestamp.last }))).perform c)

/-- A pass by pages is given the second value and lets it lapse. -/
def faded : Journaled Nat Nat Unit :=
  ((PagedEntries.keyed (.ofNat 1) fun _ value => value).deliverEach 3 outwait fading).world

theorem lifetime_decides_faded :
    (Direct.get 1 fading.world).outcome = .ok none ∧ faded.world.clock.time = Timestamp.last ∧
      faded.Hides 1 ∧ fading.Shows 2 7 120 ∧
      (Direct.get 2 fading.world).outcome = .ok (some (some 7)) ∧ faded.Shows 2 7 120 ∧
      (Direct.get 2 faded.world).outcome = .ok none := by
  have htimed : Timed brief brieflyKept := ⟨⟨by rw [brieflyKept], rfl⟩, rfl⟩
  have hfading : Journaled.Reaches (fun _ _ => True) _ fading :=
    (Journaled.Reaches.here _).run fun _ _ _ => trivial
  have hget : (Direct.get 1 fading.world).outcome = .ok none := by decide +kernel
  have hstored : fading.world.memory.table.get? 2 = some ⟨some 7, 110⟩ := by decide +kernel
  have hfaded : ∀ {ok : Deed Nat Nat Unit → System Nat Nat Unit → Prop},
      (∀ st, ok (.move (.act (.advanceClock { secs := Timestamp.last }))) st) →
        Journaled.Reaches ok fading faded := fun hok =>
    .deliverEach _ _ (.here _) fun _ _ c => (Journaled.Reaches.here c).deed _ (hok _)
  have hhides : faded.Hides 1 :=
    (lifetime_decides htimed hfading 1).1 hget (hfaded fun _ => ⟨trivial, nofun⟩)
  have hlimit : brief.expiresAt 110 = 120 := by decide +kernel
  have hshows : ∀ {b}, Journaled.Reaches (Deed.Spares 2) fading b → b.Shows 2 7 120 := fun hb =>
    hlimit ▸ (lifetime_decides htimed hfading 2).2 hstored hb
  have hafter : faded.Shows 2 7 120 := hshows (hfaded fun _ => nofun)
  have htime : faded.world.clock.time = Timestamp.last := by decide +kernel
  refine ⟨hget, htime, hhides, hshows (.here _), (hshows (.here _)).reads.get, hafter, ?_⟩
  rw [hafter.reads.get, htime]
  rfl

end LazyExpiry
