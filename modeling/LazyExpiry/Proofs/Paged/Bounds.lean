import LazyExpiry.Proofs.Paged.Requests
import LazyExpiry.Proofs.Pass.Ahead

/-!
# Passes end

A paged pass asks again and again for what lies beyond its last key, and what lies there may
grow while it goes on, by its own callback or by others. But entries are served once : what a
source has served and what it still has to serve are no more than what was stored at the start
and what has been written since (`Leafs.served_le`). All pages but the last are full
(`Leafs.length_pages`), so the entries that can be served bound the pages, and a pass that is not
stopped by a failure comes to its end with one request more.

`passes_end` says so of both paged passes, and of a pass that goes through its cursor one by
one, with the same bound on the entries and with one on every single search.
-/

namespace LazyExpiry

variable {κ α ρ τ υ : Type} [Ord κ]

/-! ## Stores that others work on -/

namespace Amid

/-- The entries that are stored. -/
abbrev table (r : Amid (Journaled κ α τ)) : Table κ (Stamped α) := r.world.world.memory.table

variable [Std.TransOrd κ]

/-- The lock is sound, and others do deeds only. -/
structure Working (r : Amid (Journaled κ α τ)) : Prop where
  sound : r.world.system.Sound
  others : ∀ change ∈ r.others, ∀ a, Journaled.Reaches (fun _ _ => True) a (change a)

/-- The second is the first after any deeds, and nobody has joined the others. -/
structure LeadsTo (r r' : Amid (Journaled κ α τ)) : Prop where
  reaches : Journaled.Reaches (fun _ _ => True) r.world r'.world
  others : ∀ change ∈ r'.others, change ∈ r.others

variable {r r' r'' : Amid (Journaled κ α τ)} {source : Memory.Pages κ}

theorem LeadsTo.refl (r : Amid (Journaled κ α τ)) : r.LeadsTo r := ⟨.here _, fun _ => id⟩

theorem LeadsTo.trans (h : r.LeadsTo r') (h' : r'.LeadsTo r'') : r.LeadsTo r'' :=
  ⟨h.reaches.trans h'.reaches, fun change hmem => h.others change (h'.others change hmem)⟩

/-- What a store that is worked on leads to is so too, and has gained at most what was
written. -/
theorem LeadsTo.gains (h : r.LeadsTo r') (hr : r.Working) : r'.Working ∧
    ∃ n, r'.world.writes = r.world.writes + n ∧ Table.Gains n r.table r'.table := by
  obtain ⟨hsound, hgains⟩ := h.reaches.gains (fun _ _ _ => trivial) hr.sound
  exact ⟨⟨hsound, fun change hmem => hr.others change (h.others change hmem)⟩, hgains⟩

/-- After a deed comes the next change by others. -/
theorem Working.leadsTo_next (hr : r.Working) (d : Deed κ α τ) :
    r.LeadsTo (next r.others (d.perform r.world)) := by
  obtain ⟨a, others⟩ := r
  have hdeed : Journaled.Reaches (fun _ _ => True) a (d.perform a) := .deed d (.here a) trivial
  rcases others with - | ⟨change, others⟩
  · exact ⟨hdeed, by simp [next]⟩
  · exact ⟨hdeed.trans (hr.others change List.mem_cons_self _), fun other hother =>
      List.mem_cons_of_mem _ hother⟩

theorem linkedByPaging : LinkedByPaging (Memory.Pages κ)
    (Working : Amid (Journaled κ α τ) → Prop) LeadsTo where
  refl := .refl
  trans h h' := h.trans h'
  keeps hr h := (h.gains hr).1
  nextPage source {r} hr := by
    rw [nextPage_eq, Journaled.nextPage_eq, Result.world_mapWorld, Result.world_mapWorld]
    exact hr.leadsTo_next _
  now hr := hr.leadsTo_next .readClock
  isLive writtenAt now _ hr := hr.leadsTo_next (.judge writtenAt now)
  note event _ hr := hr.leadsTo_next (.note event)

theorem LeadsTo.toServe_le (h : r.LeadsTo r') (hr : r.Working) (source : Memory.Pages κ) :
    (toServe r'.world.world source).length + r.world.writes ≤
      (toServe r.world.world source).length + r'.world.writes :=
  h.reaches.toServe_le (fun _ _ _ => trivial) hr.sound source

theorem Working.nextPage_cases (hr : r.Working) (source : Memory.Pages κ) :
    (toServe r.world.world source = [] ∧ ∃ s, PageSource.nextPage (source, r) = .ok none s) ∨
      toServe r.world.world source ≠ [] ∧ ∃ r', PageSource.nextPage (source, r) =
        .ok (some ((toServe r.world.world source).take source.pageSize.count))
          (source.served ((toServe r.world.world source).take source.pageSize.count), r') := by
  rcases Journaled.nextPage_cases hr.sound.not_poisoned source with ⟨hserve, s, hnext⟩ |
    ⟨hserve, a, hnext⟩
  · exact .inl ⟨hserve, _, congrArg (Result.mapWorld _) hnext⟩
  · exact .inr ⟨hserve, _, congrArg (Result.mapWorld _) hnext⟩

end Amid

/-! ## Page after page -/

/-- The requests of a pass from where its source stands, and whether it comes to its end. -/
inductive Leafs : Memory.Pages κ → List (PageRequest (Amid (Journaled κ α τ)) κ α) → Bool →
    Prop where
  /-- The pass went no further. -/
  | stopped {source : Memory.Pages κ} : Leafs source [] false
  | ended {source : Memory.Pages κ} {met : Amid (Journaled κ α τ)} :
    toServe met.world.world source = [] → Leafs source [⟨met, .ok none⟩] true
  | page {source : Memory.Pages κ} {met : Amid (Journaled κ α τ)} {page : List (κ × Stamped α)}
    {requests : List (PageRequest (Amid (Journaled κ α τ)) κ α)} {done : Bool} :
    toServe met.world.world source ≠ [] →
    (toServe met.world.world source).take source.pageSize.count = page →
    Leafs (source.served page) requests done →
    Leafs source (⟨met, .ok (some page)⟩ :: requests) done

section Leafs

variable {source : Memory.Pages κ}
  {requests : List (PageRequest (Amid (Journaled κ α τ)) κ α)} {done : Bool}
  {r r' : Amid (Journaled κ α τ)}

namespace Leafs

theorem answer_ne_error (h : Leafs source requests done) :
    ∀ q ∈ requests, ∀ e, q.answer ≠ .error e := by
  induction h with
  | stopped => simp
  | ended _ => simp
  | page _ _ _ ih => exact List.forall_mem_cons.mpr ⟨by simp, ih⟩

theorem pages_ne_nil (h : Leafs source requests done) : ∀ page ∈ pagesIn requests, page ≠ [] := by
  induction h with
  | stopped => simp [pagesIn]
  | ended _ => simp [pagesIn, PageRequest.page?]
  | page hserve hpage _ ih => exact List.forall_mem_cons.mpr ⟨hpage ▸ page_ne_nil hserve, ih⟩

/-- Every request is answered with a page, but the one at the end. -/
theorem length_requests (h : Leafs source requests done) :
    requests.length = (pagesIn requests).length + done.toNat := by
  induction h with
  | stopped => rfl
  | ended _ => rfl
  | @page _ _ page requests done _ _ _ ih =>
    change requests.length + 1 = (page :: pagesIn requests).length + done.toNat
    rw [ih, List.length_cons]
    omega

theorem pages_of_drained (h : Leafs source requests done) (hdrained : source.drained = true) :
    pagesIn requests = [] := by
  cases h with
  | stopped => rfl
  | ended _ => rfl
  | page hserve _ _ => simp [toServe, hdrained] at hserve

end Leafs

variable [Std.TransOrd κ]

/-- A pass over a store that is worked on leafs through it. -/
theorem leafs_of_unfolds {project : κ → Option α → ρ}
    {Closes : PagedEntries.Closing (Amid (Journaled κ α τ)) κ α ρ υ} {limit index : Nat}
    {reels : List (Reel (Amid (Journaled κ α τ)) κ α ρ υ)}
    {outcome : Except StoreError (Option (List υ))}
    (h : PagedEntries.Unfolds project Closes limit source index reels outcome)
    (hmet : ∀ s ∈ reels, s.met.Working) :
    Leafs source (reels.map Reel.request) (succeeded outcome) := by
  -- what is answered with a page is what the source has to serve
  have answered : ∀ {source : Memory.Pages κ} {met : Amid (Journaled κ α τ)} {page s}, met.Working →
      PageSource.nextPage (source, met) = .ok (some page) s →
      toServe met.world.world source ≠ [] ∧
        (toServe met.world.world source).take source.pageSize.count = page ∧
        s.1 = source.served page := by
    intro source met page s hworking hnext
    rcases hworking.nextPage_cases source with ⟨-, s', hend⟩ | ⟨hserve, r', hpage⟩
    · cases hend.symm.trans hnext
    · cases hpage.symm.trans hnext
      exact ⟨hserve, rfl, rfl⟩
  induction h with
  | limit => exact .stopped
  | @ended _ source _ met s hnext =>
    have hworking : met.Working := hmet _ List.mem_cons_self
    rcases hworking.nextPage_cases source with ⟨hserve, -⟩ | ⟨-, r', hpage⟩
    · exact .ended hserve
    · cases hpage.symm.trans hnext
  | @failed _ source _ met s e hnext =>
    have hworking : met.Working := hmet _ List.mem_cons_self
    rcases hworking.nextPage_cases source with ⟨-, s', hend⟩ | ⟨-, r', hpage⟩
    · cases hend.symm.trans hnext
    · cases hpage.symm.trans hnext
  | page hnext _ _ _ ih =>
    obtain ⟨hserve, hpage, hsource⟩ := answered (hmet _ List.mem_cons_self) hnext
    rw [succeeded_map]
    exact .page hserve hpage (hsource ▸ ih fun s hs => hmet s (List.mem_cons_of_mem _ hs))
  | broken hnext _ _ =>
    obtain ⟨hserve, hpage, -⟩ := answered (hmet _ List.mem_cons_self) hnext
    exact .page hserve hpage .stopped

namespace Leafs

omit [Std.TransOrd κ] in
/-- All pages but the last are full. -/
theorem length_pages (h : Leafs source requests done) : (pagesIn requests).length =
    (pagesIn requests).flatten.length ⌈/⌉ source.pageSize.count := by
  induction h with
  | stopped => exact (zero_ceilDiv _).symm
  | ended _ => exact (zero_ceilDiv _).symm
  | @page source met page requests done hserve hpage hrest ih =>
    have hcount := source.pageSize.count_pos
    have hpos : 0 < page.length := List.length_pos_iff.mpr (hpage ▸ page_ne_nil hserve)
    have hle : page.length ≤ source.pageSize.count := by
      rw [← hpage, List.length_take]
      exact Nat.min_le_left _ _
    -- what is left for further pages when the first one is taken off
    have hleft : page.length + (pagesIn requests).flatten.length - source.pageSize.count =
        (pagesIn requests).flatten.length := by
      rcases hle.lt_or_eq with hlt | heq
      · rw [hrest.pages_of_drained (decide_eq_true hlt), List.flatten_nil, List.length_nil]
        omega
      · omega
    change (page :: pagesIn requests).length =
      (page :: pagesIn requests).flatten.length ⌈/⌉ source.pageSize.count
    rw [List.length_cons, ih, List.flatten_cons, List.length_append,
      ceilDiv_eq_succ (by omega) hcount, hleft, Nat.add_comm]
    rfl

/-- A page and what is left for further ones. -/
theorem length_toServe {w : World κ α} {page : List (κ × Stamped α)}
    (hserve : toServe w source ≠ [])
    (hpage : (toServe w source).take source.pageSize.count = page) :
    page.length + (toServe w (source.served page)).length = (toServe w source).length := by
  obtain rfl := hpage
  rw [toServe_served hserve, ← List.length_append, List.take_append_drop]

/-- No more is served than there was to serve at the start and has been written since. -/
theorem served_le (h : Leafs source requests done) (hr : r.Working)
    (halong : Along Amid.LeadsTo r (requests.map PageRequest.met) r') :
    (pagesIn requests).flatten.length + r.world.writes ≤
      (toServe r.world.world source).length + r'.world.writes := by
  have nothing : ∀ {r source mets}, r.Working → Along Amid.LeadsTo r mets r' →
      0 + r.world.writes ≤ (toServe r.world.world source).length + r'.world.writes := by
    intro r source mets hr halong
    have hserve := (halong.related Amid.LeadsTo.trans).toServe_le hr source
    omega
  induction h generalizing r with
  | stopped => exact nothing hr halong
  | ended _ => exact nothing hr halong
  | @page source met page requests done hserve hpage _ ih =>
    cases halong with
    | next hmet hrest =>
      replace hmet : r.LeadsTo met := hmet
      have hworking := (hmet.gains hr).1
      have hmore := hmet.toServe_le hr source
      have hsplit := length_toServe hserve hpage
      have hothers : (pagesIn requests).flatten.length + met.world.writes ≤
          (toServe met.world.world (source.served page)).length + r'.world.writes :=
        ih hworking hrest
      change (page :: pagesIn requests).flatten.length + _ ≤ _
      rw [List.flatten_cons, List.length_append]
      omega

/-- If the store is the same at every request, then all of it is served. -/
theorem served_eq (h : Leafs source requests done) (hdone : done = true)
    (hsame : ∀ q ∈ requests, q.met.table = r.table) :
    (pagesIn requests).flatten.length = (toServe r.world.world source).length := by
  have toServe_eq : ∀ {met : Amid (Journaled κ α τ)} (source : Memory.Pages κ),
      met.table = r.table → toServe met.world.world source = toServe r.world.world source := by
    intro met source htable
    rw [toServe, toServe, show met.world.world.memory.table = _ from htable]
  induction h with
  | stopped => cases hdone
  | @ended source met hserve =>
    rw [← toServe_eq source (hsame _ List.mem_cons_self), hserve]
    rfl
  | @page source met page requests done hserve hpage _ ih =>
    have htable := hsame _ List.mem_cons_self
    have hsplit := length_toServe hserve hpage
    have hothers := ih hdone fun q hq => hsame q (List.mem_cons_of_mem _ hq)
    rw [toServe_eq _ htable, toServe_eq _ htable] at hsplit
    change (page :: pagesIn requests).flatten.length = _
    rw [List.flatten_cons, List.length_append, hothers, hsplit]

end Leafs

end Leafs

/-! ## Bounds -/

section Bounds

variable [Std.TransOrd κ] {start finish : Amid (Journaled κ α τ)} {pageSize : PageSize}
  {limit : Nat}

/-- How often a pass by pages of that size has asked its source by its end, if it may ask `limit`
times and so many entries were written meanwhile. -/
structure Bounded (start : Amid (Journaled κ α τ)) (written : Nat) (pageSize : PageSize)
    (limit : Nat) (film : List (PagedEvent (Amid (Journaled κ α τ)) κ α ρ υ)) (done : Bool) :
    Prop where
  /-- Only pages with entries are served. -/
  pages_ne_nil : ∀ page ∈ pagesIn (requestsIn film), page ≠ []
  /-- The entries at the start and those that were written fill all of them. -/
  pages_le : (pagesIn (requestsIn film)).length ≤ (start.table.size + written) ⌈/⌉ pageSize.count
  /-- If no call and no work fails and the pass may ask once more than for these pages, then it
  comes to the end of its source. -/
  ends : (∀ event ∈ film, event.isBroken = false) →
    (start.table.size + written) ⌈/⌉ pageSize.count < limit → done = true
  /-- At the end it has asked once more than there were pages. -/
  asked : done = true → (requestsIn film).length = (pagesIn (requestsIn film)).length + 1
  /-- If it has met the same entries whenever it asked, then these filled the pages. -/
  unchanged : done = true → (∀ q ∈ requestsIn film, q.met.table = start.table) →
    (pagesIn (requestsIn film)).length = start.table.size ⌈/⌉ pageSize.count

/-- So it is for a pass that leafs through a store on which there is work, shows its failures and
asks as often as it may unless it ends. -/
theorem Leafs.bounded {film : List (PagedEvent (Amid (Journaled κ α τ)) κ α ρ υ)} {β : Type}
    {outcome : Except StoreError (Option β)}
    (h : Leafs { pageSize } (requestsIn film) (succeeded outcome)) (hstart : start.Working)
    (halong : Along Amid.LeadsTo start ((requestsIn film).map PageRequest.met) finish)
    (hfailure : ∀ {e}, outcome = .error e → ∃ event ∈ film, event.failure? = some e)
    (hlimit : outcome = .ok none → (requestsIn film).length = limit) :
    ∃ written, finish.world.writes = start.world.writes + written ∧
      Bounded start written pageSize limit film (succeeded outcome) := by
  obtain ⟨-, written, hwrites, -⟩ :=
    (halong.related Amid.LeadsTo.trans).gains hstart
  have hfresh : (toServe start.world.world { pageSize }).length = start.table.size := by
    rw [toServe_fresh]
    rfl
  have hserved := h.served_le hstart halong
  have hpages : (pagesIn (requestsIn film)).length ≤
      (start.table.size + written) ⌈/⌉ pageSize.count := by
    rw [h.length_pages]
    exact (gc_smul_ceilDiv pageSize.count_pos).monotone_l (by omega)
  refine ⟨written, hwrites, h.pages_ne_nil, hpages, fun hgood hless => ?_, fun hdone => ?_,
    fun hdone hsame => ?_⟩
  · rcases outcome with e | - | b
    · obtain ⟨event, hevent, hbroken⟩ :=
        exists_isBroken_of_failure? (hfailure rfl) h.answer_ne_error
      rw [hgood event hevent] at hbroken
      cases hbroken
    · have hasked := h.length_requests
      rw [hlimit rfl] at hasked
      change limit = _ + 0 at hasked
      omega
    · rfl
  · rw [h.length_requests, hdone]
    rfl
  · rw [h.length_pages, h.served_eq hdone hsame, hfresh]

/-- Whatever a callback, its works and others do to the store by deeds : both paged passes come to
their end, by as many pages at most as are filled by the entries at the start and those that are
written meanwhile, and by as many as the entries fill if nothing changes. A search for the next
live entry advances its cursor at most once more than there are entries ahead, and a pass through a
cursor pulls no more entries than were there at the start and have been written between its
calls. -/
theorem passes_end (project : κ → Option α → ρ) (hstart : start.Working) (pageSize : PageSize)
    (limit : Nat) :
    (∀ (rule : Nat → JoinRule) {callback : Nat → ρ → Amid (Journaled κ α τ) →
        Deferred (Amid (Journaled κ α τ)) υ × Amid (Journaled κ α τ)},
      (∀ index item {r}, Amid.Working r → r.LeadsTo (callback index item r).2) →
      (∀ index item r {r'}, Amid.Working r' →
        r'.LeadsTo ((callback index item r).1.finish r').world) →
      let c : Collection (Amid (Journaled κ α τ)) (Memory.Pages κ) κ α ρ υ :=
        { source := { pageSize }, project, rule, limit, callback, world := start }
      c.filmed.mapWorld Filmed.world = c.result ∧
        ∃ written, c.result.world.world.writes = start.world.writes + written ∧
          Bounded start written pageSize limit c.film (succeeded c.result.outcome)) ∧
    (∀ {callback : Nat → ρ → Action (Amid (Journaled κ α τ)) Unit},
      (∀ index item {r}, Amid.Working r → r.LeadsTo (callback index item r).world) →
      let d : Delivery (Amid (Journaled κ α τ)) (Memory.Pages κ) κ α ρ :=
        { source := { pageSize }, project, limit, callback, world := start }
      d.filmed.mapWorld Filmed.world = d.result ∧
        ∃ written, d.result.world.world.writes = start.world.writes + written ∧
          Bounded start written pageSize limit d.film (succeeded d.result.outcome)) ∧
    ∀ {policy : Policy} {w : World κ α}, Intact policy w →
      (∀ (it : LiveEntries κ α ρ) (position : Memory.Position κ),
        ∃ r, LiveEntries.hasNext? (it, ({ world := (position, w) } :
            Logged (Memory.Position κ × World κ α) κ α)) = some r ∧
          r.view Logged.world = LiveEntries.hasNext (it, position, w) ∧
          r.world.2.log.countP Asked.isAdvance ≤
            1 + (w.memory.table.after position.last).length) ∧
      ∀ {steps : List (PassStep (World κ α) × Nat)}, LiveEntries.Writing policy steps →
        ∃ film s', LiveEntries.film? (steps.map fun step => step.1.lift LiveEntries.beside)
            (({ project } : LiveEntries κ α ρ), ({} : Memory.Position κ), w) = some (film, s') ∧
          (pulledKeys (LiveEntries.turnsIn film)).length ≤
            w.memory.table.size + (steps.map Prod.snd).sum := by
  refine ⟨fun rule callback hcall hfinish => ?_, fun {callback} hcall => ?_, fun {policy w} hw =>
    ⟨fun it position => it.advances_hasNext position hw, fun {steps} hsteps => ?_⟩⟩
  · intro c
    refine ⟨PagedEntries.collectFilmed_world _ _ _ _ _, ?_⟩
    obtain ⟨reels, hrequests, hunfolds, hlimit⟩ := c.requests
    have halong : Along Amid.LeadsTo start ((requestsIn c.film).map PageRequest.met)
        c.result.world :=
      Collection.along (c := c) Amid.linkedByPaging (fun index item _ => hcall index item)
        (fun index item r _ => hfinish index item r) hstart
    have hleafs := leafs_of_unfolds hunfolds
      (halong.holds_met hrequests Amid.linkedByPaging.keeps hstart)
    rw [← hrequests] at hleafs
    exact hleafs.bounded hstart halong c.exists_failure? hlimit
  · intro d
    refine ⟨d.filmed_world, ?_⟩
    obtain ⟨reels, outcome, hrequests, hunfolds, houtcome, hlimit⟩ := d.requests
    have halong : Along Amid.LeadsTo start ((requestsIn d.film).map PageRequest.met)
        d.result.world :=
      Delivery.along (d := d) Amid.linkedByPaging (fun index item _ => hcall index item) hstart
    have hleafs := leafs_of_unfolds hunfolds
      (halong.holds_met hrequests Amid.linkedByPaging.keeps hstart)
    rw [← hrequests, ← succeeded_map outcome fun _ => (), ← houtcome] at hleafs
    exact hleafs.bounded hstart halong d.exists_failure? hlimit
  · obtain ⟨⟨history, s'⟩, hrun⟩ := Option.isSome_iff_exists.mp
      (LiveEntries.isSome_run? (steps.map fun step => step.1.lift LiveEntries.beside)
        (({ project } : LiveEntries κ α ρ), ({} : Memory.Position κ), w))
    obtain ⟨film, hfilm, -⟩ := LiveEntries.film?_of_run? hrun
    have hpulled := LiveEntries.pulled_film? hsteps (s := (_, ({} : Memory.Position κ), w)) hw hfilm
    rw [Table.after_none] at hpulled
    exact ⟨film, s', hfilm, hpulled⟩

end Bounds

/-! A store to which entries are written ahead of the passes over it. -/

namespace Amid

/-- A store with two entries. While the first page is being read, others store an entry beyond
both. -/
def growing : Amid (Journaled Nat Nat Unit) where
  world := { system := { scene := { world := {
    memory := { table := ⟨[(1, ⟨some 10, 0⟩), (4, ⟨some 40, 0⟩)], by decide⟩ }
    policy := .always } } } }
  others := [(Deed.move (.act (.direct (.put 7 (some 70))))).perform]

/-- At the first item an entry is stored ahead of the pass. -/
def extend (index : Nat) (_ : Nat) : Action (Amid (Journaled Nat Nat Unit)) Unit := fun r =>
  if index = 0 then
    .ok () { r with world := (Deed.move (.act (.direct (.put 5 (some 50))))).perform r.world }
  else .ok () r

/-- The same, in works that wait. -/
def extendLater (index : Nat) (key : Nat) (r : Amid (Journaled Nat Nat Unit)) :
    Deferred (Amid (Journaled Nat Nat Unit)) Unit × Amid (Journaled Nat Nat Unit) :=
  ({ waits := 2, finish := extend index key }, r)

theorem working_growing : growing.Working := by
  refine ⟨.start rfl, fun change hchange a => ?_⟩
  obtain rfl := List.mem_singleton.mp hchange
  exact .deed _ (.here a) trivial

theorem leadsTo_extend (index key : Nat) (r : Amid (Journaled Nat Nat Unit)) :
    r.LeadsTo (extend index key r).world := by
  unfold extend
  split
  · exact ⟨.deed _ (.here _) trivial, fun _ => id⟩
  · exact .refl r

/-- Passes with pages of one. -/
def delivering : Delivery (Amid (Journaled Nat Nat Unit)) (Memory.Pages Nat) Nat Nat Nat where
  source := { pageSize := .ofNat 1 }
  project key _ := key
  limit := 5
  callback := extend
  world := growing

def collecting : Collection (Amid (Journaled Nat Nat Unit)) (Memory.Pages Nat) Nat Nat Nat
    Unit where
  toPagedEntries := delivering.toPagedEntries
  rule := JoinRule.ofCount
  limit := 5
  callback := extendLater
  world := growing

/-- A pass entry by entry, and an entry that is stored ahead of it. -/
def steps : List (PassStep (World Nat Nat) × Nat) :=
  [(.call .nextItem, 0), (.elsewhere fun w => ((PointCall.put 5 (some 50)).direct w).world, 1),
    (.call .hasNext, 0)]

theorem writing_steps : LiveEntries.Writing .always steps := by
  intro change n hmem w hw
  simp only [steps, List.mem_cons, Prod.mk.injEq, reduceCtorEq, PassStep.elsewhere.injEq,
    false_and, List.not_mem_nil, or_false, false_or] at hmem
  obtain ⟨rfl, rfl⟩ := hmem
  exact ⟨_, carried_direct hw.not_poisoned _, le_refl 1⟩

/-- With the two entries that are written ahead of them, four pages are what both passes can be
served, and they are at their end with the fifth request. -/
theorem passes_end_growing :
    succeeded delivering.result.outcome = true ∧ succeeded collecting.result.outcome = true ∧
      (pagesIn (requestsIn delivering.film)).length ≤ 4 ∧
      (pagesIn (requestsIn collecting.film)).length ≤ 4 ∧
      ∃ film s', LiveEntries.film? (steps.map fun step => step.1.lift LiveEntries.beside)
          (({ project := fun key _ => key } : LiveEntries Nat Nat Nat),
            ({} : Memory.Position Nat), growing.world.world) = some (film, s') ∧
        (pulledKeys (LiveEntries.turnsIn film)).length ≤ 3 := by
  obtain ⟨hcollect, hdeliver, hsingle⟩ := passes_end (υ := Unit)
    (fun (key : Nat) (_ : Option Nat) => key) working_growing (.ofNat 1) 5
  obtain ⟨-, written, hwritten, hcollected⟩ := @hcollect JoinRule.ofCount extendLater
    (fun _ _ r _ => .refl r) fun index key _ r' _ => leadsTo_extend index key r'
  obtain ⟨-, written', hwritten', hdelivered⟩ := @hdeliver extend
    fun index key r _ => leadsTo_extend index key r
  have hcollecting : collecting.result.world.world.writes = 0 + 2 := by decide +kernel
  have hdelivering : delivering.result.world.world.writes = 0 + 2 := by decide +kernel
  obtain rfl : written = 2 := Nat.add_left_cancel (hwritten.symm.trans hcollecting)
  obtain rfl : written' = 2 := Nat.add_left_cancel (hwritten'.symm.trans hdelivering)
  exact ⟨hdelivered.ends (by decide +kernel) (by decide +kernel),
    hcollected.ends (by decide +kernel) (by decide +kernel), hdelivered.pages_le,
    hcollected.pages_le, (hsingle (⟨rfl, rfl⟩ : Intact .always growing.world.world)).2
      writing_steps⟩

end Amid

end LazyExpiry
