import LazyExpiry.Proofs.Paged.Delivered

/-!
# The requests of a paged pass

How often a pass asks its source is settled by what the source answers. So from the film of a
pass the requests are taken (`requestsIn`), each with the world that was asked. Both passes
unfold by them (`Collection.requests`, `Delivery.requests`), and a pass that fails shows a failure
on its film (`Collection.exists_failure?`, `Delivery.exists_failure?`).

Between two requests the callback, its works and whoever else may do anything to the world. What
relates a world to the one after each of these steps, relates the world of a request to that of
the next one (`Collection.along`, `Delivery.along`). If meanwhile the source gains no more than is
written (`Depletes`), then a pass with requests enough for that comes to its end (`Depletes.ends`).
-/

namespace LazyExpiry

variable {ω κ α π ρ υ : Type}

/-! ## Requests on film -/

/-- A request for a page. -/
structure PageRequest (ω κ α : Type) where
  /-- The world in which the source was asked. -/
  met : ω
  answer : Except StoreError (Option (List (κ × Stamped α)))

/-- The page that was served. -/
def PageRequest.page? (q : PageRequest ω κ α) : Option (List (κ × Stamped α)) :=
  match q.answer with
  | .ok page => page
  | .error _ => none

def PagedEvent.request? : PagedEvent ω κ α ρ υ → Option (PageRequest ω κ α)
  | requested met answer => some ⟨met, answer⟩
  | _ => none

/-- The requests on a film. -/
def requestsIn (film : List (PagedEvent ω κ α ρ υ)) : List (PageRequest ω κ α) :=
  film.filterMap PagedEvent.request?

/-- The pages that were served. -/
def pagesIn (requests : List (PageRequest ω κ α)) : List (List (κ × Stamped α)) :=
  requests.filterMap PageRequest.page?

/-- The request that a reel begins with. -/
def Reel.request (s : Reel ω κ α ρ υ) : PageRequest ω κ α := ⟨s.met, s.answer⟩

theorem requestsIn_append (film film' : List (PagedEvent ω κ α ρ υ)) :
    requestsIn (film ++ film') = requestsIn film ++ requestsIn film' := List.filterMap_append

theorem requestsIn_of_uncut {events : List (PagedEvent ω κ α ρ υ)}
    (h : ∀ event ∈ events, event.isRequest = false) : requestsIn events = [] :=
  List.filterMap_eq_nil_iff.mpr fun event hevent => by
    match event, h event hevent with
    | .read _, _ | .judged _ _ _, _ | .called _ _ _, _ | .joining _, _ | .finished _ _ _, _ => rfl

/-- Each reel has one request. -/
theorem requestsIn_reels {reels : List (Reel ω κ α ρ υ)} (h : ∀ s ∈ reels, s.Uncut) :
    requestsIn (reels.flatMap Reel.film) = reels.map Reel.request := by
  induction reels with
  | nil => rfl
  | cons s reels ih =>
    obtain ⟨hs, hreels⟩ := List.forall_mem_cons.mp h
    have hreel : requestsIn s.film = [s.request] :=
      congrArg (s.request :: ·) (requestsIn_of_uncut hs)
    rw [List.flatMap_cons, requestsIn_append, hreel, ih hreels]
    rfl

/-- A failure on a film is a request that failed, or a call or a work that did. -/
theorem exists_isBroken_of_failure? {film : List (PagedEvent ω κ α ρ υ)} {e : StoreError}
    (h : ∃ event ∈ film, event.failure? = some e)
    (hrequests : ∀ q ∈ requestsIn film, ∀ e, q.answer ≠ .error e) :
    ∃ event ∈ film, event.isBroken = true := by
  obtain ⟨event, hevent, hfailure⟩ := h
  refine ⟨event, hevent, event.isBroken_of_failure? hfailure ?_⟩
  match event with
  | .requested met (.error e') =>
    exact absurd rfl (hrequests ⟨met, .error e'⟩ (List.mem_filterMap.mpr ⟨_, hevent, rfl⟩) e')
  | .requested _ (.ok _) => cases hfailure
  | .read _ | .judged _ _ _ | .called _ _ _ | .joining _ | .finished _ _ _ => rfl

/-! ## Both passes -/

section Passes

variable [Context ω] [PageSource (π × ω) κ (Stamped α)]

omit [Context ω] in
/-- A collecting pass that fails shows the failure. -/
theorem PagedEntries.Unfolds.exists_failure? {project : κ → Option α → ρ} {limit : Nat} {source : π}
    {index : Nat} {reels : List (Reel ω κ α ρ υ)} {outcome : Except StoreError (Option (List υ))}
    (h : Unfolds project JoinCloses limit source index reels outcome) {e : StoreError}
    (houtcome : outcome = .error e) :
    ∃ event ∈ reels.flatMap Reel.film, event.failure? = some e := by
  induction h with
  | limit => cases houtcome
  | ended _ => cases houtcome
  | failed _ =>
    cases houtcome
    exact ⟨_, List.mem_cons_self, rfl⟩
  | @page _ _ _ _ _ _ _ _ _ _ _ outcome _ _ _ _ ih =>
    rcases outcome with e' | answers
    · obtain ⟨event, hevent, hfailure⟩ := ih houtcome
      exact ⟨event, List.mem_append_right _ hevent, hfailure⟩
    · cases houtcome
  | broken _ _ hclose =>
    cases houtcome
    cases hclose with
    | broken _ hfailed =>
      exact ⟨_, List.mem_append_left _ (List.mem_cons_of_mem _ (List.mem_cons_of_mem _
        (List.mem_append_right _ (List.mem_cons_of_mem _ hfailed)))), rfl⟩

namespace Collection

/-- A collecting pass unfolds by its requests. If it is not at its end, these are as many as it may
make. -/
theorem requests (c : Collection ω π κ α ρ υ) :
    ∃ reels, requestsIn c.film = reels.map Reel.request ∧
      PagedEntries.Unfolds c.project PagedEntries.JoinCloses c.limit c.source 0 reels
        c.result.outcome ∧
      (c.result.outcome = .ok none → (requestsIn c.film).length = c.limit) := by
  obtain ⟨hfilm, hunfolds⟩ := c.unfolds
  have hrequests : requestsIn c.film = (reelsOf c.film).map Reel.request := by
    rw [hfilm, requestsIn_reels (hunfolds.uncut PagedEntries.joinCloses_withWork), ← hfilm]
  refine ⟨reelsOf c.film, hrequests, hunfolds, fun hnone => ?_⟩
  rw [hrequests, List.length_map, (hunfolds.limited.spent hnone).1]

theorem exists_failure? (c : Collection ω π κ α ρ υ) {e : StoreError}
    (h : c.result.outcome = .error e) : ∃ event ∈ c.film, event.failure? = some e := by
  rw [c.unfolds.1]
  exact c.unfolds.2.exists_failure? h

end Collection

namespace Delivery

/-- The film of a delivering pass shows what became of the calls, and else what the film of its
calls shows. -/
theorem deliverFilmed_eq (d : Delivery ω π κ α ρ) :
    d.toPagedEntries.deliverFilmed d.limit d.callback d.world =
      d.filmed.mapWorld fun r => ⟨r.world, r.film.filter (!·.isFinished)⟩ := by
  have hmirrors : PagedMirrors π fun r : Filmed ω κ α ρ Unit =>
      (⟨r.world, r.film.filter (!·.isFinished)⟩ : Filmed ω κ α ρ Unit) := {
    nextPage := fun source r => by
      rw [Filmed.nextPage_eq, Filmed.nextPage_eq]
      rcases PageSource.nextPage (source, r.world) with _ | _ <;>
        simp [Filmed.shoot, PagedEvent.isFinished]
    now := fun r => by simp [Context.now, Filmed.shoot, PagedEvent.isFinished]
    isLive := fun _ _ r => by simp [Context.isLive, Filmed.shoot, PagedEvent.isFinished]
    note := fun _ _ => rfl }
  refine PagedEntries.deliverFrom_view hmirrors (fun index item r => ?_) d.limit 0 0 d.source
    { world := d.world }
  simp only [Filmed.ofReceiver, Filmed.ofDelivery]
  rcases d.callback index item r.world with _ | _ <;> simp [Filmed.shoot, PagedEvent.isFinished]

theorem requestsIn_film (d : Delivery ω π κ α ρ) : requestsIn d.film =
    requestsIn (d.toPagedEntries.deliverFilmed d.limit d.callback d.world).world.film := by
  rw [deliverFilmed_eq, Result.world_mapWorld, requestsIn, requestsIn, List.filterMap_filter]
  refine List.filterMap_congr fun event _ => ?_
  match event with
  | .requested _ _ | .read _ | .judged _ _ _ | .called _ _ _ | .joining _ | .finished _ _ _ => rfl

/-- A delivering pass unfolds by its requests. If it is not at its end, these are as many as it may
make. -/
theorem requests (d : Delivery ω π κ α ρ) : ∃ reels outcome,
    requestsIn d.film = reels.map Reel.request ∧
      PagedEntries.Unfolds d.project PagedEntries.NothingCloses d.limit d.source 0 reels outcome ∧
      d.result.outcome = outcome.map (Option.map fun _ => ()) ∧
      (d.result.outcome = .ok none → (requestsIn d.film).length = d.limit) := by
  obtain ⟨reels, outcome, hfilm, hreels, hunfolds, houtcome⟩ :=
    d.toPagedEntries.unfolds_deliverFilmed d.limit d.callback d.world
  have hrequests : requestsIn d.film = reels.map Reel.request := by
    rw [requestsIn_film, hfilm,
      requestsIn_reels (hunfolds.uncut PagedEntries.nothingCloses_withWork)]
  refine ⟨reels, outcome, hrequests, hunfolds, houtcome, fun hnone => ?_⟩
  rw [hrequests, List.length_map]
  exact (hunfolds.limited.spent (eq_ok_none_of_map (houtcome ▸ hnone))).1

theorem exists_failure? (d : Delivery ω π κ α ρ) {e : StoreError}
    (h : d.result.outcome = .error e) : ∃ event ∈ d.film, event.failure? = some e := by
  have hends := d.delivers.endsBy
  rw [h] at hends
  obtain ⟨past, failure, hfilm, hfailure, -⟩ := hends
  exact ⟨failure, hfilm ▸ List.mem_append_right _ (List.mem_singleton_self _), hfailure⟩

end Delivery

end Passes

/-! ## From request to request -/

/-- From one world to another along those in between, each related to the one before it. -/
inductive Along (R : ω → ω → Prop) : ω → List ω → ω → Prop where
  | last {w w' : ω} : R w w' → Along R w [] w'
  | next {w met w' : ω} {mets : List ω} : R w met → Along R met mets w' → Along R w (met :: mets) w'

theorem Along.trans {R : ω → ω → Prop} {w w' w'' : ω} {mets : List ω} (h : Along R w mets w')
    (hlast : R w' w'') (htrans : ∀ {w w' w''}, R w w' → R w' w'' → R w w'') :
    Along R w mets w'' := by
  induction h with
  | last hfirst => exact .last (htrans hfirst hlast)
  | next hnext _ ih => exact .next hnext (ih hlast)

theorem Along.related {R : ω → ω → Prop} {w w' : ω} {mets : List ω} (h : Along R w mets w')
    (htrans : ∀ {w w' w''}, R w w' → R w' w'' → R w w'') : R w w' := by
  induction h with
  | last hlast => exact hlast
  | next hnext _ ih => exact htrans hnext ih

/-- What the related world keeps, all of them have. -/
theorem Along.holds {I : ω → Prop} {R : ω → ω → Prop} {w w' : ω} {mets : List ω}
    (h : Along R w mets w') (hkeeps : ∀ {w w'}, I w → R w w' → I w') (hw : I w) :
    ∀ met ∈ mets, I met := by
  induction h with
  | last _ => exact List.forall_mem_nil _
  | next hmet _ ih => exact List.forall_mem_cons.mpr ⟨hkeeps hw hmet, ih (hkeeps hw hmet)⟩

/-- So have those in which a pass with these requests asks. -/
theorem Along.holds_met {I : ω → Prop} {R : ω → ω → Prop} {w w' : ω}
    {film : List (PagedEvent ω κ α ρ υ)} {reels : List (Reel ω κ α ρ υ)}
    (h : Along R w ((requestsIn film).map PageRequest.met) w')
    (hfilm : requestsIn film = reels.map Reel.request) (hkeeps : ∀ {w w'}, I w → R w w' → I w')
    (hw : I w) : ∀ s ∈ reels, I s.met := by
  rw [hfilm, List.map_map] at h
  exact List.forall_mem_map.mp (h.holds hkeeps hw)

theorem Along.snoc {R : ω → ω → Prop} {w w' w'' : ω} {mets : List ω} (h : Along R w mets w')
    (hlast : R w' w'') : Along R w (mets ++ [w']) w'' := by
  induction h with
  | last hfirst => exact .next hfirst (.last hlast)
  | next hnext _ ih => exact .next hnext (ih hlast)

section Linked

variable [Context ω] [PageSource (π × ω) κ (Stamped α)] {I : ω → Prop} {R : ω → ω → Prop}

/-- In worlds with `I`, which `R` keeps, whatever a pass asks for leads from a world to one that is
related to it. -/
structure LinkedByPaging (π : Type) [PageSource (π × ω) κ (Stamped α)] (I : ω → Prop)
    (R : ω → ω → Prop) : Prop where
  refl : ∀ w, R w w
  trans : ∀ {w w' w''}, R w w' → R w' w'' → R w w''
  keeps : ∀ {w w'}, I w → R w w' → I w'
  nextPage : ∀ (source : π) {w}, I w → R w (PageSource.nextPage (source, w)).world.2
  now : ∀ {w}, I w → R w (Context.now w).2
  isLive : ∀ (writtenAt now : Timestamp) {w}, I w → R w (Context.isLive writtenAt now w).2
  note : ∀ (event : Event) {w}, I w → R w (Context.note event w)

/-- The worlds of the requests so far are related, from that world on. -/
structure Filmed.Linked (I : ω → Prop) (R : ω → ω → Prop) (w : ω) (r : Filmed ω κ α ρ υ) :
    Prop where
  holds : I r.world
  along : Along R w ((requestsIn r.film).map PageRequest.met) r.world

theorem Filmed.Linked.shoot (h : LinkedByPaging π I R) {w w' : ω} {r : Filmed ω κ α ρ υ}
    (hr : r.Linked I R w) (hstep : R r.world w') {event : PagedEvent ω κ α ρ υ}
    (hevent : event.isRequest = false) : (r.shoot w' event).Linked I R w := by
  refine ⟨h.keeps hr.holds hstep, ?_⟩
  rw [Filmed.film_shoot, requestsIn_append,
    requestsIn_of_uncut (List.forall_mem_singleton.mpr hevent), List.append_nil]
  exact hr.along.trans hstep h.trans

theorem LinkedByPaging.heldByPaging (h : LinkedByPaging π I R) (w : ω) :
    HeldByPaging (π := π) (Filmed.Linked I R w : Filmed ω κ α ρ υ → Prop) where
  nextPage {r} source hr := by
    have hstep := h.nextPage source hr.holds
    rw [Filmed.nextPage_eq, Result.world_mapWorld]
    refine ⟨h.keeps hr.holds hstep, ?_⟩
    rw [Filmed.film_shoot, requestsIn_append, List.map_append]
    exact hr.along.snoc hstep
  now hr := hr.shoot h (h.now hr.holds) rfl
  isLive writtenAt now hr := hr.shoot h (h.isLive writtenAt now hr.holds) rfl
  note event hr := ⟨h.keeps hr.holds (h.note event hr.holds),
    hr.along.trans (h.note event hr.holds) h.trans⟩

/-- From request to request, a collecting pass whose callback and works go on by `R` does so. -/
theorem Collection.along (h : LinkedByPaging π I R) {c : Collection ω π κ α ρ υ}
    (hcall : ∀ index item w, I w → R w (c.callback index item w).2)
    (hfinish : ∀ index item w w', I w' → R w' ((c.callback index item w).1.finish w').world)
    (hw : I c.world) :
    Along R c.world ((requestsIn c.film).map PageRequest.met) c.result.world := by
  have hlinked : c.filmed.world.Linked I R c.world := by
    refine PagedEntries.held_collectFromBy (h.heldByPaging c.world)
      (fun hts hr => held_joinAll _ _ hts (hr.shoot h (h.refl _) rfl))
      (fun index item r hr => hr.shoot h (hcall index item r.world hr.holds) rfl)
      (fun index item r r' hr => ?_) c.limit 0 [] c.source ⟨hw, .last (h.refl _)⟩
    simp only [Filmed.ofCallback, Filmed.ofWork, Result.world_mapWorld]
    exact hr.shoot h (hfinish index item r.world r'.world hr.holds) rfl
  have hworld : c.filmed.world.world = c.result.world := by
    rw [result, ← PagedEntries.collectFilmed_world, Result.world_mapWorld, filmed]
  exact hworld ▸ hlinked.along

/-- From request to request, a delivering pass whose callback goes on by `R` does so. -/
theorem Delivery.along (h : LinkedByPaging π I R) {d : Delivery ω π κ α ρ}
    (hcall : ∀ index item w, I w → R w (d.callback index item w).world) (hw : I d.world) :
    Along R d.world ((requestsIn d.film).map PageRequest.met) d.result.world := by
  have hlinked : d.filmed.world.Linked I R d.world := by
    refine PagedEntries.held_deliverFrom (h.heldByPaging d.world) (fun index item r hr => ?_)
      d.limit 0 0 d.source ⟨hw, .last (h.refl _)⟩
    rw [Filmed.ofDelivery, Result.world_mapWorld]
    exact (hr.shoot h (h.refl _) rfl).shoot h (hcall index item r.world hr.holds) rfl
  have hworld : d.filmed.world.world = d.result.world := by
    rw [← d.filmed_world, Result.world_mapWorld]
  exact hworld ▸ hlinked.along

end Linked

/-! ## Sources that are used up -/

/-- In worlds with `I` a source answers with less and less of what is ahead of it, and from world to
world no more comes to that than is written. -/
structure Depletes [PageSource (π × ω) κ (Stamped α)] (I : ω → Prop) (R : ω → ω → Prop)
    (ahead : π → ω → Nat) (writes : ω → Nat) : Prop where
  answers : ∀ {source : π} {met e s}, I met → PageSource.nextPage (source, met) ≠ .error e s
  page : ∀ {source : π} {met page s}, I met →
    PageSource.nextPage (source, met) = .ok (some page) s → ahead s.1 met < ahead source met
  grows : ∀ {w w'}, I w → R w w' → ∀ source, ahead source w' + writes w ≤ ahead source w + writes w'

namespace Depletes

variable [PageSource (π × ω) κ (Stamped α)] {I : ω → Prop} {R : ω → ω → Prop}
  {ahead : π → ω → Nat} {writes : ω → Nat} {project : κ → Option α → ρ}
  {Closes : PagedEntries.Closing ω κ α ρ υ} {limit index : Nat} {source : π}
  {reels : List (Reel ω κ α ρ υ)} {outcome : Except StoreError (Option (List υ))} {start finish : ω}

theorem answer_ne_error (h : Depletes I R ahead writes)
    (hunfolds : PagedEntries.Unfolds project Closes limit source index reels outcome)
    (hmet : ∀ s ∈ reels, I s.met) : ∀ s ∈ reels, ∀ e, s.answer ≠ .error e := by
  induction hunfolds with
  | limit => simp
  | ended _ => simp
  | failed hnext => exact absurd hnext (h.answers (hmet _ List.mem_cons_self))
  | page _ _ _ _ ih =>
    exact List.forall_mem_cons.mpr ⟨by simp, ih fun s hs => hmet s (List.mem_cons_of_mem _ hs)⟩
  | broken _ _ _ => simp

/-- The requests of a pass that is stopped by its limit were paid for by what was ahead at the start
and what was written meanwhile. -/
theorem limit_le (h : Depletes I R ahead writes)
    (hunfolds : PagedEntries.Unfolds project Closes limit source index reels outcome)
    (halong : Along R start (reels.map Reel.met) finish)
    (hkeeps : ∀ {w w'}, I w → R w w' → I w') (hstart : I start) (hnone : outcome = .ok none) :
    limit + writes start ≤ ahead source start + writes finish := by
  induction hunfolds generalizing start with
  | @limit source _ =>
    cases halong with
    | last hlast =>
      have hgrown := h.grows hstart hlast source
      omega
  | ended _ => cases hnone
  | failed _ => cases hnone
  | @page limit source _ met s _ _ _ _ _ reels _ hnext _ _ _ ih =>
    cases halong with
    | next hmet hrest =>
      replace hmet : R start met := hmet
      replace hrest : Along R met (reels.map Reel.met) finish := hrest
      have hafter := hkeeps hstart hmet
      have hless := h.page hafter hnext
      have hgrown := h.grows hstart hmet source
      have hothers := ih hrest hafter (eq_ok_none_of_map hnone)
      omega
  | broken _ _ _ => cases hnone

/-- A pass in which no call and no work fails comes to its end, if it may ask more often than for
what was ahead at the start and was written meanwhile. -/
theorem ends (h : Depletes I R ahead writes)
    (hunfolds : PagedEntries.Unfolds project Closes limit source index reels outcome)
    {film : List (PagedEvent ω κ α ρ υ)} (hfilm : requestsIn film = reels.map Reel.request)
    (halong : Along R start ((requestsIn film).map PageRequest.met) finish)
    (hkeeps : ∀ {w w'}, I w → R w w' → I w') (hstart : I start)
    (hfailure : ∀ {e}, outcome = .error e → ∃ event ∈ film, event.failure? = some e)
    (hgood : ∀ event ∈ film, event.isBroken = false)
    (hless : ahead source start + writes finish < limit + writes start) :
    succeeded outcome = true := by
  have hmet := halong.holds_met hfilm hkeeps hstart
  rw [hfilm, List.map_map] at halong
  rcases outcome with e | - | answers
  · obtain ⟨event, hevent, hbroken⟩ := exists_isBroken_of_failure? (hfailure rfl) fun q hq => by
      obtain ⟨s, hs, rfl⟩ := List.mem_map.mp (hfilm ▸ hq)
      exact h.answer_ne_error hunfolds hmet s hs
    rw [hgood event hevent] at hbroken
    cases hbroken
  · have hspent := h.limit_le hunfolds halong hkeeps hstart rfl
    omega
  · rfl

end Depletes

end LazyExpiry
