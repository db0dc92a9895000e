import LazyExpiry.Proofs.Paged.Limits
import LazyExpiry.Proofs.Views.Agree

/-!
# What a collecting pass comes to, in what order

The works of a page are completed as they come, the ones that wait less before the ones that
wait longer. All else goes in the order of the source (`InOrder`) : the clock is read once
when a page has come, all its items are then given to the callback before any work is
polled, each work is completed once before the source is asked again, and the results are
those of the items in their order. If the source ends by the limit of the pass, then the pass
collects them.

So if the works answer by the item alone, what is collected is a matter of the live entries
(`results_of_inOrder`). How long the works wait, by which rule they are joined and how the
entries are cut into pages leaves it the same (`collects_in_order`).
-/

namespace LazyExpiry

variable {ω κ α π ρ υ : Type}

/-! ## Order -/

/-- A failure that was answered. -/
def PagedEvent.isFailure : PagedEvent ω κ α ρ υ → Bool
  | requested _ (.error _) => true
  | finished _ _ (.error _) => true
  | _ => false

/-- The film of a pass that takes page by page and item by item in order from a source, with what it
collects. It may ask for `limit` pages, and the first item comes after `index` others. -/
inductive InOrder [PageSource (π × ω) κ (Stamped α)] (project : κ → Option α → ρ) :
    Nat → π → Nat → List (PagedEvent ω κ α ρ υ) → Option (List υ) → Prop where
  /-- No further page may be asked for. -/
  | limit {source : π} {index : Nat} : InOrder project 0 source index [] none
  | ended {limit : Nat} {source : π} {index : Nat} {met : ω} {s : π × ω} :
    PageSource.nextPage (source, met) = .ok none s →
    InOrder project (limit + 1) source index [.requested met (.ok none)] (some [])
  | page {limit : Nat} {source : π} {index : Nat} {met : ω} {s : π × ω}
    {page : List (κ × Stamped α)} {now : Timestamp} {looks : List (Look κ α)}
    {finishes film : List (PagedEvent ω κ α ρ υ)} {answers : List υ} {results : Option (List υ)} :
    PageSource.nextPage (source, met) = .ok (some page) s → LooksAt now page looks →
    answers.length = (callsIn project looks).length →
    finishes.Perm (completions index ((callsIn project looks).map Prod.fst) answers) →
    InOrder project limit s.1 (index + answers.length) film results →
    InOrder project (limit + 1) source index
      (.requested met (.ok (some page)) :: .read now ::
        (lookFilm project index looks ++
          .joining ((callsIn project looks).map Prod.snd) :: (finishes ++ film)))
      (results.map (answers ++ ·))

/-- A collecting pass without failures goes in order. -/
theorem inOrder_of_unfolds [PageSource (π × ω) κ (Stamped α)] {project : κ → Option α → ρ}
    {limit : Nat} {source : π} {index : Nat} {reels : List (Reel ω κ α ρ υ)}
    {outcome : Except StoreError (Option (List υ))}
    (h : PagedEntries.Unfolds project PagedEntries.JoinCloses limit source index reels outcome)
    (hgood : ∀ event ∈ reels.flatMap Reel.film, event.isFailure = false) :
    ∃ results, outcome = .ok results ∧
      InOrder project limit source index (reels.flatMap Reel.film) results := by
  induction h with
  | limit => exact ⟨none, rfl, .limit⟩
  | ended hnext => exact ⟨some [], rfl, .ended hnext⟩
  | failed _ => cases hgood _ List.mem_cons_self
  | @page limit source index met s page now looks closing answers reels outcome hnext hlooks hclose
      _ ih =>
    rw [List.flatMap_cons] at hgood
    obtain ⟨results, rfl, horder⟩ := ih fun e he => hgood e (List.mem_append_right _ he)
    obtain ⟨hlength, hperm⟩ := hclose
    refine ⟨results.map (answers ++ ·), rfl, ?_⟩
    have hpage := InOrder.page hnext hlooks hlength hperm horder
    simpa [Reel.film] using hpage
  | broken _ _ hclose =>
    cases hclose with
    | broken _ hfailed =>
      cases hgood _ (List.mem_append_left _ (List.mem_cons_of_mem _ (List.mem_cons_of_mem _
        (List.mem_append_right _ (List.mem_cons_of_mem _ hfailed)))))

/-! ## Passes to be made -/

/-- A collecting pass to be made. -/
structure Collection (ω π κ α ρ υ : Type) extends PagedEntries π κ α ρ where
  /-- The rule for the number of works to be joined. -/
  rule : Nat → JoinRule
  /-- How many pages may be asked for. -/
  limit : Nat
  callback : Nat → ρ → ω → Deferred ω υ × ω
  world : ω

namespace Collection

variable [Context ω] [PageSource (π × ω) κ (Stamped α)]

/-- What the pass comes to. -/
def result (c : Collection ω π κ α ρ υ) : Result ω (Option (List υ)) :=
  c.toPagedEntries.collectEachBy c.rule c.limit c.callback c.world

/-- What the pass comes to, on film. -/
def filmed (c : Collection ω π κ α ρ υ) : Result (Filmed ω κ α ρ υ) (Option (List υ)) :=
  c.toPagedEntries.collectFilmed c.rule c.limit c.callback c.world

/-- What the pass asks for and does. -/
def film (c : Collection ω π κ α ρ υ) : List (PagedEvent ω κ α ρ υ) := c.filmed.world.film

/-- Without its film, the pass on film is the pass. -/
theorem filmed_world (c : Collection ω π κ α ρ υ) : c.filmed.mapWorld Filmed.world = c.result :=
  PagedEntries.collectFilmed_world _ _ _ _ _

/-- The pass on film is over when the pass is. -/
theorem outcome_filmed (c : Collection ω π κ α ρ υ) : c.filmed.outcome = c.result.outcome := by
  rw [← c.filmed_world, Result.outcome_mapWorld]

/-- A pass that is over by its limit is the same under a higher one. -/
theorem filmed_of_le {c : Collection ω π κ α ρ υ} (h : c.result.outcome ≠ .ok none) {limit : Nat}
    (hle : c.limit ≤ limit) : { c with limit }.filmed = c.filmed :=
  PagedEntries.collectFromBy_of_le hle (c.outcome_filmed.symm ▸ h)

theorem unfolds (c : Collection ω π κ α ρ υ) : c.film = (reelsOf c.film).flatMap Reel.film ∧
    PagedEntries.Unfolds c.project PagedEntries.JoinCloses c.limit c.source 0 (reelsOf c.film)
      c.result.outcome := by
  obtain ⟨reels, hfilm, hreels, hunfolds⟩ := PagedEntries.unfolds_collectFilmed c.rule
    c.toPagedEntries c.limit c.callback c.world
  obtain rfl : reelsOf c.film = reels := hreels
  exact ⟨hfilm, hunfolds⟩

/-- A pass without failures goes in order. -/
theorem inOrder {c : Collection ω π κ α ρ υ} (h : ∀ event ∈ c.film, event.isFailure = false) :
    ∃ results, c.result.outcome = .ok results ∧
      InOrder c.project c.limit c.source 0 c.film results := by
  obtain ⟨hfilm, hunfolds⟩ := c.unfolds
  rw [hfilm] at h ⊢
  exact inOrder_of_unfolds hunfolds h

end Collection

/-! ## Results -/

/-- The entries that the source handed out, each with the time read for its page. -/
def timedEntries : List (PagedEvent ω κ α ρ υ) → List (κ × Stamped α × Timestamp)
  | .requested _ (.ok (some page)) :: .read now :: rest =>
    (page.map fun e => (e.1, e.2, now)) ++ timedEntries rest
  | _ :: rest => timedEntries rest
  | [] => []

/-- What works collect that answer by the item alone, for the live ones of these entries. -/
def answersFor (policy : Policy) (project : κ → Option α → ρ) (f : Nat → ρ → υ) (index : Nat)
    (entries : List (κ × Stamped α × Timestamp)) : List υ :=
  ((entries.filterMap fun e => (check policy (some e.2.1) e.2.2).map (project e.1)).zipIdx
    index).map fun p => f p.2 p.1

/-- A judgement is by that policy, and a work answers as `f` says. -/
def PagedEvent.Steady (policy : Policy) (f : Nat → ρ → υ) : PagedEvent ω κ α ρ υ → Prop
  | judged writtenAt now live => live = policy writtenAt now
  | finished index item outcome => outcome = .ok (f index item)
  | _ => True

instance [DecidableEq υ] (policy : Policy) (f : Nat → ρ → υ) :
    ∀ event : PagedEvent ω κ α ρ υ, Decidable (event.Steady policy f)
  | .judged _ _ _ => inferInstanceAs (Decidable (_ = _))
  | .finished _ _ _ => inferInstanceAs (Decidable (_ = _))
  | .requested _ _ => inferInstanceAs (Decidable True)
  | .read _ => inferInstanceAs (Decidable True)
  | .called _ _ _ => inferInstanceAs (Decidable True)
  | .joining _ => inferInstanceAs (Decidable True)

theorem timedEntries_append_of_uncut {events : List (PagedEvent ω κ α ρ υ)}
    (h : ∀ event ∈ events, event.isRequest = false) (rest : List (PagedEvent ω κ α ρ υ)) :
    timedEntries (events ++ rest) = timedEntries rest := by
  induction events with
  | nil => rfl
  | cons event events ih =>
    have hrest := ih fun e he => h e (List.mem_cons_of_mem _ he)
    match event with
    | .requested _ _ => cases h _ List.mem_cons_self
    | .read _ => exact hrest
    | .judged _ _ _ => exact hrest
    | .called _ _ _ => exact hrest
    | .joining _ => exact hrest
    | .finished _ _ _ => exact hrest

theorem answers_of_completions {policy : Policy} {f : Nat → ρ → υ} {index : Nat} {items : List ρ}
    {answers : List υ} (hlength : answers.length = items.length)
    (h : ∀ event ∈ (completions index items answers : List (PagedEvent ω κ α ρ υ)),
      event.Steady policy f) : answers = (items.zipIdx index).map fun p => f p.2 p.1 := by
  induction items generalizing index answers with
  | nil => exact List.length_eq_zero_iff.mp hlength
  | cons item items ih =>
    obtain ⟨answer, answers, rfl⟩ := List.exists_cons_of_length_eq_add_one hlength
    obtain ⟨hanswer, hothers⟩ := List.forall_mem_cons.mp h
    obtain rfl : answer = f index item := Except.ok.inj hanswer
    rw [List.zipIdx_cons, List.map_cons, ← ih (Nat.succ.inj hlength) hothers]

/-- What a pass in order collects from steady works is a matter of the entries and of the
times read for them. -/
theorem results_of_inOrder [PageSource (π × ω) κ (Stamped α)] {policy : Policy} {f : Nat → ρ → υ}
    {project : κ → Option α → ρ} {limit : Nat} {source : π} {index : Nat}
    {film : List (PagedEvent ω κ α ρ υ)} {results : Option (List υ)}
    (h : InOrder project limit source index film results)
    (hsteady : ∀ event ∈ film, event.Steady policy f) (hover : results ≠ none) :
    results = some (answersFor policy project f index (timedEntries film)) := by
  induction h with
  | limit => exact absurd rfl hover
  | ended _ => rfl
  | @page limit source index met s page now looks finishes film answers results _ hlooks hlength
      hperm _ ih =>
    have hrest : timedEntries (lookFilm project index looks ++
        .joining ((callsIn project looks).map Prod.snd) :: (finishes ++ film)) =
          timedEntries film := by
      rw [← List.cons_append, ← List.append_assoc]
      exact timedEntries_append_of_uncut (PagedEntries.not_request_of_looks
        (PagedEntries.joinCloses_withWork (.joined hlength hperm))) film
    have hjudged : ∀ l ∈ looks, l.turn.JudgedBy policy :=
      judgedBy_of_lookFilm fun {_ _ _} (hmem : _ ∈ lookFilm project index looks) =>
        hsteady _ (List.mem_cons_of_mem _ (List.mem_cons_of_mem _ (List.mem_append_left _ hmem)))
    have hitems : (page.map fun e => (e.1, e.2, now)).filterMap
        (fun e => (check policy (some e.2.1) e.2.2).map (project e.1)) =
          (callsIn project looks).map Prod.fst := by
      rw [map_callsIn, seenIn_eq_liveAmong hlooks hjudged, liveAmong, List.filterMap_map,
        List.map_filterMap]
      refine List.filterMap_congr fun e _ => ?_
      rcases hcheck : check policy (some e.2) now with - | value <;> simp [hcheck]
    have hcompleted : ∀ e ∈ completions index ((callsIn project looks).map Prod.fst) answers,
        PagedEvent.Steady (ω := ω) policy f e := fun e he =>
      hsteady e (List.mem_cons_of_mem _ (List.mem_cons_of_mem _ (List.mem_append_right _
        (List.mem_cons_of_mem _ (List.mem_append_left _ (hperm.mem_iff.mpr he))))))
    have hanswers := answers_of_completions (by rw [List.length_map, hlength]) hcompleted
    have hothers : results = some (answersFor policy project f (index + answers.length)
        (timedEntries film)) :=
      ih (fun e he => hsteady e (List.mem_cons_of_mem _ (List.mem_cons_of_mem _
        (List.mem_append_right _ (List.mem_cons_of_mem _ (List.mem_append_right _ he))))))
        fun hnone => hover (congrArg _ hnone)
    rw [timedEntries, hrest, hothers, answersFor, answersFor, List.filterMap_append, hitems,
      List.zipIdx_append, List.map_append, ← hanswers, List.length_map, ← hlength]
    rfl

namespace Collection

variable [Context ω] [PageSource (π × ω) κ (Stamped α)]

/-- A collecting pass in which no page and no work fails goes in the order of its source, and is
over by its limit if the source ends by then : it has collected all results in that order, and a
higher limit makes no difference. Another one that is over and has handed out the same entries at
the same times has collected the same from steady works, whatever the works wait for, however they
are joined and however the pages are cut. -/
theorem collects_in_order {c : Collection ω π κ α ρ υ}
    (h : ∀ event ∈ c.film, event.isFailure = false) :
    c.filmed.mapWorld Filmed.world = c.result ∧
      (∃ results, c.result.outcome = .ok results ∧
        InOrder c.project c.limit c.source 0 c.film results) ∧
      Limited c.limit c.source (reelsOf c.film) c.result.outcome ∧
      (∀ {I : ω → Prop} {n : Nat}, EndsWithin I n c.source → n ≤ c.limit →
        (∀ s ∈ reelsOf c.film, I s.met) → ∃ results, c.result.outcome = .ok (some results) ∧
          InOrder c.project c.limit c.source 0 c.film (some results)) ∧
      (c.result.outcome ≠ .ok none → ∀ {limit}, c.limit ≤ limit →
        { c with limit }.filmed = c.filmed) ∧
      ∀ {ω' π' : Type} [Context ω'] [PageSource (π' × ω') κ (Stamped α)]
        {c' : Collection ω' π' κ α ρ υ} {policy : Policy} {f : Nat → ρ → υ},
        (∀ event ∈ c'.film, event.isFailure = false) → c'.project = c.project →
        (∀ event ∈ c.film, event.Steady policy f) → (∀ event ∈ c'.film, event.Steady policy f) →
        timedEntries c'.film = timedEntries c.film → c.result.outcome ≠ .ok none →
        c'.result.outcome ≠ .ok none → c'.result.outcome = c.result.outcome := by
  obtain ⟨results, houtcome, horder⟩ := inOrder h
  have hlimited := c.unfolds.2.limited
  refine ⟨c.filmed_world, ⟨results, houtcome, horder⟩, hlimited, fun hends hle hmet => ?_,
    filmed_of_le, ?_⟩
  · have hover := hlimited.returns hends hle hmet
    rw [houtcome] at hover ⊢
    rcases results with - | results
    · exact absurd rfl hover
    · exact ⟨results, rfl, horder⟩
  · intro ω' π' _ _ c' policy f h' hproject hsteady hsteady' htimed hover hover'
    obtain ⟨results', houtcome', horder'⟩ := inOrder h'
    rw [houtcome] at hover ⊢
    rw [houtcome'] at hover' ⊢
    rw [results_of_inOrder horder hsteady fun hnone => hover (congrArg _ hnone),
      results_of_inOrder horder' hsteady' fun hnone => hover' (congrArg _ hnone), htimed, hproject]

/-- Pages of `n` entries from a store with two live ones, whose works wait so often. -/
def patchy (n : Nat) (waits : Nat → Nat) :
    Collection (World Nat Nat) (Memory.Pages Nat) Nat Nat (Nat × Option Nat)
      (Nat × Option Nat) where
  source := { pageSize := .ofNat n }
  project := Prod.mk
  rule := JoinRule.ofCount
  limit := 5
  callback := PagedEntries.handBack fun index _ => waits index
  world := World.patchy

/-- The pages of that store end, since nothing is done to it. -/
theorem endsWithin_patchy (n : Nat) : EndsWithin (fun w : World Nat Nat =>
    w.memory.poisoned = false ∧ w.memory.table = World.patchy.memory.table) 4
      ({ pageSize := .ofNat n } : Memory.Pages Nat) :=
  endsWithin_of_toServe (toServe_fresh World.patchy _ ▸ by decide)

/-- With one page of three, the work for the second item is completed first ; with pages of
one, each is completed on its own page. Both collect the items in the order of the source. -/
theorem collects_in_order_patchy :
    (∃ results, (patchy 3 (2 - ·)).result.outcome = .ok (some results) ∧
        InOrder Prod.mk 5 (patchy 3 (2 - ·)).source 0 (patchy 3 (2 - ·)).film (some results)) ∧
      (patchy 1 fun _ => 0).result.outcome = (patchy 3 (2 - ·)).result.outcome := by
  obtain ⟨-, -, -, hresolves, -, hsame⟩ :=
    collects_in_order (c := patchy 3 (2 - ·)) (by decide +kernel)
  have hover : (patchy 3 (2 - ·)).result.outcome ≠ .ok none := by decide +kernel
  have hover' : (patchy 1 fun _ => 0).result.outcome ≠ .ok none := by decide +kernel
  have hsteady : ∀ event ∈ (patchy 3 (2 - ·)).film,
      event.Steady .writtenEven fun _ item => item := by decide +kernel
  have hsteady' : ∀ event ∈ (patchy 1 fun _ => 0).film,
      event.Steady .writtenEven fun _ item => item := by decide +kernel
  exact ⟨hresolves (endsWithin_patchy 3) (by decide) (by decide +kernel),
    hsame (by decide +kernel) rfl hsteady hsteady' (by decide +kernel) hover hover'⟩

end Collection

end LazyExpiry
