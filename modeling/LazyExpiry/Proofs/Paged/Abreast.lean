import LazyExpiry.Proofs.Paged.Delivered

/-!
# A delivering pass and a collecting pass over one source

Let a delivering and a collecting pass go through one source, at the same readings and
judgements (`Abreast`). As long as no call and no work fails they ask for the same pages and
read the same times, and give the same items in the same order (`Alike`).

When a call fails, the delivering pass gives it up at once, and the collecting pass only when
the works of that page are joined. If these are ready, and the works of the items that both
passes came to fare as the calls did (`Concur`), then the join ends at the same item : it
polls the works in the order of the page, and all before that item succeed
(`GivesPage.closes_alike`).
-/

namespace LazyExpiry

variable {ω σ τ κ α π ρ υ : Type}

/-- What a request or a reading was answered with. -/
def PagedEvent.asked? : PagedEvent ω κ α ρ υ →
    Option (Except StoreError (Option (List (κ × Stamped α))) ⊕ Timestamp)
  | requested _ answer => some (.inl answer)
  | read now => some (.inr now)
  | _ => none

/-! ## Items and their places -/

namespace GivesPage

variable {project : κ → Option α → ρ} {now : Timestamp} {index : Nat}
  {page : List (κ × Stamped α)} {film : List (PagedEvent ω κ α ρ Unit)}
  {outcome : Except StoreError Nat}

theorem asked_eq_nil (h : GivesPage project now index page film outcome) :
    film.filterMap PagedEvent.asked? = [] := by
  induction h with
  | done => rfl
  | @expired _ _ _ t _ _ _ _ _ ih =>
    rw [List.filterMap_append, t.filterMap_judgement fun _ _ _ => rfl, ih, List.append_nil]
  | @given _ _ _ t _ _ _ _ _ _ ih =>
    rw [List.filterMap_append, t.filterMap_judgement fun _ _ _ => rfl, List.nil_append]
    exact ih
  | @broken _ _ _ t _ _ _ _ =>
    rw [List.filterMap_append, t.filterMap_judgement fun _ _ _ => rfl]
    rfl

/-- All calls of a page succeed, or all but the last. -/
theorem finished (h : GivesPage project now index page film outcome) :
    match outcome with
    | .ok index' => index' = index + (film.filterMap PagedEvent.item?).length ∧
        ∀ p ∈ (film.filterMap PagedEvent.item?).zipIdx index, .finished p.2 p.1 (.ok ()) ∈ film
    | .error e => ∃ before p, (film.filterMap PagedEvent.item?).zipIdx index = before ++ [p] ∧
        (∀ q ∈ before, .finished q.2 q.1 (.ok ()) ∈ film) ∧
        .finished p.2 p.1 (.error e) ∈ film := by
  induction h with
  | done => exact ⟨rfl, by simp⟩
  | @expired index e page t film outcome _ _ _ ih =>
    rw [List.filterMap_append, t.items_judgement, List.nil_append]
    rcases outcome with e | index'
    · obtain ⟨before, p, hplaces, hbefore, hlast⟩ := ih
      exact ⟨before, p, hplaces, fun q hq => List.mem_append_right _ (hbefore q hq),
        List.mem_append_right _ hlast⟩
    · exact ⟨ih.1, fun p hp => List.mem_append_right _ (ih.2 p hp)⟩
  | @given index e page t live film outcome _ _ _ ih =>
    have hitems : (t.judgement ++ PagedEvent.called index (project live.1 live.2) 0 ::
        .finished index (project live.1 live.2) (.ok ()) :: film).filterMap PagedEvent.item? =
          project live.1 live.2 :: film.filterMap PagedEvent.item? := by
      rw [List.filterMap_append, t.items_judgement, List.nil_append]
      rfl
    rw [hitems, List.zipIdx_cons]
    rcases outcome with e | index'
    · obtain ⟨before, p, hplaces, hbefore, hlast⟩ := ih
      refine ⟨(project live.1 live.2, index) :: before, p, by rw [hplaces]; rfl,
        List.forall_mem_cons.mpr ⟨by simp, fun q hq => ?_⟩, ?_⟩
      · simp [hbefore q hq]
      · simp [hlast]
    · obtain ⟨hlength, hall⟩ := ih
      refine ⟨by rw [hlength, List.length_cons]; omega,
        List.forall_mem_cons.mpr ⟨by simp, fun p hp => ?_⟩⟩
      simp [hall p hp]
  | @broken index e page t live error _ _ =>
    rw [List.filterMap_append, t.items_judgement, List.nil_append]
    exact ⟨[], (project live.1 live.2, index), rfl, by simp, by simp⟩

end GivesPage

namespace PagedEntries

variable {callback : Nat → ρ → ω → Deferred ω υ × ω} {index : Nat} {calls : List (ρ × Nat)}
  {duties : List (Duty ω ρ υ)} {rule : JoinRule} {r r' : Filmed ω κ α ρ υ} {e : StoreError}

/-- The works that were left are for the items at their places. -/
theorem LeftBy.places_eq (h : LeftBy callback index calls duties) :
    duties.map (fun d => (d.item, d.index)) = (calls.map Prod.fst).zipIdx index := by
  induction h with
  | nil => rfl
  | cons _ ih => rw [List.map_cons, List.map_cons, List.zipIdx_cons, ih]

/-- What a join completes are its works. -/
theorem finished_of_joinAll (rule : JoinRule) (duties : List (Duty ω ρ υ))
    (r : Filmed ω κ α ρ υ) : ∃ finishes,
      (joinAll rule (duties.map Duty.task) r).world.film = r.film ++ finishes ∧
        ∀ event ∈ finishes, ∃ d ∈ duties, ∃ outcome, event = .finished d.index d.item outcome := by
  refine held_joinAll (P := fun r' : Filmed ω κ α ρ υ => ∃ finishes,
    r'.film = r.film ++ finishes ∧
      ∀ event ∈ finishes, ∃ d ∈ duties, ∃ outcome, event = .finished d.index d.item outcome)
    rule _ (fun t ht => ?_) ⟨[], (List.append_nil _).symm, by simp⟩
  obtain ⟨d, hd, rfl⟩ := List.mem_map.mp ht
  rintro r' ⟨finishes, hfilm, hfinishes⟩
  refine ⟨finishes ++ [.finished d.index d.item (d.work.finish r'.world).outcome], ?_,
    List.forall_mem_append.mpr ⟨hfinishes, by simpa using ⟨d, hd, rfl, rfl⟩⟩⟩
  rw [Filmed.ofWork, Result.world_mapWorld, Filmed.film_shoot, hfilm, List.append_assoc]

/-- A round of ready works settles all of them, or ends the join at the first that fails. -/
theorem pollAll_of_ready (rule : JoinRule) (hready : ∀ d ∈ duties, d.work.waits = 0)
    (r : Filmed ω κ α ρ υ) :
    match Task.pollAll rule true (duties.map Duty.task) r with
    | .ok ts _ => (Task.answers? ts).isSome = true
    | .error e r' => ∃ before d after finishes, duties = before ++ d :: after ∧
        r'.film = r.film ++ finishes ∧
        (∀ b ∈ before, ∃ a, .finished b.index b.item (.ok a) ∈ finishes) ∧
        .finished d.index d.item (.error e) ∈ finishes := by
  induction duties generalizing r with
  | nil => rfl
  | cons d duties ih =>
    obtain ⟨hnow, hothers⟩ := List.forall_mem_cons.mp hready
    obtain ⟨index, item, waits, finish⟩ := d
    obtain rfl : waits = 0 := hnow
    rcases hf : finish r.world with ⟨a, w⟩ | ⟨e, w⟩
    · have hpoll : (Duty.task (κ := κ) (α := α) ⟨index, item, 0, finish⟩).poll r =
          (.settled a, r.shoot w (.finished index item (.ok a))) := by
        simp [Duty.task, Filmed.ofWork, Task.poll, Task.ofResult, hf]
      have hrest := ih hothers (r.shoot w (.finished index item (.ok a)))
      simp only [List.map_cons, Task.pollAll, hpoll]
      rcases hp : Task.pollAll rule true (duties.map Duty.task)
        (r.shoot w (.finished index item (.ok a))) with ⟨ts, r'⟩ | ⟨e, r'⟩ <;> rw [hp] at hrest
      · simpa [Task.answers?] using hrest
      · obtain ⟨before, d, after, finishes, rfl, hfilm, hbefore, hlast⟩ := hrest
        refine ⟨⟨index, item, 0, finish⟩ :: before, d, after,
          .finished index item (.ok a) :: finishes, rfl, ?_,
          List.forall_mem_cons.mpr ⟨⟨a, List.mem_cons_self⟩, fun b hb => ?_⟩,
          List.mem_cons_of_mem _ hlast⟩
        · rw [hfilm, Filmed.film_shoot, List.append_assoc]
          rfl
        · obtain ⟨a', ha'⟩ := hbefore b hb
          exact ⟨a', List.mem_cons_of_mem _ ha'⟩
    · have hpoll : (Duty.task (κ := κ) (α := α) ⟨index, item, 0, finish⟩).poll r =
          (.failed e, r.shoot w (.finished index item (.error e))) := by
        simp [Duty.task, Filmed.ofWork, Task.poll, Task.ofResult, hf]
      simp only [List.map_cons, Task.pollAll, hpoll, JoinRule.ends_true, if_true]
      exact ⟨[], _, duties, _, rfl, rfl, by simp, List.mem_singleton_self _⟩

/-- A join of ready works that fails does so at the first work that fails, by any rule. -/
theorem joinAll_of_ready (hready : ∀ d ∈ duties, d.work.waits = 0)
    (h : joinAll rule (duties.map Duty.task) r = .error e r') :
    ∃ before d after finishes, duties = before ++ d :: after ∧ r'.film = r.film ++ finishes ∧
      (∀ b ∈ before, ∃ a, .finished b.index b.item (.ok a) ∈ finishes) ∧
      .finished d.index d.item (.error e) ∈ finishes := by
  have hround := pollAll_of_ready rule hready r
  rcases hs : Task.answers? (duties.map (Duty.task (κ := κ) (α := α))) with - | answers
  · rcases hp : Task.pollAll rule true (duties.map Duty.task) r with ⟨ts, r₁⟩ | ⟨e', r₁⟩ <;>
      rw [hp] at hround
    · obtain ⟨answers, hanswers⟩ := Option.isSome_iff_exists.mp hround
      rw [joinAll_of_round hs hp, joinAll_of_answers hanswers] at h
      cases h
    · rw [joinAll_of_end hs hp, Result.error.injEq] at h
      obtain ⟨rfl, rfl⟩ := h
      exact hround
  · rw [joinAll_of_answers hs] at h
    cases h

/-- What holds of all works that the callback leaves holds of those that it left. -/
theorem LeftBy.forall_work {P : Deferred ω υ → Prop} (h : LeftBy callback index calls duties)
    (hP : ∀ index item w, P (callback index item w).1) : ∀ d ∈ duties, P d.work := by
  induction h with
  | nil => simp
  | cons _ ih => exact List.forall_mem_cons.mpr ⟨hP _ _ _, ih⟩

theorem LeftBy.ready (h : LeftBy callback index calls duties)
    (hready : ∀ call ∈ calls, call.2 = 0) : ∀ d ∈ duties, d.work.waits = 0 := by
  induction h with
  | nil => simp
  | cons _ ih =>
    obtain ⟨hnow, hothers⟩ := List.forall_mem_cons.mp hready
    exact List.forall_mem_cons.mpr ⟨hnow, ih hothers⟩

/-- Works that make no difference to what a map of worlds shows make none when they are joined. -/
theorem view_joinAll {view : ω → σ} {rule : Nat → JoinRule}
    (h : ∀ d ∈ duties, ∀ w, view (d.work.finish w).world = view w) (r : Filmed ω κ α ρ υ) :
    view (Filmed.joinAll rule (duties.map Duty.task) r).world.world = view r.world := by
  refine held_joinAll (P := fun r' : Filmed ω κ α ρ υ => view r'.world = view r.world) _ _
    (fun t ht => ?_) rfl
  obtain ⟨d, hd, rfl⟩ := List.mem_map.mp ht
  intro r' hr'
  rw [Filmed.ofWork, Result.world_mapWorld, Filmed.world_shoot, h d hd, hr']

/-- Works for these items, the first after `index` others, were joined with that outcome : each
succeeded, or one of them failed. -/
def JoinedFor (index : Nat) (items : List ρ) (closing : List (PagedEvent ω κ α ρ υ)) :
    Except StoreError (List υ) → Prop
  | .ok _ => ∀ p ∈ items.zipIdx index, ∃ a, .finished p.2 p.1 (.ok a) ∈ closing
  | .error e => ∃ p ∈ items.zipIdx index, .finished p.2 p.1 (.error e) ∈ closing

/-- If the join failed, all works before the one that failed had succeeded. -/
def JoinedInOrder (index : Nat) (items : List ρ) (closing : List (PagedEvent ω κ α ρ υ)) :
    Except StoreError (List υ) → Prop
  | .ok _ => True
  | .error e => ∃ before p after, items.zipIdx index = before ++ p :: after ∧
      (∀ q ∈ before, ∃ a, .finished q.2 q.1 (.ok a) ∈ closing) ∧
      .finished p.2 p.1 (.error e) ∈ closing

theorem exists_mem_completions {items : List ρ} {answers : List υ}
    (h : answers.length = items.length) : ∀ p ∈ items.zipIdx index, ∃ a,
      (.finished p.2 p.1 (.ok a) : PagedEvent ω κ α ρ υ) ∈ completions index items answers := by
  induction items generalizing index answers with
  | nil => simp
  | cons item items ih =>
    obtain ⟨answer, answers, rfl⟩ := List.exists_cons_of_length_eq_add_one h
    rw [List.zipIdx_cons]
    refine List.forall_mem_cons.mpr ⟨⟨answer, List.mem_cons_self⟩, fun p hp => ?_⟩
    obtain ⟨a, ha⟩ := ih (Nat.succ.inj h) p hp
    exact ⟨a, List.mem_cons_of_mem _ ha⟩

/-- The closing of a page, and what it shows of the works that were left. -/
theorem joinedFor_joinAll [Context ω] (rule : Nat → JoinRule)
    (h : LeftBy callback index calls duties)
    (r : Filmed ω κ α ρ υ) : ∃ closing,
      (Filmed.joinAll rule (duties.map Duty.task) r).world.film = r.film ++ closing ∧
      (∀ event ∈ closing, event.isClosing = true) ∧
      JoinedFor index (calls.map Prod.fst) closing
        (Filmed.joinAll rule (duties.map Duty.task) r).outcome ∧
      ((∀ d ∈ duties, d.work.waits = 0) → JoinedInOrder index (calls.map Prod.fst) closing
        (Filmed.joinAll rule (duties.map Duty.task) r).outcome) ∧
      ∀ {answers}, (Filmed.joinAll rule (duties.map Duty.task) r).outcome = .ok answers →
        answers.length = calls.length := by
  obtain ⟨closing, hfilm, hcloses⟩ := joinsClose_joinCloses rule callback _ _ duties r h
  have hwith := joinCloses_withWork hcloses
  obtain ⟨finishes, hfinishes, hduty⟩ := finished_of_joinAll
    (rule (duties.map (Duty.task (κ := κ) (α := α))).length) duties
    (r.shoot r.world (.joining ((duties.map Duty.task).map Task.waits)))
  obtain rfl : closing = .joining (calls.map Prod.snd) :: finishes := by
    refine List.append_cancel_left (hfilm.symm.trans (hfinishes.trans ?_))
    rw [Filmed.film_shoot, h.left.waits_eq, List.append_assoc, List.singleton_append]
  refine ⟨_, hfilm, hwith, ?_, fun hready => ?_, fun {answers} hanswers => ?_⟩
  · rcases hj : Filmed.joinAll rule (duties.map Duty.task) r with ⟨answers, r'⟩ | ⟨e, r'⟩ <;>
      rw [hj] at hcloses
    · obtain ⟨hlength, hperm⟩ := hcloses
      intro p hp
      obtain ⟨a, ha⟩ := exists_mem_completions (hlength.trans (List.length_map _).symm) p hp
      exact ⟨a, List.mem_cons_of_mem _ (hperm.mem_iff.mpr ha)⟩
    · cases hcloses with
      | broken _ hfailed =>
        obtain ⟨d, hd, outcome, heq⟩ := hduty _ hfailed
        cases heq
        exact ⟨(d.item, d.index), h.places_eq ▸ List.mem_map_of_mem hd,
          List.mem_cons_of_mem _ hfailed⟩
  · rcases hj : Filmed.joinAll rule (duties.map Duty.task) r with ⟨answers, r'⟩ | ⟨e, r'⟩
    · trivial
    · obtain ⟨before, d, after, finishes', rfl, hfilm', hbefore, hlast⟩ :=
        joinAll_of_ready hready hj
      rw [Filmed.joinAll] at hj
      rw [hj] at hfinishes
      obtain rfl : finishes' = finishes := List.append_cancel_left (hfilm'.symm.trans hfinishes)
      refine ⟨before.map fun d => (d.item, d.index), (d.item, d.index),
        after.map fun d => (d.item, d.index), ?_, fun q hq => ?_, List.mem_cons_of_mem _ hlast⟩
      · rw [← h.places_eq, List.map_append, List.map_cons]
      · obtain ⟨b, hb, rfl⟩ := List.mem_map.mp hq
        obtain ⟨a, ha⟩ := hbefore b hb
        exact ⟨a, List.mem_cons_of_mem _ ha⟩
  · rw [hanswers] at hcloses
    cases hcloses with
    | joined hlength _ => exact hlength

end PagedEntries

/-! ## A page on both sides -/

/-- The items of the live entries of a page, and the world after the entries were judged in
order. -/
def itemsOf [Context ω] (project : κ → Option α → ρ) (now : Timestamp) :
    List (κ × Stamped α) → ω → List ρ × ω
  | [], w => ([], w)
  | (key, stored) :: rest, w =>
    let judged := judge (some stored) now w
    match judged.1 with
    | none => itemsOf project now rest (Context.note (.skipping now) judged.2)
    | some value =>
      let others := itemsOf project now rest judged.2
      (project key value :: others.1, others.2)

section Items

variable [Context ω] {project : κ → Option α → ρ} {now : Timestamp} {key : κ} {stored : Stamped α}
  {w w' : ω}

theorem itemsOf_of_expired (h : judge (some stored) now w = (none, w'))
    (rest : List (κ × Stamped α)) : itemsOf project now ((key, stored) :: rest) w =
      itemsOf project now rest (Context.note (.skipping now) w') := by
  simp only [itemsOf, h]

theorem itemsOf_of_live {value : Option α} (h : judge (some stored) now w = (some value, w'))
    (rest : List (κ × Stamped α)) : itemsOf project now ((key, stored) :: rest) w =
      (project key value :: (itemsOf project now rest w').1, (itemsOf project now rest w').2) := by
  simp only [itemsOf, h]

theorem items_judge (stored : Stamped α) (now : Timestamp) (r : Filmed ω κ α ρ υ) (key : κ) :
    (judge (some stored) now r).2.film.filterMap PagedEvent.item? =
      r.film.filterMap PagedEvent.item? := by
  obtain ⟨turn, -, hfilm, -⟩ := judge_filmed key stored now r
  rw [hfilm, List.filterMap_append, turn.items_judgement, List.append_nil]

variable [Context σ]

/-- A collecting pass gives all live items of a page. -/
theorem items_callEach {view : Filmed σ κ α ρ υ → ω} (hv : ContextMirrors view)
    (project : κ → Option α → ρ) (callback : Nat → ρ → σ → Deferred σ υ × σ)
    (hcall : ∀ index item r, view (Filmed.ofCallback callback index item r).2 = view r)
    (now : Timestamp) (page : List (κ × Stamped α)) (index : Nat) (r : Filmed σ κ α ρ υ) :
    (PagedEntries.callEach project (Filmed.ofCallback callback) now index page r).2.film.filterMap
          PagedEvent.item? =
        r.film.filterMap PagedEvent.item? ++ (itemsOf project now page (view r)).1 ∧
      view (PagedEntries.callEach project (Filmed.ofCallback callback) now index page r).2 =
        (itemsOf project now page (view r)).2 := by
  induction page generalizing index r with
  | nil => exact ⟨(List.append_nil _).symm, rfl⟩
  | cons e page ih =>
    obtain ⟨key, stored⟩ := e
    have hview := hv.judge (some stored) now r
    have hitems := items_judge stored now r key
    rcases hjudge : judge (some stored) now r with ⟨- | value, r₁⟩ <;> rw [hjudge] at hview hitems
    · rw [PagedEntries.callEach_of_expired hjudge, itemsOf_of_expired hview, hv.note, ← hitems]
      exact ih index _
    · obtain ⟨hothers, hlast⟩ := ih (index + 1)
        (Filmed.ofCallback callback index (project key value) r₁).2
      rw [PagedEntries.callEach_of_live hjudge, itemsOf_of_live hview]
      rw [hcall] at hothers hlast
      refine ⟨?_, hlast⟩
      rw [hothers, Filmed.ofCallback, Filmed.film_shoot, List.filterMap_append, hitems,
        List.append_assoc]
      rfl

/-- A delivering pass gives a front of these, and all of them if no call fails. -/
theorem items_giveEach {view : Filmed σ κ α ρ Unit → ω} (hv : ContextMirrors view)
    (project : κ → Option α → ρ) (callback : Nat → ρ → Action σ Unit)
    (hcall : ∀ index item r, view (Filmed.ofDelivery callback index item r).world = view r)
    (now : Timestamp) (page : List (κ × Stamped α)) (index : Nat) (r : Filmed σ κ α ρ Unit) :
    ∃ items, (PagedEntries.giveEach project (Filmed.ofDelivery callback) now index page
          r).world.film.filterMap PagedEvent.item? = r.film.filterMap PagedEvent.item? ++ items ∧
      items <+: (itemsOf project now page (view r)).1 ∧
      ∀ {delivered}, (PagedEntries.giveEach project (Filmed.ofDelivery callback) now index page
          r).outcome = .ok delivered → items = (itemsOf project now page (view r)).1 ∧
        view (PagedEntries.giveEach project (Filmed.ofDelivery callback) now index page r).world =
          (itemsOf project now page (view r)).2 := by
  induction page generalizing index r with
  | nil =>
    exact ⟨[], (List.append_nil _).symm, List.prefix_refl _, fun _ => ⟨rfl, rfl⟩⟩
  | cons e page ih =>
    obtain ⟨key, stored⟩ := e
    have hview := hv.judge (some stored) now r
    have hitems := items_judge stored now r key
    rcases hjudge : judge (some stored) now r with ⟨- | value, r₁⟩ <;> rw [hjudge] at hview hitems
    · rw [PagedEntries.giveEach_of_expired hjudge, itemsOf_of_expired hview, hv.note, ← hitems]
      exact ih index _
    · have hkept := hcall index (project key value) r₁
      rw [PagedEntries.giveEach_of_live hjudge, itemsOf_of_live hview, ← hitems]
      rcases hcalled : callback index (project key value) r₁.world with ⟨_, w⟩ | ⟨error, w⟩
      · rw [Filmed.ofDelivery_of_ok hcalled] at hkept ⊢
        obtain ⟨items, hothers, hfront, hall⟩ := ih (index + 1) ⟨w, r₁.film ++
          [.called index (project key value) 0, .finished index (project key value) (.ok ())]⟩
        rw [Result.world_ok] at hkept
        rw [hkept] at hfront hall
        refine ⟨project key value :: items, ?_, (List.prefix_cons_inj _).mpr hfront,
          fun hdone => ?_⟩
        · rw [Result.bind_ok, hothers, List.filterMap_append, List.append_assoc]
          rfl
        · obtain ⟨rfl, hlast⟩ := hall hdone
          exact ⟨rfl, hlast⟩
      · rw [Filmed.ofDelivery_of_error hcalled, Result.bind_error]
        refine ⟨[project key value], ?_, ⟨_, rfl⟩, fun hdone => by cases hdone⟩
        rw [Result.world_error, List.filterMap_append]
        rfl

end Items

/-! ## What became of the same item -/

/-- Two events do not show that different things became of one item. -/
def PagedEvent.Agrees : PagedEvent σ κ α ρ Unit → PagedEvent τ κ α ρ υ → Prop
  | finished index item outcome, finished index' item' outcome' =>
    index' = index → item' = item → outcome'.map (fun _ => ()) = outcome
  | _, _ => True

/-- Where both films show what became of an item, it is the same. -/
def Concur (film : List (PagedEvent σ κ α ρ Unit)) (film' : List (PagedEvent τ κ α ρ υ)) : Prop :=
  ∀ event ∈ film, ∀ event' ∈ film', event.Agrees event'

theorem Concur.mono {film given : List (PagedEvent σ κ α ρ Unit)}
    {film' closing : List (PagedEvent τ κ α ρ υ)} (h : Concur film film') (hsub : given ⊆ film)
    (hsub' : closing ⊆ film') : Concur given closing :=
  fun event hevent event' hevent' => h event (hsub hevent) event' (hsub' hevent')

/-- A call left work that is ready. -/
def PagedEvent.isReady : PagedEvent ω κ α ρ υ → Bool
  | called _ _ waits => waits == 0
  | _ => true

/-- The films concur, and if a call failed, then the works were ready. -/
structure Comparable (film : List (PagedEvent σ κ α ρ Unit))
    (film' : List (PagedEvent τ κ α ρ υ)) : Prop where
  concur : Concur film film'
  ready : (∃ event ∈ film, event.isBroken = true) → ∀ event ∈ film', event.isReady = true

theorem Comparable.mono {film given : List (PagedEvent σ κ α ρ Unit)}
    {film' closing : List (PagedEvent τ κ α ρ υ)} (h : Comparable film film') (hsub : given ⊆ film)
    (hsub' : closing ⊆ film') : Comparable given closing where
  concur := h.concur.mono hsub hsub'
  ready := fun ⟨event, hevent, hbroken⟩ event' hevent' =>
    h.ready ⟨event, hsub hevent, hbroken⟩ event' (hsub' hevent')

/-- Without the request and the reading that they begin with, films are comparable as well. -/
theorem Comparable.tails {request reading : PagedEvent σ κ α ρ Unit}
    {request' reading' : PagedEvent τ κ α ρ υ} {film : List (PagedEvent σ κ α ρ Unit)}
    {film' : List (PagedEvent τ κ α ρ υ)}
    (h : Comparable (request :: reading :: film) (request' :: reading' :: film')) :
    Comparable film film' :=
  h.mono (List.subset_cons_of_subset _ (List.subset_cons_self _ _))
    (List.subset_cons_of_subset _ (List.subset_cons_self _ _))

section Closing

variable {project : κ → Option α → ρ} {now : Timestamp} {index : Nat}
  {page : List (κ × Stamped α)} {given : List (PagedEvent σ κ α ρ Unit)} {items : List ρ}
  {closing : List (PagedEvent τ κ α ρ υ)} {outcome : Except StoreError Nat}
  {outcome' : Except StoreError (List υ)}

/-- The works of a page fare as its calls did. -/
theorem GivesPage.closes_alike (h : GivesPage project now index page given outcome)
    (hfront : given.filterMap PagedEvent.item? <+: items)
    (hall : ∀ {delivered}, outcome = .ok delivered → given.filterMap PagedEvent.item? = items)
    (hjoined : PagedEntries.JoinedFor index items closing outcome')
    (horder : ∀ {e}, outcome = .error e → PagedEntries.JoinedInOrder index items closing outcome')
    (hconcur : Concur given closing) :
    outcome'.map (fun _ => ()) = outcome.map fun _ => () := by
  have same : ∀ {p : ρ × Nat} {o o'}, .finished p.2 p.1 o ∈ given →
      .finished p.2 p.1 o' ∈ closing → o'.map (fun _ => ()) = o := fun ho ho' =>
    hconcur _ ho _ ho' rfl rfl
  have hfinished := h.finished
  rcases outcome with e | delivered
  · obtain ⟨before, p, hplaces, hbefore, hfailed⟩ := hfinished
    obtain ⟨rest, rfl⟩ := hfront
    have hsplit : (given.filterMap PagedEvent.item? ++ rest).zipIdx index =
        before ++ p :: rest.zipIdx (index + (given.filterMap PagedEvent.item?).length) := by
      rw [List.zipIdx_append, hplaces, List.append_assoc, List.singleton_append]
    rcases outcome' with e' | answers
    · obtain ⟨before', p', after', hsplit', hbefore', hfailed'⟩ := horder rfl
      -- the two failures are at one place, since all before either of them succeeded
      rcases List.append_eq_append_iff.mp (hsplit.symm.trans hsplit') with
        ⟨more, rfl, htail⟩ | ⟨more, rfl, htail⟩ <;>
        rcases more with - | ⟨q, more⟩ <;> obtain ⟨rfl, -⟩ := List.cons.inj htail
      · exact same hfailed hfailed'
      · obtain ⟨a, ha⟩ := hbefore' p (by simp)
        cases same hfailed ha
      · exact same hfailed hfailed'
      · cases same (hbefore p' (by simp)) hfailed'
    · obtain ⟨a, ha⟩ := hjoined p (hsplit ▸ by simp)
      cases same hfailed ha
  · obtain rfl := hall rfl
    rcases outcome' with e' | answers
    · obtain ⟨p, hp, hfailed⟩ := hjoined
      cases same (hfinished.2 p hp) hfailed
    · rfl

end Closing

/-! ## Two passes -/

/-- What a delivering and a collecting pass asked for and gave, and what they came to. -/
structure Alike (film : List (PagedEvent σ κ α ρ Unit)) (film' : List (PagedEvent τ κ α ρ υ))
    (outcome : Except StoreError (Option Unit)) (outcome' : Except StoreError (Option (List υ))) :
    Prop where
  /-- The same pages and the same times. -/
  asked_eq : film'.filterMap PagedEvent.asked? = film.filterMap PagedEvent.asked?
  /-- The same end. -/
  outcome_eq : outcome'.map (Option.map fun _ => ()) = outcome
  items_front : film.filterMap PagedEvent.item? <+: film'.filterMap PagedEvent.item?
  items_eq : (∀ event ∈ film, event.isBroken = false) →
    film'.filterMap PagedEvent.item? = film.filterMap PagedEvent.item?

namespace Alike

variable {met : σ} {met' : τ} {page : List (κ × Stamped α)} {now : Timestamp}
  {given rest : List (PagedEvent σ κ α ρ Unit)} {closed rest' : List (PagedEvent τ κ α ρ υ)}
  {outcome : Except StoreError (Option Unit)} {outcome' : Except StoreError (Option (List υ))}

theorem goOn (hasked : given.filterMap PagedEvent.asked? = closed.filterMap PagedEvent.asked?)
    (hitems : given.filterMap PagedEvent.item? = closed.filterMap PagedEvent.item?)
    (h : Alike rest rest' outcome outcome') :
    Alike (.requested met (.ok (some page)) :: .read now :: (given ++ rest))
      (.requested met' (.ok (some page)) :: .read now :: (closed ++ rest')) outcome outcome' where
  asked_eq := by
    simp only [List.filterMap_cons, PagedEvent.asked?, List.filterMap_append, hasked, h.asked_eq]
  outcome_eq := h.outcome_eq
  items_front := by
    simp only [List.filterMap_cons, PagedEvent.item?, List.filterMap_append, hitems]
    exact (List.prefix_append_right_inj _).mpr h.items_front
  items_eq hgood := by
    have hrest := h.items_eq fun event hevent => hgood event (List.mem_cons_of_mem _
      (List.mem_cons_of_mem _ (List.mem_append_right _ hevent)))
    simp only [List.filterMap_cons, PagedEvent.item?, List.filterMap_append, hitems, hrest]

theorem broken {e : StoreError}
    (hasked : given.filterMap PagedEvent.asked? = closed.filterMap PagedEvent.asked?)
    (hitems : given.filterMap PagedEvent.item? <+: closed.filterMap PagedEvent.item?)
    (hbroken : ∃ event ∈ given, event.isBroken = true) :
    Alike (.requested met (.ok (some page)) :: .read now :: given)
      (.requested met' (.ok (some page)) :: .read now :: closed) (.error e) (.error e) where
  asked_eq := by simp only [List.filterMap_cons, PagedEvent.asked?, hasked]
  outcome_eq := rfl
  items_front := hitems
  items_eq hgood := by
    obtain ⟨event, hevent, hbroken⟩ := hbroken
    rw [hgood event (List.mem_cons_of_mem _ (List.mem_cons_of_mem _ hevent))] at hbroken
    cases hbroken

end Alike

theorem waits_of_lookFilm {project : κ → Option α → ρ} {index : Nat} {looks : List (Look κ α)}
    (h : ∀ event ∈ (lookFilm project index looks : List (PagedEvent ω κ α ρ υ)),
      event.isReady = true) : ∀ call ∈ callsIn project looks, call.2 = 0 := by
  induction looks generalizing index with
  | nil => simp [callsIn]
  | cons l looks ih =>
    rcases hfound : l.turn.found? with - | e
    · rw [lookFilm_cons_none hfound] at h
      rw [callsIn_cons_none hfound]
      exact ih (List.forall_mem_append.mp h).2
    · rw [lookFilm_cons_some hfound] at h
      rw [callsIn_cons_some hfound]
      obtain ⟨hready, hothers⟩ := List.forall_mem_cons.mp (List.forall_mem_append.mp h).2
      exact List.forall_mem_cons.mpr ⟨by simpa [PagedEvent.isReady] using hready, ih hothers⟩

theorem asked?_of_isClosing {event : PagedEvent ω κ α ρ υ} (h : event.isClosing = true) :
    event.asked? = none := by
  match event with
  | .joining _ => rfl
  | .finished _ _ _ => rfl

theorem item?_of_isClosing {event : PagedEvent ω κ α ρ υ} (h : event.isClosing = true) :
    event.item? = none := by
  match event with
  | .joining _ => rfl
  | .finished _ _ _ => rfl

theorem asked?_of_lookFilm {project : κ → Option α → ρ} {index : Nat} {looks : List (Look κ α)} :
    (lookFilm project index looks : List (PagedEvent ω κ α ρ υ)).filterMap PagedEvent.asked? =
      [] := by
  refine List.filterMap_eq_nil_iff.mpr fun event hevent => ?_
  rcases mem_lookFilm hevent with ⟨_, _, _, rfl⟩ | ⟨_, _, _, rfl⟩ <;> rfl

/-- Without failures of calls or works, films are comparable. -/
theorem comparable_of_unbroken {film : List (PagedEvent σ κ α ρ Unit)}
    {film' : List (PagedEvent τ κ α ρ υ)} (h : ∀ event ∈ film, event.isBroken = false)
    (h' : ∀ event ∈ film', event.isBroken = false) : Comparable film film' where
  concur event hevent event' hevent' := by
    unfold PagedEvent.Agrees
    split
    · rename_i outcome _ _ outcome'
      have hgood := h _ hevent
      have hgood' := h' _ hevent'
      rcases outcome with e | ⟨⟩
      · cases hgood
      · rcases outcome' with e' | a
        · cases hgood'
        · exact fun _ _ => rfl
    · trivial
  ready := by
    rintro ⟨event, hevent, hbroken⟩
    rw [h event hevent] at hbroken
    cases hbroken

theorem EndsBy.outcome_eq {film : List (PagedEvent σ κ α ρ υ)} {β : Type}
    {outcome : Except StoreError β} (h : EndsBy film outcome) {event : PagedEvent σ κ α ρ υ}
    (hevent : event ∈ film) {e : StoreError} (hfailure : event.failure? = some e) :
    outcome = .error e ∧ film.getLast? = some event := by
  rcases outcome with e' | a
  · obtain ⟨past, failure, rfl, hlast, hpast⟩ := h
    rcases List.mem_append.mp hevent with hevent | hevent
    · rw [hpast event hevent] at hfailure
      cases hfailure
    · obtain rfl := List.mem_singleton.mp hevent
      rw [hfailure, Option.some.injEq] at hlast
      exact ⟨by rw [hlast], by simp⟩
  · rw [h event hevent] at hfailure
    cases hfailure

section Passes

variable [Context ω] [PageSource (π × ω) κ (Stamped α)] [Context σ]
  [PageSource (π × σ) κ (Stamped α)] [Context τ] [PageSource (π × τ) κ (Stamped α)]
  {view : σ → ω} {view' : τ → ω} {d : Delivery σ π κ α ρ} {c : Collection τ π κ α ρ υ}

/-- A delivering and a collecting pass go through one source. The views show as much of their
worlds as the source, the clock and the policy depend on, and no call or work makes a difference
to that. -/
structure Abreast (view : σ → ω) (view' : τ → ω) (d : Delivery σ π κ α ρ)
    (c : Collection τ π κ α ρ υ) : Prop where
  mirrors : PagedMirrors π view
  mirrors' : PagedMirrors π view'
  given : ∀ index item w, view (d.callback index item w).world = view w
  called : ∀ index item w, view' (c.callback index item w).2 = view' w
  finished : ∀ index item w w', view' ((c.callback index item w).1.finish w').world = view' w'
  start : view' c.world = view d.world
  pass_eq : c.toPagedEntries = d.toPagedEntries
  limit_eq : c.limit = d.limit

/-- What a map of worlds shows, it shows of worlds on film. -/
theorem ContextMirrors.filmed (hv : ContextMirrors view) :
    ContextMirrors fun r : Filmed σ κ α ρ υ => view r.world where
  now r := hv.now r.world
  isLive writtenAt now r := hv.isLive writtenAt now r.world
  note event r := hv.note event r.world

namespace Abreast

/-- Both ask for the same page. -/
theorem nextPage_eq (h : Abreast view view' d c) (source : π) {w : σ} {w' : τ}
    (hstart : view' w' = view w) :
    match PageSource.nextPage (source, w) with
    | .ok answer s => ∃ s', PageSource.nextPage (source, w') = .ok answer s' ∧ s'.1 = s.1 ∧
        view' s'.2 = view s.2
    | .error e s => ∃ s', PageSource.nextPage (source, w') = .error e s' ∧ s'.1 = s.1 ∧
        view' s'.2 = view s.2 := by
  have hnext := h.mirrors'.nextPage source w'
  rw [hstart, h.mirrors.nextPage] at hnext
  rcases hn : PageSource.nextPage (source, w) with ⟨answer, s⟩ | ⟨e, s⟩ <;> rw [hn] at hnext
  · obtain ⟨s', hs', heq⟩ := Result.mapWorld_eq_ok_iff.mp hnext.symm
    exact ⟨s', hs', congrArg Prod.fst heq, congrArg Prod.snd heq⟩
  · obtain ⟨s', hs', heq⟩ := Result.mapWorld_eq_error_iff.mp hnext.symm
    exact ⟨s', hs', congrArg Prod.fst heq, congrArg Prod.snd heq⟩

/-- A page on both films : what is given, what is left to be joined, and how that is closed. -/
theorem page_alike (h : Abreast view view' d c) (now : Timestamp) (page : List (κ × Stamped α))
    (index : Nat) {r : Filmed σ κ α ρ Unit} {r' : Filmed τ κ α ρ υ}
    (hstart : view' r'.world = view r.world) :
    let delivered := PagedEntries.giveEach d.project (Filmed.ofDelivery d.callback) now index page r
    let called := PagedEntries.callEach d.project (Filmed.ofCallback c.callback) now index page r'
    let collected := Filmed.joinAll c.rule called.1 called.2
    ∃ given film', delivered.world.film = r.film ++ given ∧
      collected.world.film = r'.film ++ film' ∧
      given.filterMap PagedEvent.asked? = film'.filterMap PagedEvent.asked? ∧
      given.filterMap PagedEvent.item? <+: film'.filterMap PagedEvent.item? ∧
      (∀ {e}, delivered.outcome = .error e → ∃ event ∈ given, event.isBroken = true) ∧
      (Comparable given film' →
        collected.outcome.map (fun _ => ()) = delivered.outcome.map fun _ => ()) ∧
      ∀ {index' answers}, delivered.outcome = .ok index' → collected.outcome = .ok answers →
        given.filterMap PagedEvent.item? = film'.filterMap PagedEvent.item? ∧
        index' = index + answers.length ∧
        view' collected.world.world = view delivered.world.world := by
  intro delivered called collected
  obtain ⟨given, hgiven, hpage⟩ := givesPage_giveEach d.project d.callback now page index r
  obtain ⟨items, hitems, hfront, hall⟩ := items_giveEach h.mirrors.toContextMirrors.filmed
    d.project d.callback (fun index item r => by
      rw [Filmed.ofDelivery, Result.world_mapWorld]
      exact h.given index item r.world) now page index r
  obtain ⟨looks, duties, -, hcalled, hleft, htasks⟩ :=
    PagedEntries.film_callEach d.project c.callback now page index r'
  obtain ⟨hitems', hlooked⟩ := items_callEach h.mirrors'.toContextMirrors.filmed d.project
    c.callback (fun index item r => h.called index item r.world) now page index r'
  obtain ⟨closing, hclosing, hwith, hjoined, horder, hlength⟩ :=
    PagedEntries.joinedFor_joinAll c.rule hleft called.2
  rw [← htasks] at hclosing hjoined horder hlength
  -- both come to the same items, those of the live entries as they are judged
  obtain rfl : given.filterMap PagedEvent.item? = items := by
    rw [hgiven, List.filterMap_append] at hitems
    exact List.append_cancel_left hitems
  have hcalls : (callsIn d.project looks).map Prod.fst =
      (itemsOf d.project now page (view r.world)).1 := by
    rw [hcalled, List.filterMap_append, items_lookFilm, hstart] at hitems'
    exact List.append_cancel_left hitems'
  rw [hcalls] at hjoined horder
  have hasked : closing.filterMap PagedEvent.asked? = [] := List.filterMap_eq_nil_iff.mpr
    fun event hevent => asked?_of_isClosing (hwith event hevent)
  have hnone : closing.filterMap PagedEvent.item? = [] := List.filterMap_eq_nil_iff.mpr
    fun event hevent => item?_of_isClosing (hwith event hevent)
  have hfilm' : (lookFilm d.project index looks ++ closing).filterMap PagedEvent.item? =
      (itemsOf d.project now page (view r.world)).1 := by
    rw [List.filterMap_append, items_lookFilm, hnone, List.append_nil, hcalls]
  have hbroken : ∀ {e}, delivered.outcome = .error e → ∃ event ∈ given, event.isBroken = true :=
    fun hfailed => (hfailed ▸ hpage : GivesPage d.project now index page given _).exists_isBroken
  refine ⟨given, lookFilm d.project index looks ++ closing, hgiven, ?_, ?_, hfilm' ▸ hfront,
    hbroken, fun hcomparable => ?_, ?_⟩
  · rw [hclosing, hcalled, List.append_assoc]
  · rw [List.filterMap_append, asked?_of_lookFilm, hasked, hpage.asked_eq_nil, List.append_nil]
  · refine hpage.closes_alike hfront (fun hdone => (hall hdone).1) hjoined (fun {e} hfailed => ?_)
      (hcomparable.concur.mono (List.Subset.refl _) (List.subset_append_right _ _))
    exact horder (hleft.ready (waits_of_lookFilm
      (List.forall_mem_append.mp (hcomparable.ready (hbroken hfailed))).1))
  · intro index' answers hdelivered hcollected
    obtain ⟨hsame, hview⟩ := hall hdelivered
    rw [hdelivered] at hpage
    refine ⟨hsame.trans hfilm'.symm, ?_, ?_⟩
    · rw [hpage.finished.1, hsame, hlength hcollected, ← hcalls, List.length_map]
    · have hjoin : view' (Filmed.joinAll c.rule (duties.map PagedEntries.Duty.task)
          called.2).world.world = view' called.2.world :=
        PagedEntries.view_joinAll (hleft.forall_work
          (P := fun work => ∀ w, view' (work.finish w).world = view' w) h.finished) called.2
      rw [← htasks] at hjoin
      rw [hjoin, hlooked, hview, hstart]

/-- From worlds that show the same, both passes go on alike. -/
theorem alike_from (h : Abreast view view' d c) (limit pages : Nat) (results : List υ) (source : π)
    {r : Filmed σ κ α ρ Unit} {r' : Filmed τ κ α ρ υ} (hstart : view' r'.world = view r.world) :
    let delivered := PagedEntries.deliverFrom d.project (Filmed.ofDelivery d.callback) limit pages
      results.length source r
    let collected := PagedEntries.collectFromBy (Filmed.joinAll c.rule) d.project
      (Filmed.ofCallback c.callback) limit pages results source r'
    ∃ film film', delivered.world.film = r.film ++ film ∧ collected.world.film = r'.film ++ film' ∧
      (Comparable film film' → Alike film film' delivered.outcome collected.outcome) := by
  induction limit generalizing pages results source r r' with
  | zero => exact ⟨[], [], (List.append_nil _).symm, (List.append_nil _).symm, fun _ =>
      ⟨rfl, rfl, List.prefix_refl _, fun _ => rfl⟩⟩
  | succ limit ih =>
    have hnext := h.nextPage_eq source hstart
    simp only [PagedEntries.deliverFrom, PagedEntries.collectFromBy, Filmed.nextPage_eq]
    rcases hn : PageSource.nextPage (source, r.world) with ⟨- | page, s⟩ | ⟨e, s⟩ <;>
      rw [hn] at hnext <;> obtain ⟨s', hn', hsource, hview⟩ := hnext
    · rw [hn']
      exact ⟨_, _, rfl, rfl, fun _ => ⟨rfl, rfl, List.prefix_refl _, fun _ => rfl⟩⟩
    · rw [hn']
      simp only [Result.mapWorld_ok, Result.outcome_ok, Filmed.now_eq, Filmed.world_shoot]
      have hnow := h.mirrors'.now s'.2
      rw [hview, h.mirrors.now s.2, Prod.mk.injEq] at hnow
      obtain ⟨htime, hread⟩ := hnow
      rw [← htime, hsource]
      generalize (Context.now s.2).1 = now at *
      generalize hbegun : (r.shoot s.2 (.requested r.world (.ok (some page)))).shoot
        (Context.now s.2).2 (.read now) = r₁
      generalize hbegun' : (r'.shoot s'.2 (.requested r'.world (.ok (some page)))).shoot
        (Context.now s'.2).2 (.read now) = r₁'
      have hstart₁ : view' r₁'.world = view r₁.world := by
        rw [← hbegun, ← hbegun']
        exact hread.symm
      obtain ⟨given, closed, hgiven, hclosed, hasked, hfront, hbroken, hends, hgoOn⟩ :=
        h.page_alike now page results.length hstart₁
      have hfilm : r₁.film ++ given =
          r.film ++ .requested r.world (.ok (some page)) :: .read now :: given := by
        rw [← hbegun]
        simp
      have hfilm' : r₁'.film ++ closed =
          r'.film ++ .requested r'.world (.ok (some page)) :: .read now :: closed := by
        rw [← hbegun']
        simp
      rw [hfilm] at hgiven
      rw [hfilm'] at hclosed
      generalize PagedEntries.giveEach d.project (Filmed.ofDelivery d.callback) now results.length
        page r₁ = delivered at *
      generalize Filmed.joinAll c.rule _ _ = collected at *
      -- comparable passes break off a page together or not at all
      rcases delivered with ⟨delivered', r₂⟩ | ⟨e, r₂⟩ <;>
        rcases collected with ⟨answers, r₂'⟩ | ⟨e', r₂'⟩
      · obtain ⟨hitems, rfl, hview₂⟩ := hgoOn rfl rfl
        obtain ⟨rest, rest', hrest, hrest', hothers⟩ :=
          ih (pages + 1) (results ++ answers) s.1 hview₂
        rw [List.length_append] at hrest hothers
        refine ⟨_, _, hrest.trans (by rw [hgiven, List.append_assoc]),
          hrest'.trans (by rw [hclosed, List.append_assoc]), fun hcomparable => ?_⟩
        have hrests := hcomparable.tails.mono (List.subset_append_right _ _)
          (List.subset_append_right _ _)
        exact (hothers hrests).goOn hasked hitems
      · obtain ⟨rest, hrest, -⟩ := delivers_deliverFrom d.project d.callback limit (pages + 1)
          delivered' s.1 r₂
        rw [Result.world_ok] at hgiven
        refine ⟨_, _, hrest.trans (by rw [hgiven, List.append_assoc]), hclosed,
          fun hcomparable => ?_⟩
        cases hends (hcomparable.tails.mono (List.subset_append_left _ _) (List.Subset.refl _))
      · obtain ⟨reels, outcome, -, hrest', -⟩ := PagedEntries.collects_collectFromBy
          (PagedEntries.joinsClose_joinCloses c.rule c.callback) d.project limit (pages + 1)
          (results ++ answers) s.1 r₂'
        rw [Result.world_ok] at hclosed
        refine ⟨_, _, hgiven, hrest'.trans (by rw [hclosed, List.append_assoc]),
          fun hcomparable => ?_⟩
        cases hends (hcomparable.tails.mono (List.Subset.refl _) (List.subset_append_left _ _))
      · refine ⟨_, _, hgiven, hclosed, fun hcomparable => ?_⟩
        cases hends hcomparable.tails
        exact .broken hasked hfront (hbroken rfl)
    · rw [hn']
      exact ⟨_, _, rfl, rfl, fun _ => ⟨rfl, rfl, List.prefix_refl _, fun _ => rfl⟩⟩

theorem alike (h : Abreast view view' d c) (hfilm : Comparable d.film c.film) :
    Alike d.film c.film d.result.outcome c.result.outcome := by
  have hstart : view' ({ world := c.world } : Filmed τ κ α ρ υ).world =
      view ({ world := d.world } : Filmed σ κ α ρ Unit).world := h.start
  obtain ⟨film, film', hd, hc, halike⟩ := h.alike_from d.limit 0 [] d.source hstart
  have hc_filmed : c.filmed = PagedEntries.collectFromBy (Filmed.joinAll c.rule) d.project
      (Filmed.ofCallback c.callback) d.limit 0 [] d.source { world := c.world } := by
    rw [Collection.filmed, PagedEntries.collectFilmed, h.pass_eq, h.limit_eq]
  rw [List.nil_append] at hd hc
  rw [← hc_filmed] at hc halike
  obtain rfl : d.film = film := hd
  obtain rfl : c.film = film' := hc
  rw [← c.outcome_filmed, ← d.outcome_filmed]
  exact halike hfilm

end Abreast

/-- A delivering pass reads the clock once for every page, gives what is live of it in order, one
item at a time, and comes to its first failure, after which nothing more is done. If its source
ends by its limit, then it is over by then, with success if and only if nothing has failed. A
collecting pass abreast of it asks for the same, gives the same and comes to the same end, as long
as no call and no work fails. If a call fails, so does the collecting pass on that page, in the same
way, provided that its works are ready and fare as the calls did : but by then it has given the
rest of the page too. -/
theorem Delivery.delivers_as_collected (d : Delivery σ π κ α ρ) :
    d.filmed.mapWorld Filmed.world = d.result ∧
      Delivers d.project d.limit d.source 0 d.film d.result.outcome ∧
      EndsBy d.film d.result.outcome ∧
      (d.result.outcome = .ok (some ()) ↔
        d.film.any PagedEvent.isEnd = true ∧ ∀ event ∈ d.film, event.failure? = none) ∧
      Limited d.limit d.source (reelsOf d.film) d.result.outcome ∧
      (∀ {I : σ → Prop} {n : Nat}, EndsWithin I n d.source → n ≤ d.limit →
        (∀ s ∈ reelsOf d.film, I s.met) →
        (d.result.outcome = .ok (some ()) ↔ ∀ event ∈ d.film, event.failure? = none)) ∧
      (d.result.outcome ≠ .ok none → ∀ {limit}, d.limit ≤ limit →
        { d with limit }.filmed = d.filmed) ∧
      (∀ {policy}, (∀ event ∈ d.film, event.JudgedBy policy) →
        d.film.filterMap PagedEvent.item? <+: shownItems policy d.project d.film ∧
          ((∀ event ∈ d.film, event.isBroken = false) →
            d.film.filterMap PagedEvent.item? = shownItems policy d.project d.film)) ∧
      ∀ {ω τ υ : Type} [Context ω] [PageSource (π × ω) κ (Stamped α)] [Context τ]
        [PageSource (π × τ) κ (Stamped α)] {view : σ → ω} {view' : τ → ω}
        {c : Collection τ π κ α ρ υ}, Abreast view view' d c →
        Limited c.limit c.source (reelsOf c.film) c.result.outcome ∧
        ((∀ event ∈ d.film, event.isBroken = false) → (∀ event ∈ c.film, event.isBroken = false) →
          c.film.filterMap PagedEvent.asked? = d.film.filterMap PagedEvent.asked? ∧
            c.film.filterMap PagedEvent.item? = d.film.filterMap PagedEvent.item? ∧
            c.result.outcome.map (Option.map fun _ => ()) = d.result.outcome) ∧
        ∀ {index item e}, .finished index item (.error e) ∈ d.film →
          (∀ event ∈ c.film, event.isReady = true) → Concur d.film c.film →
          d.film.getLast? = some (.finished index item (.error e)) ∧
            d.result.outcome = .error e ∧ c.result.outcome = .error e ∧
            c.film.filterMap PagedEvent.asked? = d.film.filterMap PagedEvent.asked? ∧
            d.film.filterMap PagedEvent.item? <+: c.film.filterMap PagedEvent.item? ∧
            PagedEntries.Collects c.project PagedEntries.JoinCloses c.limit c.source 0
              (reelsOf c.film) c.result.outcome := by
  have hends := d.delivers.endsBy
  refine ⟨d.filmed_world, d.delivers, hends, d.delivers.outcome_eq_ok_iff, d.delivers.limited,
    fun hsource hle hmet => ?_, d.filmed_of_le, d.delivers.items_of_judgedBy, ?_⟩
  · have hover := d.delivers.limited.returns hsource hle hmet
    rw [← hends.exists_ok_iff]
    refine ⟨fun hok => ⟨_, hok⟩, ?_⟩
    rintro ⟨- | ⟨⟩, hok⟩
    · exact absurd hok hover
    · exact hok
  intro ω τ υ _ _ _ _ view view' c habreast
  refine ⟨c.unfolds.2.limited, fun hd hc => ?_, fun {index item e} hfailed hready hconcur => ?_⟩
  · have halike := habreast.alike (comparable_of_unbroken hd hc)
    exact ⟨halike.asked_eq, halike.items_eq hd, halike.outcome_eq⟩
  · have halike := habreast.alike ⟨hconcur, fun _ => hready⟩
    obtain ⟨houtcome, hlast⟩ := hends.outcome_eq hfailed rfl
    have hc : c.result.outcome = .error e := by
      have hend := halike.outcome_eq
      rw [houtcome] at hend
      rcases hcollected : c.result.outcome with e' | a <;> rw [hcollected] at hend <;> cases hend
      rfl
    obtain ⟨reels, -, hreels, hcollects⟩ := PagedEntries.collects_collectFilmed
      PagedEntries.joinCloses_withWork (PagedEntries.joinsClose_joinCloses c.rule c.callback)
      c.toPagedEntries c.limit c.world
    exact ⟨hlast, houtcome, hc, halike.asked_eq, halike.items_front, hreels ▸ hcollects⟩

end Passes

/-! A pass whose callback gives up at its first item. -/

/-- Beside any other state, a world answers as it does alone. -/
theorem pagedMirrors_snd {γ : Type} [Context ω] [PageSource (π × ω) κ (Stamped α)] :
    PagedMirrors π (Prod.snd : γ × ω → ω) where
  nextPage source w := by
    change PageSource.nextPage (source, w.2) =
      ((PageSource.nextPage (source, w.2)).mapWorld _).mapWorld _
    rcases PageSource.nextPage (source, w.2) with _ | _ <;> rfl
  now _ := rfl
  isLive _ _ _ := rfl
  note _ _ := rfl

instance [DecidableEq ρ] : ∀ (event : PagedEvent σ κ α ρ Unit) (event' : PagedEvent τ κ α ρ υ),
    Decidable (event.Agrees event')
  | .finished _ _ _, .finished _ _ _ => inferInstanceAs (Decidable (_ → _ → _))
  | .finished _ _ _, .requested _ _ => inferInstanceAs (Decidable True)
  | .finished _ _ _, .read _ => inferInstanceAs (Decidable True)
  | .finished _ _ _, .judged _ _ _ => inferInstanceAs (Decidable True)
  | .finished _ _ _, .called _ _ _ => inferInstanceAs (Decidable True)
  | .finished _ _ _, .joining _ => inferInstanceAs (Decidable True)
  | .requested _ _, _ => inferInstanceAs (Decidable True)
  | .read _, _ => inferInstanceAs (Decidable True)
  | .judged _ _ _, _ => inferInstanceAs (Decidable True)
  | .called _ _ _, _ => inferInstanceAs (Decidable True)
  | .joining _, _ => inferInstanceAs (Decidable True)

/-- Keeps every item but the first, at which it fails. -/
def balk (index : Nat) (item : Nat × Option Nat) :
    Action (List (Nat × Option Nat) × World Nat Nat) Unit := fun s =>
  if index = 0 then .error (.callback (toString item.1)) s else PagedEntries.record index item s

/-- A pass that gives the items to it. -/
def balking : Delivery (List (Nat × Option Nat) × World Nat Nat) (Memory.Pages Nat) Nat Nat
    (Nat × Option Nat) where
  source := { pageSize := .ofNat 3 }
  project := Prod.mk
  limit := 5
  callback := balk
  world := ([], World.patchy)

/-- A pass whose works do so. -/
def balkingLater : Collection (List (Nat × Option Nat) × World Nat Nat) (Memory.Pages Nat) Nat Nat
    (Nat × Option Nat) Unit where
  toPagedEntries := balking.toPagedEntries
  rule := JoinRule.ofCount
  limit := 5
  callback index item s := ({ finish := balk index item }, s)
  world := ([], World.patchy)

theorem view_balk (index : Nat) (item : Nat × Option Nat)
    (s : List (Nat × Option Nat) × World Nat Nat) : (balk index item s).world.2 = s.2 := by
  unfold balk
  split <;> rfl

theorem abreast_balking : Abreast Prod.snd Prod.snd balking balkingLater where
  mirrors := pagedMirrors_snd
  mirrors' := pagedMirrors_snd
  given := view_balk
  called _ _ _ := rfl
  finished index item _ := view_balk index item
  start := rfl
  pass_eq := rfl
  limit_eq := rfl

/-- Both passes fail as the callback does at the first item. It is the only one that the one pass
gives, and the other gives both items of the page. -/
theorem Delivery.delivers_as_collected_balking :
    balking.result.outcome = .error (.callback "2") ∧
      balkingLater.result.outcome = .error (.callback "2") ∧
      balking.film.filterMap PagedEvent.item? = [(2, none)] ∧
      balkingLater.film.filterMap PagedEvent.item? = [(2, none), (3, some 30)] := by
  obtain ⟨-, -, -, -, -, -, -, -, habreast⟩ := Delivery.delivers_as_collected balking
  have hfailed : .finished 0 (2, none) (.error (.callback "2")) ∈ balking.film :=
    List.mem_of_getLast? rfl
  obtain ⟨-, houtcome, houtcome', -⟩ := (habreast abreast_balking).2.2 hfailed
    (by decide +kernel) (by unfold Concur; decide +kernel)
  exact ⟨houtcome, houtcome', by decide +kernel, by decide +kernel⟩

end LazyExpiry
