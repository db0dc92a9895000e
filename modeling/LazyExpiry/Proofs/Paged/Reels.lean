import LazyExpiry.Proofs.Paged.Joined
import LazyExpiry.Proofs.Pass.Turns
import LazyExpiry.Proofs.Views.Walk

/-!
# The reels of a paged pass

A film of a paged pass is cut where the source is asked for a page (`reelsOf`). A reel with
a page begins with one reading of the clock. Then come the looks at the entries of the page,
each with the judgement of a value and, if the entry is live, with the call for its item
(`lookFilm`), and at last the completion of the works, if there are any.

Both passes unfold in this way, reel by reel (`Unfolds`), and differ in how a reel closes :
`JoinCloses` for a pass that collects (`unfolds_collectFilmed`), and `NothingCloses` for one
that delivers (`unfolds_deliverFilmed`). A pass that collects looks at all of a page before the
page closes (`Collects`), by whatever is known of its joins (`collects_collectFilmed`).
-/

namespace LazyExpiry

variable {ω κ α π ρ υ : Type}

/-! ## Reels -/

/-- What went on from one request for a page to the next. -/
structure Reel (ω κ α ρ υ : Type) where
  /-- The world in which the source was asked. -/
  met : ω
  answer : Except StoreError (Option (List (κ × Stamped α)))
  /-- What followed. -/
  events : List (PagedEvent ω κ α ρ υ)

/-- A request for a page. -/
def PagedEvent.isRequest : PagedEvent ω κ α ρ υ → Bool
  | requested .. => true
  | _ => false

/-- A reel on film. -/
def Reel.film (s : Reel ω κ α ρ υ) : List (PagedEvent ω κ α ρ υ) :=
  .requested s.met s.answer :: s.events

/-- A film, cut at the requests. -/
def reelsOf : List (PagedEvent ω κ α ρ υ) → List (Reel ω κ α ρ υ)
  | [] => []
  | .requested met answer :: rest =>
    ⟨met, answer, rest.takeWhile fun e => !e.isRequest⟩ :: reelsOf rest
  | _ :: rest => reelsOf rest

/-- Within a reel there is no further request. -/
def Reel.Uncut (s : Reel ω κ α ρ υ) : Prop := ∀ event ∈ s.events, event.isRequest = false

theorem reelsOf_append_of_uncut {events : List (PagedEvent ω κ α ρ υ)}
    (h : ∀ event ∈ events, event.isRequest = false) (rest : List (PagedEvent ω κ α ρ υ)) :
    reelsOf (events ++ rest) = reelsOf rest := by
  induction events with
  | nil => rfl
  | cons event events ih =>
    have hrest := ih fun e he => h e (List.mem_cons_of_mem _ he)
    match event with
    | .requested _ _ => cases h _ List.mem_cons_self
    | .read _ => exact hrest
    | .judged _ _ _ => exact hrest
    | .called _ _ _ => exact hrest
    | .joining _ => exact hrest
    | .finished _ _ _ => exact hrest

/-- A film made of reels is cut into these reels. -/
theorem reelsOf_film {reels : List (Reel ω κ α ρ υ)} (h : ∀ s ∈ reels, s.Uncut) :
    reelsOf (reels.flatMap Reel.film) = reels := by
  induction reels with
  | nil => rfl
  | cons s reels ih =>
    have huncut : ∀ event ∈ s.events, event.isRequest = false := h s List.mem_cons_self
    have hcut : (s.events ++ reels.flatMap Reel.film).takeWhile (fun e => !e.isRequest) =
        s.events := by
      rw [List.takeWhile_append_of_pos fun e he => by simp [huncut e he]]
      rcases reels with - | ⟨s', reels⟩
      · simp
      · rw [List.flatMap_cons, Reel.film, List.cons_append, List.takeWhile_cons_of_neg (by
          simp [PagedEvent.isRequest]), List.append_nil]
    rw [List.flatMap_cons, Reel.film, List.cons_append, reelsOf, hcut,
      reelsOf_append_of_uncut huncut, ih fun s' hs' => h s' (List.mem_cons_of_mem _ hs')]

/-! ## Looks at entries -/

/-- A look at an entry of a page, and how often the work waits that was left for it. -/
structure Look (κ α : Type) where
  turn : Turn κ α
  waits : Nat := 0

/-- The judgement in a look. A null is not judged. -/
def Turn.judgement : Turn κ α → List (PagedEvent ω κ α ρ υ)
  | value _ _ writtenAt now live => [.judged writtenAt now live]
  | _ => []

/-- The looks are at these entries, at that time. -/
def LooksAt (now : Timestamp) (entries : List (κ × Stamped α)) (looks : List (Look κ α)) : Prop :=
  looks.map (·.turn.entry?) = entries.map fun e => some (e.1, e.2, now)

theorem LooksAt.cons {now : Timestamp} {e : κ × Stamped α} {entries : List (κ × Stamped α)}
    {l : Look κ α} {looks : List (Look κ α)} (hl : l.turn.entry? = some (e.1, e.2, now))
    (h : LooksAt now entries looks) : LooksAt now (e :: entries) (l :: looks) :=
  congr (congrArg List.cons hl) h

/-- The live entries that were seen. -/
def seenIn (looks : List (Look κ α)) : List (κ × Option α) := looks.filterMap (·.turn.found?)

/-- The items that the callback was given, each with how often the work for it waits. -/
def callsIn (project : κ → Option α → ρ) (looks : List (Look κ α)) : List (ρ × Nat) :=
  looks.filterMap fun l => l.turn.found?.map fun e => (project e.1 e.2, l.waits)

/-- Looks on film, of which the first call comes after `index` others. -/
def lookFilm (project : κ → Option α → ρ) :
    Nat → List (Look κ α) → List (PagedEvent ω κ α ρ υ)
  | _, [] => []
  | index, l :: looks =>
    l.turn.judgement ++
      match l.turn.found? with
      | none => lookFilm project index looks
      | some e => .called index (project e.1 e.2) l.waits :: lookFilm project (index + 1) looks

section Looks

variable {project : κ → Option α → ρ} {now : Timestamp} {l : Look κ α} {e : κ × Option α}

theorem lookFilm_cons_none (h : l.turn.found? = none) (index : Nat) (looks : List (Look κ α)) :
    (lookFilm project index (l :: looks) : List (PagedEvent ω κ α ρ υ)) =
      l.turn.judgement ++ lookFilm project index looks := by
  rw [lookFilm, h]

theorem lookFilm_cons_some (h : l.turn.found? = some e) (index : Nat) (looks : List (Look κ α)) :
    (lookFilm project index (l :: looks) : List (PagedEvent ω κ α ρ υ)) =
      l.turn.judgement ++
        .called index (project e.1 e.2) l.waits :: lookFilm project (index + 1) looks := by
  rw [lookFilm, h]

theorem callsIn_cons_none (h : l.turn.found? = none) (looks : List (Look κ α)) :
    callsIn project (l :: looks) = callsIn project looks :=
  List.filterMap_cons_none (by rw [h]; rfl)

theorem callsIn_cons_some (h : l.turn.found? = some e) (looks : List (Look κ α)) :
    callsIn project (l :: looks) = (project e.1 e.2, l.waits) :: callsIn project looks :=
  List.filterMap_cons_some (by rw [h]; rfl)

theorem map_callsIn (looks : List (Look κ α)) :
    (callsIn project looks).map Prod.fst = (seenIn looks).map fun e => project e.1 e.2 := by
  rw [callsIn, seenIn, List.map_filterMap, List.map_filterMap]
  refine List.filterMap_congr fun l _ => ?_
  rcases l.turn.found? with - | e <;> rfl

/-- If values are judged by `policy`, then the live entries are seen. -/
theorem seenIn_eq_liveAmong {policy : Policy} {entries : List (κ × Stamped α)}
    {looks : List (Look κ α)} (h : LooksAt now entries looks)
    (hjudged : ∀ l ∈ looks, l.turn.JudgedBy policy) :
    seenIn looks = liveAmong policy now entries := by
  let shown (e? : Option (κ × Stamped α × Timestamp)) : Option (κ × Option α) :=
    e?.bind fun e => (check policy (some e.2.1) e.2.2).map (e.1, ·)
  have hfound : ∀ l ∈ looks, l.turn.found? = shown l.turn.entry? := fun l hl =>
    Turn.found?_eq_check (hjudged l hl)
  calc seenIn looks
      = looks.filterMap fun l => shown l.turn.entry? := List.filterMap_congr hfound
    _ = (looks.map (·.turn.entry?)).filterMap shown := by
      rw [List.filterMap_map]
      rfl
    _ = (entries.map fun e => some (e.1, e.2, now)).filterMap shown := by rw [h]
    _ = liveAmong policy now entries := by
      rw [List.filterMap_map]
      rfl

theorem judgement_mem_lookFilm {looks : List (Look κ α)} (hl : l ∈ looks)
    {event : PagedEvent ω κ α ρ υ} (h : event ∈ l.turn.judgement) (index : Nat) :
    event ∈ lookFilm project index looks := by
  induction looks generalizing index with
  | nil => cases hl
  | cons l' looks ih =>
    rcases List.mem_cons.mp hl with rfl | hl
    · exact List.mem_append_left _ h
    · rcases hfound : l'.turn.found? with - | e
      · rw [lookFilm_cons_none hfound]
        exact List.mem_append_right _ (ih hl index)
      · rw [lookFilm_cons_some hfound]
        exact List.mem_append_right _ (List.mem_cons_of_mem _ (ih hl (index + 1)))

/-- Looks are by a policy if the film shows that policy's judgements only. -/
theorem judgedBy_of_lookFilm {policy : Policy} {looks : List (Look κ α)} {index : Nat}
    (h : ∀ {writtenAt now live}, (.judged writtenAt now live : PagedEvent ω κ α ρ υ) ∈
      lookFilm project index looks → live = policy writtenAt now) :
    ∀ l ∈ looks, l.turn.JudgedBy policy := by
  intro l hl
  match ht : l.turn with
  | .value key v writtenAt now live =>
    exact h (judgement_mem_lookFilm hl (ht ▸ List.mem_singleton_self _) index)
  | .null _ _ _ => trivial
  | .ended => trivial
  | .failed _ => trivial

/-- Looks are filmed as judgements and calls. -/
theorem mem_lookFilm {event : PagedEvent ω κ α ρ υ} {index : Nat} {looks : List (Look κ α)}
    (h : event ∈ lookFilm project index looks) :
    (∃ writtenAt now live, event = .judged writtenAt now live) ∨
      ∃ index item waits, event = .called index item waits := by
  induction looks generalizing index with
  | nil => cases h
  | cons l looks ih =>
    have judged : event ∈ l.turn.judgement → ∃ writtenAt now live,
        event = .judged writtenAt now live := by
      intro hjudged
      match hl : l.turn with
      | .value _ _ _ _ _ =>
        rw [hl] at hjudged
        exact ⟨_, _, _, List.mem_singleton.mp hjudged⟩
      | .null _ _ _ => simp [hl, Turn.judgement] at hjudged
      | .ended => simp [hl, Turn.judgement] at hjudged
      | .failed _ => simp [hl, Turn.judgement] at hjudged
    rcases hfound : l.turn.found? with - | e
    · rw [lookFilm_cons_none hfound, List.mem_append] at h
      exact h.elim (fun h => .inl (judged h)) ih
    · rw [lookFilm_cons_some hfound, List.mem_append, List.mem_cons] at h
      rcases h with h | rfl | h
      · exact .inl (judged h)
      · exact .inr ⟨_, _, _, rfl⟩
      · exact ih h

/-- Looks are on the film of their reel. -/
theorem mem_film_of_looks {met : ω} {answer : Except StoreError (Option (List (κ × Stamped α)))}
    {index : Nat} {looks : List (Look κ α)} {closing : List (PagedEvent ω κ α ρ υ)}
    {event : PagedEvent ω κ α ρ υ} (h : event ∈ lookFilm project index looks) : event ∈
      Reel.film ⟨met, answer, .read now :: (lookFilm project index looks ++ closing)⟩ :=
  List.mem_cons_of_mem _ (List.mem_cons_of_mem _ (List.mem_append_left _ h))

/-- Judging an entry on film comes to a turn at that entry. -/
theorem judge_filmed [Context ω] (key : κ) (stored : Stamped α) (now : Timestamp)
    (r : Filmed ω κ α ρ υ) : ∃ turn : Turn κ α, turn.entry? = some (key, stored, now) ∧
      (judge (some stored) now r).2.film = r.film ++ turn.judgement ∧
      turn.found? = (judge (some stored) now r).1.map (key, ·) := by
  rcases stored with ⟨- | v, writtenAt⟩
  · exact ⟨.null key writtenAt now, rfl, by simp [judge, Turn.judgement], rfl⟩
  · refine ⟨.value key v writtenAt now (Context.isLive writtenAt now r.world).1, rfl, rfl, ?_⟩
    simp only [judge, Context.isLive]
    rcases (Context.isLive writtenAt now r.world).1 <;> rfl

end Looks

namespace PagedEntries

/-- The tasks are the works that these calls left, the first after `index` others, and none
has been polled. -/
structure Left (index : Nat) (calls : List (ρ × Nat)) (ts : List (Task (Filmed ω κ α ρ υ) υ)) :
    Prop where
  workOn : Task.WorkOn index (calls.map Prod.fst) ts
  waits_eq : ts.map Task.waits = calls.map Prod.snd
  done_eq : Task.doneFrom index (calls.map Prod.fst) ts = []

/-- Work that was left for an item which came after `index` others. -/
structure Duty (ω ρ υ : Type) where
  index : Nat
  item : ρ
  work : Deferred ω υ

/-- The work as a task whose completion is filmed. -/
def Duty.task (d : Duty ω ρ υ) : Task (Filmed ω κ α ρ υ) υ :=
  .waiting (Filmed.ofWork d.index d.item d.work)

/-- The works that the callback left at these calls, the first after `index` others. -/
inductive LeftBy (callback : Nat → ρ → ω → Deferred ω υ × ω) :
    Nat → List (ρ × Nat) → List (Duty ω ρ υ) → Prop where
  | nil {index : Nat} : LeftBy callback index [] []
  | cons {index : Nat} {item : ρ} {met : ω} {calls : List (ρ × Nat)} {duties : List (Duty ω ρ υ)} :
    LeftBy callback (index + 1) calls duties →
    LeftBy callback index ((item, (callback index item met).1.waits) :: calls)
      (⟨index, item, (callback index item met).1⟩ :: duties)

variable {project : κ → Option α → ρ} {callback : Nat → ρ → ω → Deferred ω υ × ω}
  {index : Nat} {calls : List (ρ × Nat)} {duties : List (Duty ω ρ υ)}

theorem LeftBy.left (h : LeftBy callback index calls duties) :
    Left (κ := κ) (α := α) index calls (duties.map Duty.task) := by
  induction h with
  | nil => exact ⟨.nil, rfl, rfl⟩
  | cons _ ih => exact ⟨.cons ⟨_, rfl⟩ ih.workOn, congrArg (_ :: ·) ih.waits_eq, ih.done_eq⟩

theorem LeftBy.length_eq (h : LeftBy callback index calls duties) :
    duties.length = calls.length := by
  induction h with
  | nil => rfl
  | cons _ ih => rw [List.length_cons, List.length_cons, ih]

section Calls

variable [Context ω]

/-- The calls for a page on film. -/
theorem film_callEach (project : κ → Option α → ρ)
    (callback : Nat → ρ → ω → Deferred ω υ × ω) (now : Timestamp)
    (page : List (κ × Stamped α)) (index : Nat) (r : Filmed ω κ α ρ υ) :
    ∃ looks duties, LooksAt now page looks ∧
      (callEach project (Filmed.ofCallback callback) now index page r).2.film =
        r.film ++ lookFilm project index looks ∧
      LeftBy callback index (callsIn project looks) duties ∧
      (callEach project (Filmed.ofCallback callback) now index page r).1 =
        duties.map Duty.task := by
  induction page generalizing index r with
  | nil => exact ⟨[], [], rfl, by simp [callEach, lookFilm], .nil, rfl⟩
  | cons e page ih =>
    obtain ⟨key, stored⟩ := e
    obtain ⟨turn, hentry, hfilm, hfound⟩ := judge_filmed key stored now r
    rcases hjudge : judge (some stored) now r with ⟨- | value, r₁⟩ <;> rw [hjudge] at hfilm hfound
    · obtain ⟨looks, duties, hlooks, hfilm', hleft, htasks⟩ :=
        ih index (Context.note (.skipping now) r₁)
      refine ⟨⟨turn, 0⟩ :: looks, duties, hlooks.cons hentry, ?_, ?_, ?_⟩
      · rw [callEach_of_expired hjudge, lookFilm_cons_none hfound, ← List.append_assoc, ← hfilm]
        exact hfilm'
      · rwa [callsIn_cons_none hfound]
      · rw [callEach_of_expired hjudge, htasks]
    · obtain ⟨looks, duties, hlooks, hfilm', hleft, htasks⟩ := ih (index + 1)
        (Filmed.ofCallback callback index (project key value) r₁).2
      refine ⟨⟨turn, (callback index (project key value) r₁.world).1.waits⟩ :: looks,
        ⟨index, project key value, (callback index (project key value) r₁.world).1⟩ :: duties,
        hlooks.cons hentry, ?_, ?_, ?_⟩
      · rw [callEach_of_live hjudge, lookFilm_cons_some hfound, ← List.append_assoc, ← hfilm,
          List.append_cons]
        exact hfilm'
      · rw [callsIn_cons_some hfound]
        exact .cons hleft
      · rw [callEach_of_live hjudge, htasks]
        rfl

/-- The items of a page, given on film. A failure comes before the end of the page. -/
theorem film_giveEach (project : κ → Option α → ρ) (callback : Nat → ρ → Action ω Unit)
    (now : Timestamp) (page : List (κ × Stamped α)) (index : Nat) (r : Filmed ω κ α ρ υ) :
    ∃ seen unseen looks, page = seen ++ unseen ∧ LooksAt now seen looks ∧
      (giveEach project (Filmed.ofReceiver callback) now index page r).world.film =
        r.film ++ lookFilm project index looks ∧
      ∀ {delivered r'}, giveEach project (Filmed.ofReceiver callback) now index page r =
        .ok delivered r' → unseen = [] ∧ delivered = index + (callsIn project looks).length := by
  induction page generalizing index r with
  | nil =>
    refine ⟨[], [], [], rfl, rfl, by simp [giveEach, lookFilm], ?_⟩
    rintro delivered r' ⟨⟩
    exact ⟨rfl, rfl⟩
  | cons e page ih =>
    obtain ⟨key, stored⟩ := e
    obtain ⟨turn, hentry, hfilm, hfound⟩ := judge_filmed key stored now r
    rcases hjudge : judge (some stored) now r with ⟨- | value, r₁⟩ <;> rw [hjudge] at hfilm hfound
    · obtain ⟨seen, unseen, looks, rfl, hlooks, hfilm', hend⟩ :=
        ih index (Context.note (.skipping now) r₁)
      refine ⟨(key, stored) :: seen, unseen, ⟨turn, 0⟩ :: looks, rfl, hlooks.cons hentry,
        ?_, ?_⟩ <;>
        rw [giveEach_of_expired hjudge]
      · rw [lookFilm_cons_none hfound, ← List.append_assoc, ← hfilm]
        exact hfilm'
      · rwa [callsIn_cons_none hfound]
    · have hcalled : (Filmed.ofReceiver callback index (project key value) r₁).world.film =
          r.film ++ turn.judgement ++ [.called index (project key value) 0] := by
        rw [Filmed.ofReceiver, Result.world_mapWorld, Filmed.film_shoot, hfilm]
      rcases hgiven : Filmed.ofReceiver callback index (project key value) r₁ with
        ⟨_, r₂⟩ | ⟨e, r₂⟩ <;> rw [hgiven] at hcalled
      · obtain ⟨seen, unseen, looks, rfl, hlooks, hfilm', hend⟩ := ih (index + 1) r₂
        refine ⟨(key, stored) :: seen, unseen, ⟨turn, 0⟩ :: looks, rfl, hlooks.cons hentry,
          ?_, ?_⟩ <;>
          rw [giveEach_of_live hjudge, hgiven, Result.bind_ok]
        · rw [lookFilm_cons_some hfound, ← List.append_assoc, List.append_cons, ← hcalled]
          exact hfilm'
        · intro delivered r' hdone
          obtain ⟨hall, hdelivered⟩ := hend hdone
          refine ⟨hall, ?_⟩
          rw [callsIn_cons_some hfound, List.length_cons, hdelivered]
          omega
      · refine ⟨[(key, stored)], page, [⟨turn, 0⟩], rfl, .cons hentry rfl, ?_, ?_⟩ <;>
          rw [giveEach_of_live hjudge, hgiven, Result.bind_error]
        · rw [lookFilm_cons_some hfound, lookFilm, ← List.append_assoc, ← hcalled]
          rfl
        · intro _ _ hdone
          cases hdone

end Calls

/-! ## Passes, reel by reel -/

/-- How the reel of a page closes, given its calls and how many items came before : with
answers for these calls, or with the failure that ends the pass. -/
abbrev Closing (ω κ α ρ υ : Type) :=
  Nat → List (ρ × Nat) → List (PagedEvent ω κ α ρ υ) → Except StoreError (List υ) → Prop

/-- The works of a page are joined. None of them has been polled before, and if the join comes
to its answers, each has been completed once. If it fails, then by the failure of a work. -/
inductive JoinCloses : Closing ω κ α ρ υ where
  | joined {index : Nat} {calls : List (ρ × Nat)} {finishes : List (PagedEvent ω κ α ρ υ)}
    {answers : List υ} : answers.length = calls.length →
    finishes.Perm (completions index (calls.map Prod.fst) answers) →
    JoinCloses index calls (.joining (calls.map Prod.snd) :: finishes) (.ok answers)
  | broken {index : Nat} {calls : List (ρ × Nat)} {finishes : List (PagedEvent ω κ α ρ υ)}
    {e : StoreError} {failing : Nat} {item : ρ} :
    (∀ event ∈ finishes, event.isFinished = true) →
    .finished failing item (.error e) ∈ finishes →
    JoinCloses index calls (.joining (calls.map Prod.snd) :: finishes) (.error e)

/-- Nothing more is done for a page. -/
inductive NothingCloses : Closing ω κ α ρ Unit where
  | given {index : Nat} {calls : List (ρ × Nat)} {answers : List Unit} :
    answers.length = calls.length → NothingCloses index calls [] (.ok answers)
  | broken {index : Nat} {calls : List (ρ × Nat)} {e : StoreError} :
    NothingCloses index calls [] (.error e)

/-- A reel closes with the works of its page and nothing else. -/
def ClosesWithWork (Closes : Closing ω κ α ρ υ) : Prop :=
  ∀ {index calls closing outcome}, Closes index calls closing outcome →
    ∀ event ∈ closing, event.isClosing = true

/-- After a page there is no request before it has been closed. -/
theorem not_request_of_looks {index : Nat} {looks : List (Look κ α)}
    {closing : List (PagedEvent ω κ α ρ υ)}
    (hclosing : ∀ event ∈ closing, event.isClosing = true) :
    ∀ event ∈ lookFilm project index looks ++ closing, event.isRequest = false := by
  intro event hevent
  rcases List.mem_append.mp hevent with hevent | hevent
  · rcases mem_lookFilm hevent with ⟨_, _, _, rfl⟩ | ⟨_, _, _, rfl⟩ <;> rfl
  · match event, hclosing event hevent with
    | .joining _, _ => rfl
    | .finished _ _ _, _ => rfl

theorem joinCloses_withWork : ClosesWithWork (JoinCloses : Closing ω κ α ρ υ) := by
  intro index calls closing outcome h event hevent
  cases h with
  | joined _ hperm =>
    rcases List.mem_cons.mp hevent with rfl | hevent
    · rfl
    · obtain ⟨_, _, _, rfl⟩ := mem_completions (hperm.mem_iff.mp hevent)
      rfl
  | broken hfinished _ =>
    rcases List.mem_cons.mp hevent with rfl | hevent
    · rfl
    · exact PagedEvent.isClosing_of_isFinished (hfinished event hevent)

theorem nothingCloses_withWork : ClosesWithWork (NothingCloses : Closing ω κ α ρ Unit) := by
  intro index calls closing outcome h event hevent
  cases h <;> cases hevent

variable [PageSource (π × ω) κ (Stamped α)]

/-- How a pass unfolds that may ask a source for `limit` pages, after `index` items, and what it
comes to from there. -/
inductive Unfolds (project : κ → Option α → ρ) (Closes : Closing ω κ α ρ υ) :
    Nat → π → Nat → List (Reel ω κ α ρ υ) → Except StoreError (Option (List υ)) → Prop where
  /-- No further page may be asked for. -/
  | limit {source : π} {index : Nat} : Unfolds project Closes 0 source index [] (.ok none)
  | ended {limit : Nat} {source : π} {index : Nat} {met : ω} {s : π × ω} :
    PageSource.nextPage (source, met) = .ok none s →
    Unfolds project Closes (limit + 1) source index [⟨met, .ok none, []⟩] (.ok (some []))
  | failed {limit : Nat} {source : π} {index : Nat} {met : ω} {s : π × ω} {e : StoreError} :
    PageSource.nextPage (source, met) = .error e s →
    Unfolds project Closes (limit + 1) source index [⟨met, .error e, []⟩] (.error e)
  | page {limit : Nat} {source : π} {index : Nat} {met : ω} {s : π × ω}
    {page : List (κ × Stamped α)} {now : Timestamp} {looks : List (Look κ α)}
    {closing : List (PagedEvent ω κ α ρ υ)} {answers : List υ} {reels : List (Reel ω κ α ρ υ)}
    {outcome : Except StoreError (Option (List υ))} :
    PageSource.nextPage (source, met) = .ok (some page) s → LooksAt now page looks →
    Closes index (callsIn project looks) closing (.ok answers) →
    Unfolds project Closes limit s.1 (index + answers.length) reels outcome →
    Unfolds project Closes (limit + 1) source index
      (⟨met, .ok (some page), .read now :: (lookFilm project index looks ++ closing)⟩ :: reels)
      (outcome.map (Option.map (answers ++ ·)))
  /-- The callback or the join of a page failed. -/
  | broken {limit : Nat} {source : π} {index : Nat} {met : ω} {s : π × ω}
    {seen unseen : List (κ × Stamped α)} {now : Timestamp} {looks : List (Look κ α)}
    {closing : List (PagedEvent ω κ α ρ υ)} {e : StoreError} :
    PageSource.nextPage (source, met) = .ok (some (seen ++ unseen)) s → LooksAt now seen looks →
    Closes index (callsIn project looks) closing (.error e) →
    Unfolds project Closes (limit + 1) source index
      [⟨met, .ok (some (seen ++ unseen)),
        .read now :: (lookFilm project index looks ++ closing)⟩] (.error e)

theorem Unfolds.uncut {Closes : Closing ω κ α ρ υ} (hclose : ClosesWithWork Closes) {limit : Nat}
    {source : π} {index : Nat} {reels : List (Reel ω κ α ρ υ)}
    {outcome : Except StoreError (Option (List υ))}
    (h : Unfolds project Closes limit source index reels outcome) : ∀ s ∈ reels, s.Uncut := by
  have uncut : ∀ {met page index} {now : Timestamp} {looks : List (Look κ α)} {closing},
      (∀ event ∈ closing, event.isClosing = true) → Reel.Uncut
        (⟨met, .ok (some page), .read now :: (lookFilm project index looks ++ closing)⟩ :
          Reel ω κ α ρ υ) :=
    fun hclosing => List.forall_mem_cons.mpr ⟨rfl, not_request_of_looks hclosing⟩
  induction h with
  | limit => simp
  | ended _ => simp [Reel.Uncut]
  | failed _ => simp [Reel.Uncut]
  | page _ _ hc _ ih => exact List.forall_mem_cons.mpr ⟨uncut (hclose hc), ih⟩
  | broken _ _ hc => exact List.forall_mem_cons.mpr ⟨uncut (hclose hc), by simp⟩

/-- How a collecting pass goes on that may ask a source for `limit` pages, after `index` items, and
what it comes to from there. All live items of a page are given to the callback before the page
closes. -/
inductive Collects (project : κ → Option α → ρ) (Closes : Closing ω κ α ρ υ) :
    Nat → π → Nat → List (Reel ω κ α ρ υ) → Except StoreError (Option (List υ)) → Prop where
  /-- No further page may be asked for. -/
  | limit {source : π} {index : Nat} : Collects project Closes 0 source index [] (.ok none)
  | ended {limit : Nat} {source : π} {index : Nat} {met : ω} {s : π × ω} :
    PageSource.nextPage (source, met) = .ok none s →
    Collects project Closes (limit + 1) source index [⟨met, .ok none, []⟩] (.ok (some []))
  | failed {limit : Nat} {source : π} {index : Nat} {met : ω} {s : π × ω} {e : StoreError} :
    PageSource.nextPage (source, met) = .error e s →
    Collects project Closes (limit + 1) source index [⟨met, .error e, []⟩] (.error e)
  | page {limit : Nat} {source : π} {index : Nat} {met : ω} {s : π × ω}
    {page : List (κ × Stamped α)} {now : Timestamp} {looks : List (Look κ α)}
    {closing : List (PagedEvent ω κ α ρ υ)} {answers : List υ} {reels : List (Reel ω κ α ρ υ)}
    {outcome : Except StoreError (Option (List υ))} :
    PageSource.nextPage (source, met) = .ok (some page) s → LooksAt now page looks →
    Closes index (callsIn project looks) closing (.ok answers) →
    Collects project Closes limit s.1 (index + answers.length) reels outcome →
    Collects project Closes (limit + 1) source index
      (⟨met, .ok (some page), .read now :: (lookFilm project index looks ++ closing)⟩ :: reels)
      (outcome.map (Option.map (answers ++ ·)))
  /-- The join of a page failed. -/
  | broken {limit : Nat} {source : π} {index : Nat} {met : ω} {s : π × ω}
    {page : List (κ × Stamped α)} {now : Timestamp} {looks : List (Look κ α)}
    {closing : List (PagedEvent ω κ α ρ υ)} {e : StoreError} :
    PageSource.nextPage (source, met) = .ok (some page) s → LooksAt now page looks →
    Closes index (callsIn project looks) closing (.error e) →
    Collects project Closes (limit + 1) source index
      [⟨met, .ok (some page), .read now :: (lookFilm project index looks ++ closing)⟩] (.error e)

theorem Collects.unfolds {Closes : Closing ω κ α ρ υ} {limit : Nat} {source : π}
    {reels : List (Reel ω κ α ρ υ)} {outcome : Except StoreError (Option (List υ))}
    (h : Collects project Closes limit source index reels outcome) :
    Unfolds project Closes limit source index reels outcome := by
  induction h with
  | limit => exact .limit
  | ended hn => exact .ended hn
  | failed hn => exact .failed hn
  | page hn hlooks hclose _ ih => exact .page hn hlooks hclose ih
  | @broken _ _ _ _ _ page _ _ _ _ hn hlooks hclose =>
    rw [← List.append_nil page] at hn ⊢
    exact .broken hn hlooks hclose

variable [Context ω] {rule : Nat → JoinRule}

/-- Joins by that rule, of works that the callback left, close a page. -/
def JoinsClose (rule : Nat → JoinRule) (callback : Nat → ρ → ω → Deferred ω υ × ω)
    (Closes : Closing ω κ α ρ υ) : Prop :=
  ∀ (index : Nat) (calls : List (ρ × Nat)) (duties : List (Duty ω ρ υ)) (r : Filmed ω κ α ρ υ),
    LeftBy callback index calls duties → ∃ closing,
      (Filmed.joinAll rule (duties.map Duty.task) r).world.film = r.film ++ closing ∧
      Closes index calls closing (Filmed.joinAll rule (duties.map Duty.task) r).outcome

omit [Context ω] in
/-- A page closes when its works are joined, by any rule. -/
theorem joinsClose_joinCloses (rule : Nat → JoinRule)
    (callback : Nat → ρ → ω → Deferred ω υ × ω) :
    JoinsClose rule callback (JoinCloses : Closing ω κ α ρ υ) := by
  intro index calls duties r hduties
  have hleft : Left (κ := κ) (α := α) index calls (duties.map Duty.task) := hduties.left
  rcases hj : Filmed.joinAll rule (duties.map Duty.task) r with ⟨answers, r'⟩ | ⟨e, r'⟩
  · obtain ⟨hlength, finishes, hfilm, hperm⟩ := Task.completed_of_joinAll hleft.workOn hj
    rw [hleft.done_eq, List.nil_append] at hperm
    rw [List.length_map] at hlength
    refine ⟨_, ?_, .joined hlength hperm.symm⟩
    rw [Result.world_ok, hfilm, Filmed.film_shoot, hleft.waits_eq, List.append_assoc,
      List.singleton_append]
  · obtain ⟨finishes, hfilm, hfinished, failing, item, hfailed⟩ :=
      Task.failed_of_joinAll hleft.workOn hj
    rw [hleft.done_eq, List.nil_append] at hfailed
    refine ⟨_, ?_, .broken hfinished hfailed⟩
    rw [Result.world_error, hfilm, Filmed.film_shoot, hleft.waits_eq, List.append_assoc,
      List.singleton_append]

/-- A collecting pass on film goes on page by page. -/
theorem collects_collectFromBy {Closes : Closing ω κ α ρ υ}
    (hclose : JoinsClose rule callback Closes) (project : κ → Option α → ρ) (limit pages : Nat)
    (results : List υ) (source : π) (r : Filmed ω κ α ρ υ) :
    ∃ reels outcome, Collects project Closes limit source results.length reels outcome ∧
      (collectFromBy (Filmed.joinAll rule) project (Filmed.ofCallback callback) limit pages results
        source r).world.film = r.film ++ reels.flatMap Reel.film ∧
      (collectFromBy (Filmed.joinAll rule) project (Filmed.ofCallback callback) limit pages results
        source r).outcome = outcome.map (Option.map (results ++ ·)) := by
  induction limit generalizing pages results source r with
  | zero => exact ⟨[], .ok none, .limit, by simp [collectFromBy], rfl⟩
  | succ limit ih =>
    rw [collectFromBy, Filmed.nextPage_eq]
    rcases hn : PageSource.nextPage (source, r.world) with ⟨- | page, s⟩ | ⟨e, s⟩
    · refine ⟨_, _, .ended hn, rfl, ?_⟩
      simp [Except.map]
    · simp only [Result.mapWorld_ok, Result.outcome_ok, Filmed.now_eq, Filmed.world_shoot]
      generalize hbegun : (r.shoot s.2 (.requested r.world (.ok (some page)))).shoot
        (Context.now s.2).2 (.read (Context.now s.2).1) = r₁
      obtain ⟨looks, duties, hlooks, hcalled, hleft, htasks⟩ := film_callEach project callback
        (Context.now s.2).1 page results.length r₁
      generalize callEach project (Filmed.ofCallback callback) (Context.now s.2).1 results.length
        page r₁ = called at hcalled htasks
      obtain ⟨closing, hfilm, hclosed⟩ := hclose _ _ _ called.2 hleft
      rw [htasks]
      -- the film at the end of the join
      have hpage : (Filmed.joinAll rule (duties.map Duty.task) called.2).world.film =
          r.film ++ Reel.film ⟨r.world, .ok (some page), .read (Context.now s.2).1 ::
            (lookFilm project results.length looks ++ closing)⟩ := by
        rw [hfilm, hcalled, ← hbegun]
        simp [Reel.film]
      rcases hj : Filmed.joinAll rule (duties.map Duty.task) called.2 with
        ⟨answers, r'⟩ | ⟨e, r'⟩ <;> rw [hj] at hpage hclosed
      · obtain ⟨reels, outcome, hcollects, hrest, houtcome⟩ :=
          ih (pages + 1) (results ++ answers) s.1 r'
        rw [List.length_append] at hcollects
        refine ⟨_, _, .page hn hlooks hclosed hcollects, ?_, ?_⟩
        · rw [Result.bind_ok, hrest, ← Result.world_ok answers r', hpage, List.append_assoc,
            List.flatMap_cons]
        · rw [Result.bind_ok, houtcome]
          rcases outcome with e | - | others <;> simp [Except.map]
      · refine ⟨_, _, .broken hn hlooks hclosed, ?_, rfl⟩
        rw [Result.bind_error, Result.world_error, ← Result.world_error (α := List υ) e r', hpage,
          List.flatMap_singleton]
    · exact ⟨_, _, .failed hn, rfl, rfl⟩

/-- The film of a collecting pass is what the pass comes to, page by page. -/
theorem collects_collectFilmed {Closes : Closing ω κ α ρ υ} (hwith : ClosesWithWork Closes)
    (hclose : JoinsClose rule callback Closes) (it : PagedEntries π κ α ρ) (limit : Nat) (w : ω) :
    ∃ reels, (it.collectFilmed rule limit callback w).world.film = reels.flatMap Reel.film ∧
      reelsOf (it.collectFilmed rule limit callback w).world.film = reels ∧
      Collects it.project Closes limit it.source 0 reels
        (it.collectEachBy rule limit callback w).outcome := by
  obtain ⟨reels, outcome, hcollects, hfilm, houtcome⟩ := collects_collectFromBy hclose
    it.project limit 0 [] it.source { world := w }
  have hreels : (it.collectFilmed rule limit callback w).world.film = reels.flatMap Reel.film :=
    hfilm
  refine ⟨reels, hreels, hreels ▸ reelsOf_film (hcollects.unfolds.uncut hwith), ?_⟩
  rw [← collectFilmed_world, Result.outcome_mapWorld, collectFilmed, houtcome]
  rcases outcome with e | - | answers <;> exact hcollects

/-- A delivering pass on film unfolds. -/
theorem unfolds_deliverFrom (project : κ → Option α → ρ)
    (callback : Nat → ρ → Action ω Unit) (limit pages delivered : Nat)
    (source : π) (r : Filmed ω κ α ρ Unit) :
    ∃ reels outcome, Unfolds project NothingCloses limit source delivered reels outcome ∧
      (deliverFrom project (Filmed.ofReceiver callback) limit pages delivered source
        r).world.film = r.film ++ reels.flatMap Reel.film ∧
      (deliverFrom project (Filmed.ofReceiver callback) limit pages delivered source r).outcome =
        outcome.map (Option.map fun _ => ()) := by
  induction limit generalizing pages delivered source r with
  | zero => exact ⟨[], .ok none, .limit, by simp [deliverFrom], rfl⟩
  | succ limit ih =>
    rw [deliverFrom, Filmed.nextPage_eq]
    rcases hn : PageSource.nextPage (source, r.world) with ⟨- | page, s⟩ | ⟨e, s⟩
    · exact ⟨_, _, .ended hn, rfl, rfl⟩
    · simp only [Result.mapWorld_ok, Result.outcome_ok, Filmed.now_eq, Filmed.world_shoot]
      generalize hbegun : (r.shoot s.2 (.requested r.world (.ok (some page)))).shoot
        (Context.now s.2).2 (.read (Context.now s.2).1) = r₁
      obtain ⟨seen, unseen, looks, rfl, hlooks, hgiven, hall⟩ := film_giveEach project
        callback (Context.now s.2).1 page delivered r₁
      have hfilm : (giveEach project (Filmed.ofReceiver callback) (Context.now s.2).1 delivered
          (seen ++ unseen) r₁).world.film = r.film ++
            .requested r.world (.ok (some (seen ++ unseen))) :: .read (Context.now s.2).1 ::
              (lookFilm project delivered looks ++ []) := by
        rw [hgiven, ← hbegun]
        simp
      rcases hg : giveEach project (Filmed.ofReceiver callback) (Context.now s.2).1 delivered
        (seen ++ unseen) r₁ with ⟨delivered', r'⟩ | ⟨e, r'⟩ <;> rw [hg] at hfilm
      · obtain ⟨rfl, rfl⟩ := hall hg
        obtain ⟨reels, outcome, hunfolds, hrest, houtcome⟩ :=
          ih (pages + 1) (delivered + (callsIn project looks).length) s.1 r'
        rw [Result.world_ok] at hfilm
        rw [List.append_nil] at hn hfilm
        have hanswers : (List.replicate (callsIn project looks).length ()).length =
          (callsIn project looks).length := List.length_replicate
        refine ⟨_, _, .page hn hlooks (.given hanswers) (by rwa [hanswers]), ?_, ?_⟩
        · rw [Result.bind_ok, hrest, hfilm]
          simp [Reel.film]
        · rw [Result.bind_ok, houtcome]
          rcases outcome with e | - | others <;> rfl
      · refine ⟨_, _, .broken hn hlooks .broken, ?_, rfl⟩
        rw [Result.world_error] at hfilm
        rw [Result.bind_error, Result.world_error, hfilm]
        simp [Reel.film]
    · exact ⟨_, _, .failed hn, rfl, rfl⟩

/-- The film of a collecting pass unfolds to what the pass comes to. -/
theorem unfolds_collectFilmed (rule : Nat → JoinRule) (it : PagedEntries π κ α ρ) (limit : Nat)
    (callback : Nat → ρ → ω → Deferred ω υ × ω) (w : ω) :
    ∃ reels, (it.collectFilmed rule limit callback w).world.film = reels.flatMap Reel.film ∧
      reelsOf (it.collectFilmed rule limit callback w).world.film = reels ∧
      Unfolds it.project JoinCloses limit it.source 0 reels
        (it.collectEachBy rule limit callback w).outcome := by
  obtain ⟨reels, hfilm, hreels, hcollects⟩ := collects_collectFilmed joinCloses_withWork
    (joinsClose_joinCloses rule callback) it limit w
  exact ⟨reels, hfilm, hreels, hcollects.unfolds⟩

/-- The film of a delivering pass unfolds to what the pass comes to. -/
theorem unfolds_deliverFilmed (it : PagedEntries π κ α ρ) (limit : Nat)
    (callback : Nat → ρ → Action ω Unit) (w : ω) :
    ∃ reels outcome,
      (it.deliverFilmed limit callback w).world.film = reels.flatMap Reel.film ∧
      reelsOf (it.deliverFilmed limit callback w).world.film = reels ∧
      Unfolds it.project NothingCloses limit it.source 0 reels outcome ∧
      (it.deliverEach limit callback w).outcome = outcome.map (Option.map fun _ => ()) := by
  obtain ⟨reels, outcome, hunfolds, hfilm, houtcome⟩ := unfolds_deliverFrom it.project
    callback limit 0 0 it.source { world := w }
  have hreels : (it.deliverFilmed limit callback w).world.film = reels.flatMap Reel.film := hfilm
  refine ⟨reels, outcome, hreels,
    hreels ▸ reelsOf_film (hunfolds.uncut nothingCloses_withWork), hunfolds, ?_⟩
  rw [← deliverFilmed_world, Result.outcome_mapWorld]
  exact houtcome

end PagedEntries

end LazyExpiry
