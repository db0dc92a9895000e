import Mathlib.Data.List.Forall2
import LazyExpiry.Proofs.Paged.Held
import LazyExpiry.Proofs.Pass.Logged

/-!
# Paged passes on film

A paged pass asks its world for pages, for the time and for judgements, calls back, and
completes the works that the callback left. `Filmed` is a world with a film of all that, in
the order in which it happened (`PagedEvent`). The callback is filmed where it is called and
where its work is completed (`Filmed.ofCallback`, `Filmed.ofReceiver`), and a join where it
begins (`Filmed.joinAll`), which `collectFromBy` takes for the join of the pass.

The film is written and never read, so a pass on film is the pass (`collectFilmed_world`,
`deliverFilmed_world`). This is a case of passes in worlds that answer alike
(`PagedMirrors`), whose works are joined alike too, round by round (`joinAll_view`). And what
holds of all that a pass asks for and does, holds of everything on its film
(`holds_collectFilmed`, `holds_deliverFilmed`).
-/

namespace LazyExpiry

variable {ω σ κ α π ρ τ υ : Type}

/-! ## Works on both sides -/

/-- The same work on both sides of a map of worlds. -/
structure Deferred.Mirrors (view : ω → σ) (d : Deferred ω υ) (d' : Deferred σ υ) : Prop where
  waits_eq : d'.waits = d.waits
  finish_eq : ∀ w, d'.finish (view w) = (d.finish w).mapWorld view

namespace Task

/-- The same task on both sides of a map of worlds. -/
inductive Mirrors (view : ω → σ) : Task ω υ → Task σ υ → Prop where
  | settled (a : υ) : Mirrors view (.settled a) (.settled a)
  | failed (e : StoreError) : Mirrors view (.failed e) (.failed e)
  | waiting {d : Deferred ω υ} {d' : Deferred σ υ} : d.Mirrors view d' →
    Mirrors view (.waiting d) (.waiting d')

variable {view : ω → σ} {t : Task ω υ} {t' : Task σ υ} {ts : List (Task ω υ)}
  {ts' : List (Task σ υ)}

theorem Mirrors.poll (h : Mirrors view t t') (w : ω) :
    Mirrors view (t.poll w).1 (t'.poll (view w)).1 ∧ (t'.poll (view w)).2 = view (t.poll w).2 := by
  induction h with
  | settled a => exact ⟨.settled a, rfl⟩
  | failed e => exact ⟨.failed e, rfl⟩
  | @waiting d d' h =>
    obtain ⟨hwaits, hfinish⟩ := h
    obtain ⟨waits, finish⟩ := d
    obtain ⟨waits', finish'⟩ := d'
    obtain rfl : waits' = waits := hwaits
    have hview : ∀ w, finish' (view w) = (finish w).mapWorld view := hfinish
    match waits' with
    | 0 =>
      simp only [Task.poll, hview]
      rcases finish w with ⟨a, w'⟩ | ⟨e, w'⟩
      · exact ⟨.settled a, rfl⟩
      · exact ⟨.failed e, rfl⟩
    | n + 1 => exact ⟨.waiting ⟨rfl, hfinish⟩, rfl⟩

theorem answers?_view (h : List.Forall₂ (Mirrors view) ts ts') : answers? ts' = answers? ts := by
  induction h with
  | nil => rfl
  | cons ht _ ih =>
    induction ht with
    | settled a => rw [answers?, answers?, ih]
    | failed e => rfl
    | waiting _ => rfl

/-- A round on both sides. -/
theorem pollAll_view (rule : JoinRule) (succeeded : Bool) (h : List.Forall₂ (Mirrors view) ts ts')
    (w : ω) :
    match pollAll rule succeeded ts w with
    | .ok us w' => ∃ us', pollAll rule succeeded ts' (view w) = .ok us' (view w') ∧
        List.Forall₂ (Mirrors view) us us'
    | .error e w' => pollAll rule succeeded ts' (view w) = .error e (view w') := by
  induction h generalizing succeeded w with
  | nil => exact ⟨[], rfl, .nil⟩
  | @cons t t' ts ts' ht _ ih =>
    obtain ⟨hpolled, hworld⟩ := ht.poll w
    -- the rest of the round, whichever flag it is given
    have goOn : ∀ succeeded', match (pollAll rule succeeded' ts (t.poll w).2).map
          ((t.poll w).1 :: ·) with
        | .ok us w' => ∃ us', (pollAll rule succeeded' ts' (view (t.poll w).2)).map
            ((t'.poll (view w)).1 :: ·) = .ok us' (view w') ∧ List.Forall₂ (Mirrors view) us us'
        | .error e w' => (pollAll rule succeeded' ts' (view (t.poll w).2)).map
            ((t'.poll (view w)).1 :: ·) = .error e (view w') := by
      intro succeeded'
      have hrest := ih succeeded' (t.poll w).2
      rcases hp : pollAll rule succeeded' ts (t.poll w).2 with ⟨us, w'⟩ | ⟨e, w'⟩ <;>
        rw [hp] at hrest
      · obtain ⟨us', hus', hmirrors⟩ := hrest
        exact ⟨_, by rw [hus', Result.map_ok], .cons hpolled hmirrors⟩
      · simp only [Result.map_error, hrest]
    simp only [pollAll, hworld]
    generalize hp : (t.poll w).1 = p at hpolled goOn
    generalize hp' : (t'.poll (view w)).1 = p' at hpolled goOn
    induction hpolled with
    | settled a => exact goOn succeeded
    | waiting _ => exact goOn false
    | failed e =>
      by_cases hends : rule.ends succeeded = true
      · simp only [hends, if_true]
      · simp only [if_neg hends]
        exact goOn false

end Task

/-- A join comes to the same on both sides. -/
theorem joinAll_view {view : ω → σ} (rule : JoinRule) {ts : List (Task ω υ)}
    {ts' : List (Task σ υ)} (h : List.Forall₂ (Task.Mirrors view) ts ts') (w : ω) :
    joinAll rule ts' (view w) = (joinAll rule ts w).mapWorld view := by
  induction ts, w using joinAll.induct rule generalizing ts' with
  | case1 ts w answers hs =>
    rw [joinAll_of_answers hs, joinAll_of_answers (Task.answers?_view h ▸ hs), Result.mapWorld_ok]
  | case2 ts w hn us w' hp ih =>
    have hround := Task.pollAll_view rule true h w
    rw [hp] at hround
    obtain ⟨us', hus', hmirrors⟩ := hround
    rw [joinAll_of_round hn hp, joinAll_of_round (Task.answers?_view h ▸ hn) hus', ih hmirrors]
  | case3 ts w hn e w' hp =>
    have hround := Task.pollAll_view rule true h w
    rw [hp] at hround
    rw [joinAll_of_end hn hp, joinAll_of_end (Task.answers?_view h ▸ hn) hround,
      Result.mapWorld_error]

/-! ## Passes on both sides -/

/-- Under `view` the page source and the context of both worlds answer alike. -/
structure PagedMirrors (π : Type) [Context ω] [PageSource (π × ω) κ (Stamped α)] [Context σ]
    [PageSource (π × σ) κ (Stamped α)] (view : ω → σ) : Prop extends ContextMirrors view where
  nextPage : ∀ (source : π) (w : ω), PageSource.nextPage (source, view w) =
    (PageSource.nextPage (source, w)).mapWorld (Prod.map id view)

namespace PagedEntries

section View

variable [Context ω] [PageSource (π × ω) κ (Stamped α)] [Context σ]
  [PageSource (π × σ) κ (Stamped α)] {view : ω → σ} {project : κ → Option α → ρ}

theorem callEach_view (project : κ → Option α → ρ) (hv : ContextMirrors view)
    {callback : Nat → ρ → ω → Deferred ω υ × ω} {callback' : Nat → ρ → σ → Deferred σ υ × σ}
    (hcall : ∀ index item w, (callback index item w).1.Mirrors view
      (callback' index item (view w)).1 ∧
        (callback' index item (view w)).2 = view (callback index item w).2)
    (now : Timestamp) (page : List (κ × Stamped α)) (index : Nat) (w : ω) :
    List.Forall₂ (Task.Mirrors view) (callEach project callback now index page w).1
        (callEach project callback' now index page (view w)).1 ∧
      (callEach project callback' now index page (view w)).2 =
        view (callEach project callback now index page w).2 := by
  induction page generalizing index w with
  | nil => exact ⟨.nil, rfl⟩
  | cons e rest ih =>
    obtain ⟨key, stored⟩ := e
    simp only [callEach, hv.judge]
    rcases (judge (some stored) now w).1 with - | value
    · simp only [hv.note]
      exact ih index _
    · obtain ⟨hwork, hworld⟩ := hcall index (project key value) (judge (some stored) now w).2
      obtain ⟨hothers, hlast⟩ := ih (index + 1) (callback index (project key value)
        (judge (some stored) now w).2).2
      simp only [hworld]
      exact ⟨.cons (.waiting hwork) hothers, hlast⟩

theorem giveEach_view (hv : ContextMirrors view) {callback : Nat → ρ → Action ω Unit}
    {callback' : Nat → ρ → Action σ Unit}
    (hcall : ∀ index item w, callback' index item (view w) =
      (callback index item w).mapWorld view)
    (now : Timestamp) (page : List (κ × Stamped α)) (index : Nat) (w : ω) :
    giveEach project callback' now index page (view w) =
      (giveEach project callback now index page w).mapWorld view := by
  induction page generalizing index w with
  | nil => rfl
  | cons e rest ih =>
    obtain ⟨key, stored⟩ := e
    simp only [giveEach, hv.judge]
    rcases (judge (some stored) now w).1 with - | value
    · simp only [hv.note]
      exact ih index _
    · simp only [hcall]
      rcases callback index (project key value) (judge (some stored) now w).2 with ⟨_, w'⟩ | ⟨e, w'⟩
      · exact ih (index + 1) w'
      · rfl

/-- A collecting pass comes to the same on both sides, if its joins do. -/
theorem collectFromBy_view (hv : PagedMirrors π view) {callback : Nat → ρ → ω → Deferred ω υ × ω}
    {callback' : Nat → ρ → σ → Deferred σ υ × σ}
    (hcall : ∀ index item w, (callback index item w).1.Mirrors view
      (callback' index item (view w)).1 ∧
        (callback' index item (view w)).2 = view (callback index item w).2)
    {join : List (Task ω υ) → Action ω (List υ)} {join' : List (Task σ υ) → Action σ (List υ)}
    (hjoin : ∀ {ts ts'}, List.Forall₂ (Task.Mirrors view) ts ts' → ∀ w,
      join' ts' (view w) = (join ts w).mapWorld view)
    (limit pages : Nat) (results : List υ) (source : π) (w : ω) :
    collectFromBy join' project callback' limit pages results source (view w) =
      (collectFromBy join project callback limit pages results source w).mapWorld view := by
  induction limit generalizing pages results source w with
  | zero => rfl
  | succ limit ih =>
    simp only [collectFromBy, hv.nextPage]
    rcases PageSource.nextPage (source, w) with ⟨- | page, s⟩ | ⟨e, s⟩
    · simp only [Result.mapWorld_ok, Prod.map_snd, hv.note]
    · simp only [Result.mapWorld_ok, Prod.map_snd, Prod.map_fst, hv.now, id_eq]
      obtain ⟨htasks, hworld⟩ := callEach_view project hv.toContextMirrors hcall
        (Context.now s.2).1 page results.length (Context.now s.2).2
      rw [hworld, hjoin htasks]
      rcases join _ _ with ⟨more, w'⟩ | ⟨e, w'⟩
      · exact ih _ _ _ w'
      · rfl
    · rfl

/-- A delivering pass comes to the same on both sides. -/
theorem deliverFrom_view (hv : PagedMirrors π view) {callback : Nat → ρ → Action ω Unit}
    {callback' : Nat → ρ → Action σ Unit}
    (hcall : ∀ index item w, callback' index item (view w) =
      (callback index item w).mapWorld view)
    (limit pages delivered : Nat) (source : π) (w : ω) :
    deliverFrom project callback' limit pages delivered source (view w) =
      (deliverFrom project callback limit pages delivered source w).mapWorld view := by
  induction limit generalizing pages delivered source w with
  | zero => rfl
  | succ limit ih =>
    simp only [deliverFrom, hv.nextPage]
    rcases PageSource.nextPage (source, w) with ⟨- | page, s⟩ | ⟨e, s⟩
    · simp only [Result.mapWorld_ok, Prod.map_snd, hv.note]
    · simp only [Result.mapWorld_ok, Prod.map_snd, Prod.map_fst, hv.now, id_eq,
        giveEach_view hv.toContextMirrors hcall]
      rcases giveEach project callback _ _ _ _ with ⟨delivered', w'⟩ | ⟨e, w'⟩
      · exact ih _ _ _ w'
      · rfl
    · rfl

end View

end PagedEntries

/-! ## Worlds on film -/

/-- Something that a paged pass asked for or did. -/
inductive PagedEvent (ω κ α ρ υ : Type) where
  /-- In that world the source was asked for a page. -/
  | requested (met : ω) (answer : Except StoreError (Option (List (κ × Stamped α))))
  /-- The clock was read. -/
  | read (now : Timestamp)
  /-- A value was judged. -/
  | judged (writtenAt now : Timestamp) (live : Bool)
  /-- The callback was given an item after `index` others, and left work that waits so often. -/
  | called (index : Nat) (item : ρ) (waits : Nat)
  /-- The works of a page, which wait so often, began to be polled. -/
  | joining (waits : List Nat)
  /-- The work that was left for an item was completed. -/
  | finished (index : Nat) (item : ρ) (outcome : Except StoreError υ)

/-- A world with a film of what a pass asked of it and did in it, oldest first. -/
structure Filmed (ω κ α ρ υ : Type) where
  world : ω
  film : List (PagedEvent ω κ α ρ υ) := []

/-- How often a task still waits. -/
def Task.waits : Task ω υ → Nat
  | waiting d => d.waits
  | _ => 0

namespace Filmed

/-- One more event. -/
def shoot (r : Filmed ω κ α ρ υ) (w : ω) (event : PagedEvent ω κ α ρ υ) : Filmed ω κ α ρ υ :=
  ⟨w, r.film ++ [event]⟩

@[simp] theorem world_shoot (r : Filmed ω κ α ρ υ) (w : ω) (event : PagedEvent ω κ α ρ υ) :
    (r.shoot w event).world = w := rfl

@[simp] theorem film_shoot (r : Filmed ω κ α ρ υ) (w : ω) (event : PagedEvent ω κ α ρ υ) :
    (r.shoot w event).film = r.film ++ [event] := rfl

instance [Context ω] : Context (Filmed ω κ α ρ υ) where
  now r :=
    ((Context.now r.world).1, r.shoot (Context.now r.world).2 (.read (Context.now r.world).1))
  isLive writtenAt now r := ((Context.isLive writtenAt now r.world).1,
    r.shoot (Context.isLive writtenAt now r.world).2
      (.judged writtenAt now (Context.isLive writtenAt now r.world).1))
  note event r := ⟨Context.note event r.world, r.film⟩

theorem now_eq [Context ω] (r : Filmed ω κ α ρ υ) : Context.now r =
    ((Context.now r.world).1, r.shoot (Context.now r.world).2 (.read (Context.now r.world).1)) :=
  rfl

instance [PageSource (π × ω) κ (Stamped α)] : PageSource (π × Filmed ω κ α ρ υ) κ (Stamped α) where
  nextPage s := (PageSource.nextPage (s.1, s.2.world)).mapWorld fun s' =>
    (s'.1, s.2.shoot s'.2 (.requested s.2.world (PageSource.nextPage (s.1, s.2.world)).outcome))

theorem nextPage_eq [PageSource (π × ω) κ (Stamped α)] (source : π) (r : Filmed ω κ α ρ υ) :
    PageSource.nextPage (source, r) =
      (PageSource.nextPage (source, r.world)).mapWorld fun s => (s.1, r.shoot s.2
        (.requested r.world (PageSource.nextPage (source, r.world)).outcome)) := rfl

/-- Work whose completion is filmed. -/
def ofWork (index : Nat) (item : ρ) (d : Deferred ω υ) : Deferred (Filmed ω κ α ρ υ) υ where
  waits := d.waits
  finish r := (d.finish r.world).mapWorld fun w =>
    r.shoot w (.finished index item (d.finish r.world).outcome)

/-- A callback whose calls and works are filmed. -/
def ofCallback (callback : Nat → ρ → ω → Deferred ω υ × ω) (index : Nat) (item : ρ)
    (r : Filmed ω κ α ρ υ) : Deferred (Filmed ω κ α ρ υ) υ × Filmed ω κ α ρ υ :=
  let called := callback index item r.world
  (ofWork index item called.1, r.shoot called.2 (.called index item called.1.waits))

/-- A callback that leaves no work, whose calls are filmed. -/
def ofReceiver (callback : Nat → ρ → Action ω Unit) (index : Nat) (item : ρ) :
    Action (Filmed ω κ α ρ υ) Unit := fun r =>
  (callback index item r.world).mapWorld fun w => r.shoot w (.called index item 0)

/-- A join whose beginning is filmed. -/
def joinAll (rule : Nat → JoinRule) (ts : List (Task (Filmed ω κ α ρ υ) υ)) :
    Action (Filmed ω κ α ρ υ) (List υ) := fun r =>
  LazyExpiry.joinAll (rule ts.length) ts (r.shoot r.world (.joining (ts.map Task.waits)))

variable [Context ω] [PageSource (π × ω) κ (Stamped α)]

theorem mirrors_world : PagedMirrors π (Filmed.world : Filmed ω κ α ρ υ → ω) where
  nextPage source r := by
    rw [nextPage_eq]
    rcases PageSource.nextPage (source, r.world) with _ | _ <;> rfl
  now _ := rfl
  isLive _ _ _ := rfl
  note _ _ := rfl

end Filmed

namespace PagedEntries

variable [Context ω] [PageSource (π × ω) κ (Stamped α)]

/-- A collecting pass on film. -/
def collectFilmed (rule : Nat → JoinRule) (it : PagedEntries π κ α ρ) (limit : Nat)
    (callback : Nat → ρ → ω → Deferred ω υ × ω) (w : ω) :
    Result (Filmed ω κ α ρ υ) (Option (List υ)) :=
  collectFromBy (Filmed.joinAll rule) it.project (Filmed.ofCallback callback) limit 0 [] it.source
    { world := w }

/-- A delivering pass on film. -/
def deliverFilmed (it : PagedEntries π κ α ρ) (limit : Nat) (callback : Nat → ρ → Action ω Unit)
    (w : ω) : Result (Filmed ω κ α ρ Unit) (Option Unit) :=
  deliverFrom it.project (Filmed.ofReceiver callback) limit 0 0 it.source { world := w }

/-- Without its film, a collecting pass on film is the pass. -/
theorem collectFilmed_world (rule : Nat → JoinRule) (it : PagedEntries π κ α ρ) (limit : Nat)
    (callback : Nat → ρ → ω → Deferred ω υ × ω) (w : ω) :
    (it.collectFilmed rule limit callback w).mapWorld Filmed.world =
      it.collectEachBy rule limit callback w := by
  rw [collectEachBy, collectFrom_eq]
  refine (collectFromBy_view (Filmed.mirrors_world (π := π))
    (fun index item r => ⟨⟨rfl, fun r => ?_⟩, rfl⟩) (fun htasks r => ?_) limit 0 [] it.source
    { world := w }).symm
  · simp only [Filmed.ofCallback, Filmed.ofWork]
    rcases (callback index item _).1.finish r.world with _ | _ <;> rfl
  · rw [Filmed.joinAll, ← htasks.length_eq]
    exact joinAll_view _ htasks (r.shoot r.world _)

/-- Without its film, a delivering pass on film is the pass. -/
theorem deliverFilmed_world (it : PagedEntries π κ α ρ) (limit : Nat)
    (callback : Nat → ρ → Action ω Unit) (w : ω) :
    (it.deliverFilmed limit callback w).mapWorld Filmed.world =
      it.deliverEach limit callback w := by
  refine (deliverFrom_view (Filmed.mirrors_world (π := π))
    (fun index item r => ?_) limit 0 0 it.source { world := w }).symm
  simp only [Filmed.ofReceiver]
  rcases callback index item r.world with _ | _ <;> rfl

end PagedEntries

/-! ## What holds of everything on a film -/

/-- `P` of the world, and `E` of everything on the film. -/
structure Filmed.Holds (P : ω → Prop) (E : PagedEvent ω κ α ρ υ → Prop)
    (r : Filmed ω κ α ρ υ) : Prop where
  world : P r.world
  film : ∀ event ∈ r.film, E event

theorem Filmed.Holds.shoot {P : ω → Prop} {E : PagedEvent ω κ α ρ υ → Prop}
    {r : Filmed ω κ α ρ υ} (h : r.Holds P E) {w : ω} (hw : P w) {event : PagedEvent ω κ α ρ υ}
    (hevent : E event) : (r.shoot w event).Holds P E := by
  refine ⟨hw, fun e he => ?_⟩
  rcases List.mem_append.mp he with he | he
  · exact h.film e he
  · exact List.mem_singleton.mp he ▸ hevent

section Holds

variable [Context ω] [PageSource (π × ω) κ (Stamped α)] {P : ω → Prop}
  {E : PagedEvent ω κ α ρ υ → Prop}

/-- In worlds with `P`, whatever a pass asks for has `E`, and so has whatever it does itself. -/
structure ShownByPaging (π : Type) [PageSource (π × ω) κ (Stamped α)] (P : ω → Prop)
    (E : PagedEvent ω κ α ρ υ → Prop) : Prop where
  requested : ∀ (source : π) {w : ω}, P w →
    E (.requested w (PageSource.nextPage (source, w)).outcome)
  read : ∀ {w : ω}, P w → E (.read (Context.now w).1)
  judged : ∀ (writtenAt now : Timestamp) {w : ω}, P w →
    E (.judged writtenAt now (Context.isLive writtenAt now w).1)
  called : ∀ (index : Nat) (item : ρ) (waits : Nat), E (.called index item waits)
  joining : ∀ waits : List Nat, E (.joining waits)

theorem ShownByPaging.heldByPaging (hE : ShownByPaging π P E) (hP : HeldByPaging (π := π) P) :
    HeldByPaging (π := π) (Filmed.Holds P E) where
  nextPage source hr := by
    rw [Filmed.nextPage_eq, Result.world_mapWorld]
    exact hr.shoot (hP.nextPage source hr.world) (hE.requested source hr.world)
  now hr := hr.shoot (hP.now hr.world) (hE.read hr.world)
  isLive writtenAt now hr :=
    hr.shoot (hP.isLive writtenAt now hr.world) (hE.judged writtenAt now hr.world)
  note event hr := ⟨hP.note event hr.world, hr.film⟩

namespace PagedEntries

/-- What a callback and its works keep and show, a collecting pass keeps and shows. -/
theorem holds_collectFilmed (hP : HeldByPaging (π := π) P) (hE : ShownByPaging π P E)
    {callback : Nat → ρ → ω → Deferred ω υ × ω}
    (hcall : ∀ index item w, P w → P (callback index item w).2)
    (hfinish : ∀ index item w w', P w' → P ((callback index item w).1.finish w').world ∧
      E (.finished index item ((callback index item w).1.finish w').outcome))
    (rule : Nat → JoinRule) (it : PagedEntries π κ α ρ) (limit : Nat) {w : ω} (hw : P w) :
    (it.collectFilmed rule limit callback w).world.Holds P E := by
  refine held_collectFromBy (π := π) (hE.heldByPaging hP)
    (fun hts hr => held_joinAll _ _ hts (hr.shoot hr.world (hE.joining _)))
    (fun index item r hr => hr.shoot (hcall index item r.world hr.world) (hE.called _ _ _))
    (fun index item r r' hr => ?_) limit 0 [] it.source ⟨hw, by simp⟩
  obtain ⟨hworld, hshown⟩ := hfinish index item r.world r'.world hr.world
  simp only [Filmed.ofCallback, Filmed.ofWork, Result.world_mapWorld]
  exact hr.shoot hworld hshown

/-- What a callback keeps, a delivering pass keeps, and shows what it asks for. -/
theorem holds_deliverFilmed {E : PagedEvent ω κ α ρ Unit → Prop} (hP : HeldByPaging (π := π) P)
    (hE : ShownByPaging π P E) {callback : Nat → ρ → Action ω Unit}
    (hcall : ∀ index item w, P w → P (callback index item w).world) (it : PagedEntries π κ α ρ)
    (limit : Nat) {w : ω} (hw : P w) : (it.deliverFilmed limit callback w).world.Holds P E := by
  refine held_deliverFrom (π := π) (hE.heldByPaging hP) (fun index item r hr => ?_) limit 0 0
    it.source ⟨hw, by simp⟩
  rw [Filmed.ofReceiver, Result.world_mapWorld]
  exact hr.shoot (hcall index item r.world hr.world) (hE.called _ _ _)

end PagedEntries

end Holds

end LazyExpiry
