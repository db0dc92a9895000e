import LazyExpiry.Paged

/-!
# What a paged pass leaves alone

A paged pass asks its world for pages, for the time and for judgements of values, and runs
its callback and the works that the callback left. What all of these keep, the pass keeps
(`held_collectEach`, `held_deliverEach`), whatever the works wait for and whichever
failure ends it.
-/

namespace LazyExpiry

variable {σ κ α π ρ υ : Type} {P : σ → Prop}

theorem Result.held_bind {α β : Type} {r : Result σ α} {f : α → σ → Result σ β}
    (hr : P r.world) (hf : ∀ a w, P w → P (f a w).world) : P (r.bind f).world := by
  rcases r with ⟨a, w⟩ | ⟨e, w⟩
  · exact hf a w hr
  · exact hr

/-! ## Joined works -/

namespace Task

/-- Finishing the work of a task keeps `P`. -/
def Keeps (P : σ → Prop) : Task σ υ → Prop
  | waiting d => ∀ w, P w → P (d.finish w).world
  | _ => True

theorem Keeps.poll {t : Task σ υ} (ht : t.Keeps P) {w : σ} (hw : P w) :
    (t.poll w).1.Keeps P ∧ P (t.poll w).2 := by
  match t with
  | settled _ => exact ⟨trivial, hw⟩
  | failed _ => exact ⟨trivial, hw⟩
  | waiting ⟨0, finish⟩ =>
    have hfinish : P (finish w).world := ht w hw
    simp only [Task.poll]
    rcases hf : finish w with ⟨a, w'⟩ | ⟨e, w'⟩ <;> rw [hf] at hfinish <;> exact ⟨trivial, hfinish⟩
  | waiting ⟨n + 1, finish⟩ => exact ⟨ht, hw⟩

theorem held_pollAll (rule : JoinRule) : ∀ (succeeded : Bool) (ts : List (Task σ υ)) {w : σ},
    (∀ t ∈ ts, t.Keeps P) → P w → P (pollAll rule succeeded ts w).world ∧
      ∀ {us w'}, pollAll rule succeeded ts w = .ok us w' → ∀ t ∈ us, t.Keeps P
  | _, [], _, hts, hw => by
    refine ⟨hw, ?_⟩
    rintro us w' ⟨⟩
    exact hts
  | succeeded, t :: ts, w, hts, hw => by
    obtain ⟨ht, hw'⟩ := Keeps.poll (hts t List.mem_cons_self) hw
    have hrest : ∀ t ∈ ts, t.Keeps P := fun t h => hts t (List.mem_cons_of_mem _ h)
    -- the rest of the round, whichever flag it is given
    have goOn : ∀ succeeded', P ((pollAll rule succeeded' ts (t.poll w).2).map
        ((t.poll w).1 :: ·)).world ∧ ∀ {us w'},
          (pollAll rule succeeded' ts (t.poll w).2).map ((t.poll w).1 :: ·) = .ok us w' →
            ∀ t ∈ us, t.Keeps P := by
      intro succeeded'
      obtain ⟨hp, hk⟩ := held_pollAll rule succeeded' ts hrest hw'
      refine ⟨by rwa [Result.world_map], ?_⟩
      intro us w'' h
      obtain ⟨ts', hts', rfl⟩ := Result.map_eq_ok_iff.mp h
      intro u hu
      rcases List.mem_cons.mp hu with rfl | hu
      · exact ht
      · exact hk hts' u hu
    unfold pollAll
    dsimp only
    split
    · rename_i hp
      exact hp ▸ goOn succeeded
    · rename_i hp
      exact hp ▸ goOn false
    · rename_i hp
      split
      · refine ⟨hw', ?_⟩
        rintro us w' ⟨⟩
      · exact hp ▸ goOn false

end Task

theorem held_joinAll (rule : JoinRule) (ts : List (Task σ υ)) {w : σ} (hts : ∀ t ∈ ts, t.Keeps P)
    (hw : P w) : P (joinAll rule ts w).world := by
  induction ts, w using joinAll.induct rule with
  | case1 ts w answers hs =>
    rw [joinAll_of_answers hs]
    exact hw
  | case2 ts w hn ts' w' hp ih =>
    obtain ⟨hpoll, hkeeps⟩ := Task.held_pollAll rule true ts hts hw
    rw [hp] at hpoll
    rw [joinAll_of_round hn hp]
    exact ih (hkeeps hp) hpoll
  | case3 ts w hn e w' hp =>
    have hpoll := (Task.held_pollAll rule true ts hts hw).1
    rw [hp] at hpoll
    rw [joinAll_of_end hn hp]
    exact hpoll

/-! ## Passes -/

variable [Context σ]

/-- `P` goes on holding whatever a paged pass asks of its world. -/
structure HeldByPaging [PageSource (π × σ) κ (Stamped α)] (P : σ → Prop) : Prop where
  nextPage : ∀ {w : σ} (source : π), P w → P (PageSource.nextPage (source, w)).world.2
  now : ∀ {w : σ}, P w → P (Context.now w).2
  isLive : ∀ {w : σ} (writtenAt now : Timestamp), P w → P (Context.isLive writtenAt now w).2
  note : ∀ {w : σ} (event : Event), P w → P (Context.note event w)

variable [PageSource (π × σ) κ (Stamped α)]

theorem HeldByPaging.judge (hP : HeldByPaging (π := π) P) (stored : Option (Stamped α))
    (now : Timestamp) {w : σ} (hw : P w) : P (LazyExpiry.judge stored now w).2 := by
  rcases stored with - | ⟨- | v, writtenAt⟩
  · exact hw
  · exact hw
  · exact hP.isLive _ _ hw

namespace PagedEntries

/-- `collectFrom`, given how the works of a page are joined. -/
def collectFromBy (join : List (Task σ υ) → Action σ (List υ)) (project : κ → Option α → ρ)
    (callback : Nat → ρ → σ → Deferred σ υ × σ) :
    (limit pages : Nat) → List υ → π → Action σ (Option (List υ))
  | 0, _, _, _, w => .ok none w
  | limit + 1, pages, results, source, w =>
    match PageSource.nextPage (source, w) with
    | .error e s => .error e s.2
    | .ok none s => .ok (some results) (Context.note (.collected pages results.length) s.2)
    | .ok (some page) s =>
      let reading := Context.now s.2
      let called := callEach project callback reading.1 results.length page reading.2
      (join called.1 called.2).bind fun more w' =>
        collectFromBy join project callback limit (pages + 1) (results ++ more) s.1 w'

/-- The collecting pass joins by the rule for the number of works. -/
theorem collectFrom_eq (rule : Nat → JoinRule) (project : κ → Option α → ρ)
    (callback : Nat → ρ → σ → Deferred σ υ × σ) (limit pages : Nat) (results : List υ) (source : π)
    (w : σ) : collectFrom rule project callback limit pages results source w =
      collectFromBy (fun ts => joinAll (rule ts.length) ts) project callback limit pages results
        source w := by
  induction limit generalizing pages results source w with
  | zero => rfl
  | succ limit ih =>
    simp only [collectFrom, collectFromBy, ih]
    rcases PageSource.nextPage (source, w) with ⟨- | page, s⟩ | ⟨e, s⟩ <;> rfl

variable {project : κ → Option α → ρ}

theorem held_callEach (hP : HeldByPaging (π := π) P) {callback : Nat → ρ → σ → Deferred σ υ × σ}
    (hcall : ∀ index item w, P w → P (callback index item w).2)
    (hfinish : ∀ index item w, (Task.waiting (callback index item w).1).Keeps P)
    (now : Timestamp) : ∀ (index : Nat) (page : List (κ × Stamped α)) {w : σ}, P w →
      P (callEach project callback now index page w).2 ∧
        ∀ t ∈ (callEach project callback now index page w).1, t.Keeps P
  | _, [], _, hw => ⟨hw, fun _ ht => absurd ht List.not_mem_nil⟩
  | index, (key, stored) :: rest, w, hw => by
    have hjudge := hP.judge (some stored) now hw
    simp only [callEach]
    split
    · exact held_callEach hP hcall hfinish now index rest (hP.note _ hjudge)
    · rename_i value _
      have hcalled := hcall index (project key value) _ hjudge
      obtain ⟨hothers, hkeeps⟩ := held_callEach hP hcall hfinish now (index + 1) rest hcalled
      refine ⟨hothers, fun t ht => ?_⟩
      rcases List.mem_cons.mp ht with rfl | ht
      · exact hfinish _ _ _
      · exact hkeeps t ht

theorem held_giveEach (hP : HeldByPaging (π := π) P) {callback : Nat → ρ → Action σ Unit}
    (hcall : ∀ index item w, P w → P (callback index item w).world) (now : Timestamp) :
    ∀ (index : Nat) (page : List (κ × Stamped α)) {w : σ}, P w →
      P (giveEach project callback now index page w).world
  | _, [], _, hw => hw
  | index, (key, stored) :: rest, w, hw => by
    have hjudge := hP.judge (some stored) now hw
    simp only [giveEach]
    split
    · exact held_giveEach hP hcall now index rest (hP.note _ hjudge)
    · rename_i value _
      refine Result.held_bind (hcall index (project key value) _ hjudge) ?_
      intro _ w' hw'
      exact held_giveEach hP hcall now (index + 1) rest hw'

/-- What a callback, its works and their joins keep, a collecting pass keeps. -/
theorem held_collectFromBy (hP : HeldByPaging (π := π) P)
    {join : List (Task σ υ) → Action σ (List υ)}
    (hjoin : ∀ {ts w}, (∀ t ∈ ts, t.Keeps P) → P w → P (join ts w).world)
    {callback : Nat → ρ → σ → Deferred σ υ × σ}
    (hcall : ∀ index item w, P w → P (callback index item w).2)
    (hfinish : ∀ index item w, (Task.waiting (callback index item w).1).Keeps P) :
    ∀ (limit pages : Nat) (results : List υ) (source : π) {w : σ}, P w →
      P (collectFromBy join project callback limit pages results source w).world
  | 0, _, _, _, _, hw => hw
  | limit + 1, pages, results, source, w, hw => by
    have hpage := hP.nextPage source hw
    simp only [collectFromBy]
    rcases hn : PageSource.nextPage (source, w) with ⟨- | page, s⟩ | ⟨e, s⟩ <;> rw [hn] at hpage
    · exact hP.note _ hpage
    · have hnow := hP.now hpage
      obtain ⟨hcalled, hkeeps⟩ := held_callEach hP hcall hfinish
        (Context.now s.2).1 results.length page hnow
      refine Result.held_bind (hjoin hkeeps hcalled) ?_
      intro more w' hw'
      exact held_collectFromBy hP hjoin hcall hfinish limit (pages + 1) (results ++ more) s.1 hw'
    · exact hpage

theorem held_collectFrom (hP : HeldByPaging (π := π) P) {rule : Nat → JoinRule}
    {callback : Nat → ρ → σ → Deferred σ υ × σ}
    (hcall : ∀ index item w, P w → P (callback index item w).2)
    (hfinish : ∀ index item w, (Task.waiting (callback index item w).1).Keeps P)
    (limit pages : Nat) (results : List υ) (source : π) {w : σ} (hw : P w) :
    P (collectFrom rule project callback limit pages results source w).world := by
  rw [collectFrom_eq]
  exact held_collectFromBy hP (held_joinAll _ _) hcall hfinish limit pages results source hw

theorem held_deliverFrom (hP : HeldByPaging (π := π) P) {callback : Nat → ρ → Action σ Unit}
    (hcall : ∀ index item w, P w → P (callback index item w).world) :
    ∀ (limit pages delivered : Nat) (source : π) {w : σ}, P w →
      P (deliverFrom project callback limit pages delivered source w).world
  | 0, _, _, _, _, hw => hw
  | limit + 1, pages, delivered, source, w, hw => by
    have hpage := hP.nextPage source hw
    simp only [deliverFrom]
    rcases hn : PageSource.nextPage (source, w) with ⟨- | page, s⟩ | ⟨e, s⟩ <;> rw [hn] at hpage
    · exact hP.note _ hpage
    · refine Result.held_bind (held_giveEach hP hcall _ delivered page (hP.now hpage)) ?_
      intro delivered' w' hw'
      exact held_deliverFrom hP hcall limit (pages + 1) delivered' s.1 hw'
    · exact hpage

end PagedEntries

end LazyExpiry
