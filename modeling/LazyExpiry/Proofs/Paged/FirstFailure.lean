import Mathlib.Data.Prod.Lex
import LazyExpiry.Proofs.Paged.Order

/-!
# The first failure of a collecting pass

A join that is ended by the first failure it meets completes the works of a page in the order
of their places (`Duty.place`) : first the ones that wait less, and of those that wait as long,
the one whose item came first. After every round it has completed just the works that wait
less than that (`Made`). So it is ended by the failing work that stands first, when all works
that stand before it have succeeded and no other work has been completed (`Breaks`).

A pass goes on from page to page by such joins (`ClosesAtFirst`), and what it comes to is the
first failure on its film, or there is none (`fails_at_first`).
-/

namespace LazyExpiry

variable {ω κ α π ρ υ : Type}

namespace PagedEntries

/-! ## Works in the order of their places -/

/-- Where a work stands in the order of completion. -/
def Duty.place (d : Duty ω ρ υ) : ℕ ×ₗ ℕ := toLex (d.work.waits, d.index)

theorem Duty.place_lt_iff {d d' : Duty ω ρ υ} : d.place < d'.place ↔
    d.work.waits < d'.work.waits ∨ d.work.waits = d'.work.waits ∧ d.index < d'.index :=
  Prod.Lex.toLex_lt_toLex

/-- A work that succeeded, on film. -/
def completion (p : Duty ω ρ υ × υ) : PagedEvent ω κ α ρ υ := .finished p.1.index p.1.item (.ok p.2)

/-- A work was completed with that outcome, in some world. -/
def Duty.Came (d : Duty ω ρ υ) (outcome : Except StoreError υ) : Prop :=
  ∃ w, (d.work.finish w).outcome = outcome

/-- Works that succeeded with these answers, in the order of their places. -/
structure InTurn (done : List (Duty ω ρ υ × υ)) : Prop where
  ascending : (done.map fun p => p.1.place).Pairwise (· < ·)
  succeeded : ∀ p ∈ done, p.1.Came (.ok p.2)

/-- All these works succeeded, and the answers are in the order of the works. -/
structure Joined (duties : List (Duty ω ρ υ)) (done : List (Duty ω ρ υ × υ))
    (answers : List υ) : Prop extends InTurn done where
  all : (done.map Prod.fst).Perm duties
  answers_eq : List.Forall₂ (fun d a => (d, a) ∈ done) duties answers

/-- One of these works failed, when just the works before it had succeeded. -/
structure Breaks (duties : List (Duty ω ρ υ)) (done : List (Duty ω ρ υ × υ))
    (failing : Duty ω ρ υ) (e : StoreError) : Prop extends InTurn done where
  mem : failing ∈ duties
  failed : failing.Came (.error e)
  mem_done_iff : ∀ d, d ∈ done.map Prod.fst ↔ d ∈ duties ∧ d.place < failing.place
  /-- No work stands before it that would have failed. -/
  least : ∀ d ∈ duties, (∀ w, ∃ e', (d.work.finish w).outcome = .error e') →
    failing.place ≤ d.place

/-! ## Rounds -/

/-- What a join has made of a work in `n` rounds, in which these were completed. -/
inductive After (n : Nat) (done : List (Duty ω ρ υ × υ)) :
    Duty ω ρ υ → Task (Filmed ω κ α ρ υ) υ → Prop where
  | settled {d : Duty ω ρ υ} {a : υ} : d.work.waits < n → (d, a) ∈ done →
    After n done d (.settled a)
  | waiting {d : Duty ω ρ υ} {k : Nat} : d.work.waits = n + k →
    After n done d (.waiting ⟨k, (Filmed.ofWork d.index d.item d.work).finish⟩)

section Rounds

variable {n : Nat} {done done' : List (Duty ω ρ υ × υ)} {d : Duty ω ρ υ}
  {duties : List (Duty ω ρ υ)} {t : Task (Filmed ω κ α ρ υ) υ}
  {ts us : List (Task (Filmed ω κ α ρ υ) υ)} {r r' : Filmed ω κ α ρ υ}

theorem After.mono (h : After n done d t) (hsub : done ⊆ done') : After n done' d t := by
  cases h with
  | settled hlt hmem => exact .settled hlt (hsub hmem)
  | waiting hk => exact .waiting hk

/-- The next poll completes a work that has waited long enough, and no other. -/
theorem After.poll (h : After n done d t) (r : Filmed ω κ α ρ υ) :
    d.work.waits ≠ n ∧ (t.poll r).2 = r ∧ After (n + 1) done d (t.poll r).1 ∨
      d.work.waits = n ∧ ∃ outcome, d.Came outcome ∧
        (t.poll r).2.film = r.film ++ [.finished d.index d.item outcome] ∧
        (t.poll r).1 = match outcome with
          | .ok a => .settled a
          | .error e => .failed e := by
  cases h with
  | settled hlt hmem => exact .inl ⟨hlt.ne, rfl, .settled (hlt.trans (Nat.lt_succ_self n)) hmem⟩
  | @waiting k hk =>
    match k with
    | 0 =>
      refine .inr ⟨hk, (d.work.finish r.world).outcome, ⟨r.world, rfl⟩, ?_⟩
      simp only [Task.poll, Filmed.ofWork]
      rcases d.work.finish r.world with ⟨a, w⟩ | ⟨e, w⟩ <;> exact ⟨rfl, rfl⟩
    | k + 1 => exact .inl ⟨by omega, rfl, .waiting (by omega)⟩

/-- A round that does not end the join completes the works that have waited long enough. -/
theorem round_of_ok {succeeded : Bool} (h : List.Forall₂ (After n done) duties ts)
    (hr : Task.pollAll .firstMet succeeded ts r = .ok us r') :
    ∃ more : List (Duty ω ρ υ × υ), r'.film = r.film ++ more.map completion ∧
      more.map Prod.fst = duties.filter (·.work.waits = n) ∧ (∀ p ∈ more, p.1.Came (.ok p.2)) ∧
      ∀ {done'}, done ⊆ done' → more ⊆ done' → List.Forall₂ (After (n + 1) done') duties us := by
  induction h generalizing succeeded us r with
  | nil =>
    cases hr
    exact ⟨[], by simp, rfl, by simp, fun _ _ => .nil⟩
  | @cons d t duties ts ht _ ih =>
    obtain ⟨succeeded', us', hus', rfl, -, hends⟩ := Task.pollAll_cons_eq_ok hr
    obtain ⟨more, hfilm, hmore, hcame, hafter⟩ := ih hus'
    rcases ht.poll r with ⟨hother, hsame, hpolled⟩ | ⟨hnow, outcome, hd, hfilm', hpolled⟩
    · refine ⟨more, by rw [hfilm, hsame], ?_, hcame, fun hdone hdone' =>
        .cons (hpolled.mono hdone) (hafter hdone hdone')⟩
      rw [hmore, List.filter_cons_of_neg (by simpa using hother)]
    · rcases outcome with e | a
      · cases hends e hpolled
      · refine ⟨(d, a) :: more, ?_, ?_, List.forall_mem_cons.mpr ⟨hd, hcame⟩,
          fun {done'} hdone hdone' => ?_⟩
        · rw [hfilm, hfilm', List.map_cons, List.append_assoc, List.singleton_append]
          rfl
        · rw [List.map_cons, hmore, List.filter_cons_of_pos (by simpa using hnow)]
        · obtain ⟨hmem, hothers⟩ := List.cons_subset.mp hdone'
          have hsettled : After (κ := κ) (α := α) (n + 1) done' d (.settled a) :=
            .settled (by omega) hmem
          exact .cons (hpolled ▸ hsettled) (hafter hdone hothers)

/-- A round that ends the join has completed works that have waited long enough, in their
order, up to one that failed. -/
theorem round_of_error {succeeded : Bool} {e : StoreError}
    (h : List.Forall₂ (After n done) duties ts)
    (hr : Task.pollAll .firstMet succeeded ts r = .error e r') :
    ∃ (more : List (Duty ω ρ υ × υ)) (failing : Duty ω ρ υ) (rest : List (Duty ω ρ υ)),
      r'.film = r.film ++ (more.map completion ++
        [.finished failing.index failing.item (.error e)]) ∧
      duties.filter (·.work.waits = n) = more.map Prod.fst ++ failing :: rest ∧
      (∀ p ∈ more, p.1.Came (.ok p.2)) ∧ failing.Came (.error e) := by
  induction h generalizing succeeded r with
  | nil => cases hr
  | @cons d t duties ts ht _ ih =>
    rcases ht.poll r with ⟨hother, hsame, hpolled⟩ | ⟨hnow, outcome, hd, hfilm, hpolled⟩
    · rw [List.filter_cons_of_neg (by simpa using hother)]
      rcases Task.pollAll_cons_eq_error hr with hfailed | ⟨-, succeeded', hrest⟩
      · rw [hfailed] at hpolled
        cases hpolled
      · exact hsame ▸ ih hrest
    · rw [List.filter_cons_of_pos (by simpa using hnow)]
      rcases Task.pollAll_cons_eq_error hr with hfailed | ⟨hends, succeeded', hrest⟩
      · rw [hfailed] at hfilm hpolled
        rcases outcome with e' | a
        · obtain rfl : e = e' := Task.failed.inj hpolled
          exact ⟨[], d, _, hfilm, rfl, by simp, hd⟩
        · cases hpolled
      · rcases outcome with e' | a
        · cases hends e' hpolled
        · obtain ⟨more, failing, rest, hfilm', hmore, hcame, hfailing⟩ := ih hrest
          refine ⟨(d, a) :: more, failing, rest, ?_, congrArg (d :: ·) hmore,
            List.forall_mem_cons.mpr ⟨hd, hcame⟩, hfailing⟩
          rw [hfilm', hfilm, List.append_assoc]
          rfl

end Rounds

/-! ## Joins -/

section Joins

variable {n : Nat} {done more : List (Duty ω ρ υ × υ)} {duties rest : List (Duty ω ρ υ)}
  {failing : Duty ω ρ υ} {e : StoreError} {ts us : List (Task (Filmed ω κ α ρ υ) υ)}
  {r r' : Filmed ω κ α ρ υ}

/-- What a join has made of its works in `n` rounds. -/
structure Made (n : Nat) (duties : List (Duty ω ρ υ)) (done : List (Duty ω ρ υ × υ))
    (ts : List (Task (Filmed ω κ α ρ υ) υ)) : Prop extends InTurn done where
  tasks : List.Forall₂ (After n done) duties ts
  mem_done_iff : ∀ d, d ∈ done.map Prod.fst ↔ d ∈ duties ∧ d.work.waits < n

/-- Works of one round, in the order of their items, come after those of the rounds before. -/
theorem Made.inTurn_append (h : Made n duties done ts)
    (hsorted : duties.Pairwise fun d d' => d.index < d'.index)
    (hmore : (more.map Prod.fst).Sublist (duties.filter (·.work.waits = n)))
    (hcame : ∀ p ∈ more, p.1.Came (.ok p.2)) : InTurn (done ++ more) := by
  have hround : ∀ d ∈ more.map Prod.fst, d.work.waits = n := fun d hd => by
    simpa using (List.mem_filter.mp (hmore.subset hd)).2
  refine ⟨?_, List.forall_mem_append.mpr ⟨h.succeeded, hcame⟩⟩
  rw [List.map_append, List.pairwise_append]
  refine ⟨h.ascending, ?_, ?_⟩
  · have hindex : (more.map Prod.fst).Pairwise fun d d' => d.index < d'.index :=
      (hsorted.sublist List.filter_sublist).sublist hmore
    rw [List.pairwise_map] at hindex ⊢
    refine hindex.imp_of_mem fun {p q} hp hq hlt => Duty.place_lt_iff.mpr (.inr ⟨?_, hlt⟩)
    rw [hround p.1 (List.mem_map_of_mem hp), hround q.1 (List.mem_map_of_mem hq)]
  · intro place hplace place' hplace'
    obtain ⟨p, hp, rfl⟩ := List.mem_map.mp hplace
    obtain ⟨q, hq, rfl⟩ := List.mem_map.mp hplace'
    have hbefore := ((h.mem_done_iff p.1).mp (List.mem_map_of_mem hp)).2
    have hnow := hround q.1 (List.mem_map_of_mem hq)
    exact Duty.place_lt_iff.mpr (.inl (by omega))

theorem Made.round (h : Made n duties done ts)
    (hsorted : duties.Pairwise fun d d' => d.index < d'.index)
    (hr : Task.pollAll .firstMet true ts r = .ok us r') :
    ∃ more : List (Duty ω ρ υ × υ), r'.film = r.film ++ more.map completion ∧
      Made (n + 1) duties (done ++ more) us := by
  obtain ⟨more, hfilm, hmore, hcame, hafter⟩ := round_of_ok h.tasks hr
  refine ⟨more, hfilm, h.inTurn_append hsorted (hmore ▸ .refl _) hcame,
    hafter (List.subset_append_left done more) (List.subset_append_right done more), fun d => ?_⟩
  rw [List.map_append, List.mem_append, h.mem_done_iff, hmore, List.mem_filter, decide_eq_true_iff]
  constructor
  · rintro (⟨hd, hlt⟩ | ⟨hd, hnow⟩)
    · exact ⟨hd, by omega⟩
    · exact ⟨hd, by omega⟩
  · rintro ⟨hd, hlt⟩
    rcases Nat.lt_succ_iff_lt_or_eq.mp hlt with hlt | hnow
    · exact .inl ⟨hd, hlt⟩
    · exact .inr ⟨hd, hnow⟩

theorem Made.breaks (h : Made n duties done ts)
    (hsorted : duties.Pairwise fun d d' => d.index < d'.index)
    (hround : duties.filter (·.work.waits = n) = more.map Prod.fst ++ failing :: rest)
    (hcame : ∀ p ∈ more, p.1.Came (.ok p.2)) (hfailed : failing.Came (.error e)) :
    Breaks duties (done ++ more) failing e := by
  have hturn : InTurn (done ++ more) :=
    h.inTurn_append hsorted (hround ▸ List.sublist_append_left _ _) hcame
  have hmem : ∀ d, d ∈ duties ∧ d.work.waits = n ↔ d ∈ more.map Prod.fst ++ failing :: rest := by
    intro d
    rw [← hround, List.mem_filter, decide_eq_true_iff]
  obtain ⟨hfailing, hn⟩ := (hmem failing).mpr (by simp)
  -- within the round, the works before the failing one are the ones that were completed
  have hindex := hsorted.sublist (List.filter_sublist (p := fun d => decide (d.work.waits = n)))
  rw [hround, List.pairwise_append, List.pairwise_cons] at hindex
  obtain ⟨-, ⟨hafter, -⟩, hbefore⟩ := hindex
  have hdone : ∀ d, d ∈ (done ++ more).map Prod.fst ↔ d ∈ duties ∧ d.place < failing.place := by
    intro d
    rw [List.map_append, List.mem_append, h.mem_done_iff, Duty.place_lt_iff, hn]
    constructor
    · rintro (⟨hd, hlt⟩ | hd)
      · exact ⟨hd, .inl hlt⟩
      · obtain ⟨hd', hnow⟩ := (hmem d).mpr (List.mem_append_left _ hd)
        exact ⟨hd', .inr ⟨hnow, hbefore d hd failing List.mem_cons_self⟩⟩
    · rintro ⟨hd, hlt | ⟨hnow, hlt⟩⟩
      · exact .inl ⟨hd, hlt⟩
      · rcases List.mem_append.mp ((hmem d).mp ⟨hd, hnow⟩) with hd' | hd'
        · exact .inr hd'
        · rcases List.mem_cons.mp hd' with rfl | hd'
          · omega
          · have := hafter d hd'
            omega
  refine { hturn with mem := hfailing, failed := hfailed, mem_done_iff := hdone, least := ?_ }
  intro d hd hfails
  by_contra hlt
  obtain ⟨p, hp, rfl⟩ := List.mem_map.mp ((hdone d).mpr ⟨hd, not_le.mp hlt⟩)
  obtain ⟨w, hsucceeded⟩ := hturn.succeeded p hp
  obtain ⟨e', hfails⟩ := hfails w
  cases hsucceeded.symm.trans hfails

theorem answers_of_after {answers : List υ} (h : List.Forall₂ (After n done) duties ts)
    (ha : Task.answers? ts = some answers) :
    (∀ d ∈ duties, d.work.waits < n) ∧
      List.Forall₂ (fun d a => (d, a) ∈ done) duties answers := by
  induction h generalizing answers with
  | nil =>
    cases ha
    exact ⟨by simp, .nil⟩
  | @cons d t duties ts ht _ ih =>
    cases ht with
    | settled hlt hmem =>
      obtain ⟨others, hothers, rfl⟩ := Option.map_eq_some_iff.mp ha
      obtain ⟨hwaits, hanswers⟩ := ih hothers
      exact ⟨List.forall_mem_cons.mpr ⟨hlt, hwaits⟩, .cons hmem hanswers⟩
    | waiting _ => cases ha

theorem Made.joined {answers : List υ} (h : Made n duties done ts)
    (hsorted : duties.Pairwise fun d d' => d.index < d'.index)
    (ha : Task.answers? ts = some answers) : Joined duties done answers := by
  obtain ⟨hwaits, hanswers⟩ := answers_of_after h.tasks ha
  refine { h.toInTurn with all := ?_, answers_eq := hanswers }
  have hnodup : duties.Nodup := hsorted.imp fun hlt heq => hlt.ne (congrArg Duty.index heq)
  have hnodup' : (done.map Prod.fst).Nodup := by
    have hascending := h.ascending
    rw [List.pairwise_map] at hascending
    exact List.pairwise_map.mpr (hascending.imp fun hlt heq => hlt.ne (congrArg Duty.place heq))
  refine (List.perm_ext_iff_of_nodup hnodup' hnodup).mpr fun d => ?_
  rw [h.mem_done_iff]
  exact ⟨And.left, fun hd => ⟨hd, hwaits d hd⟩⟩

/-- What a join by the first failure comes to after `n` rounds, and what it films from there. -/
theorem Made.joinAll (h : Made n duties done ts)
    (hsorted : duties.Pairwise fun d d' => d.index < d'.index) (r : Filmed ω κ α ρ υ) :
    ∃ more : List (Duty ω ρ υ × υ),
      match LazyExpiry.joinAll .firstMet ts r with
      | .ok answers r' => r'.film = r.film ++ more.map completion ∧
          Joined duties (done ++ more) answers
      | .error e r' => ∃ failing, r'.film = r.film ++ (more.map completion ++
            [.finished failing.index failing.item (.error e)]) ∧
          Breaks duties (done ++ more) failing e := by
  induction ts, r using joinAll.induct .firstMet generalizing n done with
  | case1 ts r answers hs =>
    rw [joinAll_of_answers hs]
    exact ⟨[], by simp, (List.append_nil done).symm ▸ h.joined hsorted hs⟩
  | case2 ts r hn us r₁ hp ih =>
    obtain ⟨more, hfilm, hmade⟩ := h.round hsorted hp
    obtain ⟨others, hothers⟩ := ih hmade
    rw [joinAll_of_round hn hp]
    refine ⟨more ++ others, ?_⟩
    rw [List.append_assoc] at hothers
    rcases hj : LazyExpiry.joinAll .firstMet us r₁ with ⟨answers, r'⟩ | ⟨e, r'⟩ <;>
      rw [hj] at hothers
    · obtain ⟨hrest, hjoined⟩ := hothers
      exact ⟨by rw [hrest, hfilm, List.map_append, List.append_assoc], hjoined⟩
    · obtain ⟨failing, hrest, hbreaks⟩ := hothers
      refine ⟨failing, ?_, hbreaks⟩
      rw [hrest, hfilm, List.map_append]
      simp only [List.append_assoc]
  | case3 ts r hn e r₁ hp =>
    rw [joinAll_of_end hn hp]
    obtain ⟨more, failing, rest, hfilm, hround, hcame, hfailed⟩ := round_of_error h.tasks hp
    exact ⟨more, failing, hfilm, h.breaks hsorted hround hcame hfailed⟩

end Joins

/-! ## Pages -/

section Pages

variable {callback : Nat → ρ → ω → Deferred ω υ × ω} {index : Nat} {calls : List (ρ × Nat)}
  {duties : List (Duty ω ρ υ)}

theorem LeftBy.sorted (h : LeftBy callback index calls duties) :
    (∀ d ∈ duties, index ≤ d.index) ∧ duties.Pairwise fun d d' => d.index < d'.index := by
  induction h with
  | nil => exact ⟨by simp, .nil⟩
  | cons _ ih =>
    obtain ⟨hle, hsorted⟩ := ih
    exact ⟨List.forall_mem_cons.mpr ⟨Nat.le_refl _, fun d hd => Nat.le_of_succ_le (hle d hd)⟩,
      .cons (fun d hd => hle d hd) hsorted⟩

/-- Nothing has been done for works that have not been polled. -/
theorem made_start (duties : List (Duty ω ρ υ)) :
    Made (κ := κ) (α := α) 0 duties [] (duties.map Duty.task) := by
  refine ⟨⟨.nil, by simp⟩, ?_, by simp⟩
  rw [List.forall₂_map_right_iff]
  exact List.forall₂_same.mpr fun d _ => .waiting (Nat.zero_add _).symm

/-- The works of a page are joined, up to the first that fails. -/
inductive ClosesAtFirst (callback : Nat → ρ → ω → Deferred ω υ × ω) : Closing ω κ α ρ υ where
  | joined {index : Nat} {calls : List (ρ × Nat)} {duties : List (Duty ω ρ υ)}
    {done : List (Duty ω ρ υ × υ)} {answers : List υ} :
    LeftBy callback index calls duties → Joined duties done answers →
    ClosesAtFirst callback index calls (.joining (calls.map Prod.snd) :: done.map completion)
      (.ok answers)
  | broken {index : Nat} {calls : List (ρ × Nat)} {duties : List (Duty ω ρ υ)}
    {done : List (Duty ω ρ υ × υ)} {failing : Duty ω ρ υ} {e : StoreError} :
    LeftBy callback index calls duties → Breaks duties done failing e →
    ClosesAtFirst callback index calls
      (.joining (calls.map Prod.snd) :: (done.map completion ++
        [.finished failing.index failing.item (.error e)])) (.error e)

/-- A join by the first failure closes a page so. -/
theorem closesAtFirst_joinAll {rule : Nat → JoinRule} (h : LeftBy callback index calls duties)
    (hrule : rule duties.length = .firstMet) (r : Filmed ω κ α ρ υ) : ∃ closing,
      (Filmed.joinAll rule (duties.map Duty.task) r).world.film = r.film ++ closing ∧
      ClosesAtFirst callback index calls closing
        (Filmed.joinAll rule (duties.map Duty.task) r).outcome := by
  have hwaits : (duties.map (Duty.task (κ := κ) (α := α))).map Task.waits = calls.map Prod.snd :=
    h.left.waits_eq
  obtain ⟨done, hdone⟩ := (made_start duties).joinAll h.sorted.2
    (r.shoot r.world (.joining (calls.map Prod.snd)))
  rw [Filmed.joinAll, hwaits, List.length_map, hrule]
  rcases hj : LazyExpiry.joinAll .firstMet (duties.map Duty.task)
    (r.shoot r.world (.joining (calls.map Prod.snd))) with ⟨answers, r'⟩ | ⟨e, r'⟩ <;>
    rw [hj] at hdone
  · obtain ⟨hfilm, hjoined⟩ := hdone
    refine ⟨_, ?_, .joined h hjoined⟩
    rw [Result.world_ok, hfilm, Filmed.film_shoot, List.append_assoc]
    rfl
  · obtain ⟨failing, hfilm, hbreaks⟩ := hdone
    refine ⟨_, ?_, .broken h hbreaks⟩
    rw [Result.world_error, hfilm, Filmed.film_shoot, List.append_assoc]
    rfl

end Pages

/-! ## Passes -/

section Passes

variable [PageSource (π × ω) κ (Stamped α)] {project : κ → Option α → ρ} {limit : Nat}
  {callback : Nat → ρ → ω → Deferred ω υ × ω} {source : π} {index : Nat}
  {reels : List (Reel ω κ α ρ υ)} {outcome : Except StoreError (Option (List υ))}

/-- What closes a page on the film of a pass may be replaced by what follows from it. -/
theorem Collects.imp {Closes Closes' : Closing ω κ α ρ υ}
    (h : Collects project Closes limit source index reels outcome)
    (himp : ∀ index calls closing outcome, (∀ event ∈ closing, event ∈ reels.flatMap Reel.film) →
      Closes index calls closing outcome → Closes' index calls closing outcome) :
    Collects project Closes' limit source index reels outcome := by
  induction h with
  | limit => exact .limit
  | ended hn => exact .ended hn
  | failed hn => exact .failed hn
  | page hn hlooks hclose _ ih =>
    rw [List.flatMap_cons] at himp
    refine .page hn hlooks (himp _ _ _ _ (fun event hevent => ?_) hclose)
      (ih fun _ _ _ _ hmem => himp _ _ _ _ fun event hevent =>
        List.mem_append_right _ (hmem event hevent))
    exact List.mem_append_left _ (List.mem_cons_of_mem _ (List.mem_cons_of_mem _
      (List.mem_append_right _ hevent)))
  | broken hn hlooks hclose =>
    rw [List.flatMap_singleton] at himp
    refine .broken hn hlooks (himp _ _ _ _ (fun event hevent => ?_) hclose)
    exact List.mem_cons_of_mem _ (List.mem_cons_of_mem _ (List.mem_append_right _ hevent))

end Passes

end PagedEntries

/-! ## The end of a film -/

/-- The failure that was answered. -/
def PagedEvent.failure? : PagedEvent ω κ α ρ υ → Option StoreError
  | requested _ (.error e) => some e
  | finished _ _ (.error e) => some e
  | _ => none

/-- The film shows no failure if that came to an answer. Otherwise the first failure it shows
is its end, and is what that came to. -/
def EndsBy {τ : Type} (film : List (PagedEvent ω κ α ρ υ)) : Except StoreError τ → Prop
  | .ok _ => ∀ event ∈ film, event.failure? = none
  | .error e => ∃ past failure, film = past ++ [failure] ∧ failure.failure? = some e ∧
      ∀ event ∈ past, event.failure? = none

section Ends

variable {τ : Type} {front film : List (PagedEvent ω κ α ρ υ)} {outcome : Except StoreError τ}

theorem endsBy_singleton {failure : PagedEvent ω κ α ρ υ} {e : StoreError}
    (h : failure.failure? = some e) : EndsBy [failure] (.error e : Except StoreError τ) :=
  ⟨[], failure, rfl, h, by simp⟩

theorem EndsBy.append (h : EndsBy film outcome) (hfront : ∀ event ∈ front, event.failure? = none) :
    EndsBy (front ++ film) outcome := by
  rcases outcome with e | a
  · obtain ⟨past, failure, rfl, hfailure, hpast⟩ := h
    exact ⟨front ++ past, failure, (List.append_assoc ..).symm, hfailure,
      List.forall_mem_append.mpr ⟨hfront, hpast⟩⟩
  · exact List.forall_mem_append.mpr ⟨hfront, h⟩

theorem EndsBy.cons {event : PagedEvent ω κ α ρ υ} (h : EndsBy film outcome)
    (hevent : event.failure? = none) : EndsBy (event :: film) outcome :=
  h.append (List.forall_mem_singleton.mpr hevent)

theorem EndsBy.map {τ' : Type} (h : EndsBy film outcome) (f : τ → τ') :
    EndsBy film (outcome.map f) := by
  rcases outcome with e | a <;> exact h

theorem EndsBy.exists_ok_iff (h : EndsBy film outcome) :
    (∃ a, outcome = .ok a) ↔ ∀ event ∈ film, event.failure? = none := by
  rcases outcome with e | a
  · obtain ⟨past, failure, rfl, hfailure, -⟩ := h
    refine ⟨?_, fun hgood => ?_⟩
    · rintro ⟨_, ⟨⟩⟩
    · rw [hgood failure (by simp)] at hfailure
      cases hfailure
  · exact ⟨fun _ => h, fun _ => ⟨a, rfl⟩⟩

theorem EndsBy.exists_error_iff (h : EndsBy film outcome) :
    (∃ e, outcome = .error e) ↔ ∃ event ∈ film, event.failure?.isSome := by
  rcases outcome with e | a
  · obtain ⟨past, failure, rfl, hfailure, -⟩ := h
    exact ⟨fun _ => ⟨failure, by simp, by simp [hfailure]⟩, fun _ => ⟨e, rfl⟩⟩
  · constructor
    · rintro ⟨_, ⟨⟩⟩
    · rintro ⟨event, hevent, hsome⟩
      rw [h event hevent] at hsome
      cases hsome

end Ends

namespace PagedEntries

theorem failure?_of_lookFilm (project : κ → Option α → ρ) (index : Nat) (looks : List (Look κ α)) :
    ∀ event ∈ (lookFilm project index looks : List (PagedEvent ω κ α ρ υ)),
      event.failure? = none := by
  intro event hevent
  rcases mem_lookFilm hevent with ⟨_, _, _, rfl⟩ | ⟨_, _, _, rfl⟩ <;> rfl

theorem failure?_of_completions (done : List (Duty ω ρ υ × υ)) :
    ∀ event ∈ (done.map completion : List (PagedEvent ω κ α ρ υ)), event.failure? = none := by
  intro event hevent
  obtain ⟨p, -, rfl⟩ := List.mem_map.mp hevent
  rfl

variable {callback : Nat → ρ → ω → Deferred ω υ × ω} {index : Nat}

theorem ClosesAtFirst.endsBy {calls : List (ρ × Nat)} {closing : List (PagedEvent ω κ α ρ υ)}
    {outcome : Except StoreError (List υ)}
    (h : ClosesAtFirst callback index calls closing outcome) : EndsBy closing outcome := by
  cases h with
  | @joined _ _ _ done answers _ _ =>
    have hdone : EndsBy (done.map completion : List (PagedEvent ω κ α ρ υ)) (.ok answers) :=
      failure?_of_completions done
    exact hdone.cons rfl
  | @broken _ _ _ done failing e _ _ =>
    exact ((endsBy_singleton rfl).append (failure?_of_completions done)).cons rfl

/-- A pass that is ended by the first failure comes to the first failure on its film. -/
theorem Collects.endsBy [PageSource (π × ω) κ (Stamped α)] {project : κ → Option α → ρ}
    {limit : Nat} {source : π} {reels : List (Reel ω κ α ρ υ)}
    {outcome : Except StoreError (Option (List υ))}
    (h : Collects project (ClosesAtFirst callback) limit source index reels outcome) :
    EndsBy (reels.flatMap Reel.film) outcome := by
  induction h with
  | limit => simp [EndsBy]
  | ended _ => simp [EndsBy, Reel.film, PagedEvent.failure?]
  | failed _ => exact endsBy_singleton rfl
  | @page _ _ index _ _ _ _ looks _ _ _ _ _ _ hclose _ ih =>
    have hreel := hclose.endsBy.append (failure?_of_lookFilm project index looks)
    refine (ih.append (List.forall_mem_cons.mpr ⟨rfl, List.forall_mem_cons.mpr ⟨rfl, ?_⟩⟩)).map _
    exact hreel
  | @broken _ _ index _ _ _ _ looks _ _ _ _ hclose =>
    rw [List.flatMap_singleton]
    have hreel := hclose.endsBy.append (failure?_of_lookFilm project index looks)
    exact ((EndsBy.cons hreel rfl).cons rfl).map some

end PagedEntries

/-- How often the works of a join wait that begins. -/
def PagedEvent.joined? : PagedEvent ω κ α ρ υ → Option (List Nat)
  | joining waits => some waits
  | _ => none

namespace Collection

open PagedEntries

variable [Context ω] [PageSource (π × ω) κ (Stamped α)]

/-- The joins of the pass are ended by the first failure they meet. -/
def EndsAtFirst (c : Collection ω π κ α ρ υ) : Prop :=
  ∀ waits ∈ c.film.filterMap PagedEvent.joined?, c.rule waits.length = .firstMet

/-- A pass that is ended by the first failure goes on page by page. It gives all live items of a
page to the callback and completes the works in the order of their places, up to the first that
fails, before it asks for the next page. It fails if and only if a page or a work does that
it came to, with that failure, which is the last thing it came to. If nothing fails and the source
ends by its limit, then it is over by then, and a higher limit makes no difference. -/
theorem fails_at_first {c : Collection ω π κ α ρ υ} (hrule : c.EndsAtFirst) :
    c.filmed.mapWorld Filmed.world = c.result ∧
      c.film = (reelsOf c.film).flatMap Reel.film ∧
      Collects c.project (ClosesAtFirst c.callback) c.limit c.source 0 (reelsOf c.film)
        c.result.outcome ∧
      EndsBy c.film c.result.outcome ∧
      ((∃ e, c.result.outcome = .error e) ↔ ∃ event ∈ c.film, event.failure?.isSome) ∧
      Limited c.limit c.source (reelsOf c.film) c.result.outcome ∧
      (c.result.outcome ≠ .ok none → ∀ {limit}, c.limit ≤ limit →
        { c with limit }.filmed = c.filmed) := by
  -- a page closes as any join does, and by the first failure if that is the rule
  let Closes : Closing ω κ α ρ υ := fun index calls closing outcome =>
    JoinCloses index calls closing outcome ∧
      (c.rule calls.length = .firstMet → ClosesAtFirst c.callback index calls closing outcome)
  have hclose : JoinsClose c.rule c.callback Closes := by
    intro index calls duties r hleft
    obtain ⟨closing, hfilm, hjoin⟩ := joinsClose_joinCloses c.rule c.callback _ _ duties r hleft
    refine ⟨closing, hfilm, hjoin, fun hfirst => ?_⟩
    obtain ⟨closing', hfilm', hfirst⟩ := closesAtFirst_joinAll hleft (hleft.length_eq ▸ hfirst) r
    obtain rfl : closing = closing' := List.append_cancel_left (hfilm.symm.trans hfilm')
    exact hfirst
  have hwith : ClosesWithWork Closes := fun h => joinCloses_withWork h.1
  obtain ⟨reels, hfilm, hreels, hcollects⟩ := collects_collectFilmed hwith hclose c.toPagedEntries
    c.limit c.world
  have hfilm : c.film = reels.flatMap Reel.film := hfilm
  have hreels : reelsOf c.film = reels := hreels
  have hfirst : Collects c.project (ClosesAtFirst c.callback) c.limit c.source 0 reels
      c.result.outcome := by
    refine hcollects.imp fun index calls closing outcome hmem h => h.2 ?_
    have hjoining : .joining (calls.map Prod.snd) ∈ closing := by
      cases h.1 <;> exact List.mem_cons_self
    have hends := hrule (calls.map Prod.snd)
      (List.mem_filterMap.mpr ⟨_, hfilm ▸ hmem _ hjoining, rfl⟩)
    rwa [List.length_map] at hends
  have hend : EndsBy c.film c.result.outcome := hfilm ▸ hfirst.endsBy
  exact ⟨c.filmed_world, by rw [hreels, hfilm], hreels ▸ hfirst, hend, hend.exists_error_iff,
    hreels ▸ hfirst.unfolds.limited, filmed_of_le⟩

/-- Works for two items of one page which both fail, that for the first item later. -/
def quarrel : Collection (World Nat Nat) (Memory.Pages Nat) Nat Nat (Nat × Option Nat) Unit where
  source := { pageSize := .ofNat 3 }
  project := Prod.mk
  rule := JoinRule.ofCount
  limit := 5
  callback index item w :=
    ({ waits := 1 - index, finish := fun w => .error (.callback (toString item.1)) w }, w)
  world := World.patchy

/-- The failure of the work for the second item is what the pass comes to. -/
theorem fails_at_first_quarrel : quarrel.EndsAtFirst ∧
    quarrel.result.outcome = .error (.callback "3") ∧
    EndsBy quarrel.film quarrel.result.outcome := by
  have hrule : quarrel.EndsAtFirst := by unfold EndsAtFirst; decide +kernel
  obtain ⟨-, -, -, hend, -, -, -⟩ := fails_at_first hrule
  exact ⟨hrule, by decide +kernel, hend⟩

end Collection

end LazyExpiry
