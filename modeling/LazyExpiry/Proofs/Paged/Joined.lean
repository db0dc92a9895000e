import Mathlib.Data.List.Basic
import LazyExpiry.Proofs.Paged.Film

/-!
# Works that are completed together, on film

A join polls its works round by round, and which of them is completed first is a matter of
how long they wait. What holds after every round is that the film shows just the tasks
that are done, in some order (`perm_doneFrom_pollAll`). So when the join comes to its answers, the
film shows every work completed, each once (`completed_of_joinAll`), and when it fails,
the film shows the work that failed (`failed_of_joinAll`).
-/

namespace LazyExpiry

variable {ω κ α ρ υ : Type}

/-- The completion of a work. -/
def PagedEvent.isFinished : PagedEvent ω κ α ρ υ → Bool
  | finished .. => true
  | _ => false

/-- The beginning of a join, or the completion of a work. -/
def PagedEvent.isClosing : PagedEvent ω κ α ρ υ → Bool
  | joining _ => true
  | event => event.isFinished

theorem PagedEvent.isClosing_of_isFinished {event : PagedEvent ω κ α ρ υ}
    (h : event.isFinished = true) : event.isClosing = true := by
  unfold isClosing
  split
  · rfl
  · exact h

/-- Works for these items that were completed with these answers, in their order. The first
item came after `index` others. -/
def completions : Nat → List ρ → List υ → List (PagedEvent ω κ α ρ υ)
  | index, item :: items, answer :: answers =>
    .finished index item (.ok answer) :: completions (index + 1) items answers
  | _, _, _ => []

theorem mem_completions {event : PagedEvent ω κ α ρ υ} :
    ∀ {index : Nat} {items : List ρ} {answers : List υ}, event ∈ completions index items answers →
      ∃ index item answer, event = .finished index item (.ok answer)
  | _, [], _, h => by cases h
  | _, _ :: _, [], h => by cases h
  | _, _ :: _, _ :: _, h => by
    rcases List.mem_cons.mp h with rfl | h
    · exact ⟨_, _, _, rfl⟩
    · exact mem_completions h

namespace Task

/-- What is filmed of a task that is done. -/
def done (index : Nat) (item : ρ) : Task (Filmed ω κ α ρ υ) υ → List (PagedEvent ω κ α ρ υ)
  | settled answer => [.finished index item (.ok answer)]
  | failed e => [.finished index item (.error e)]
  | waiting _ => []

/-- A task that is still to be done is work for the item after `index` others. -/
def WorksOn (index : Nat) (item : ρ) : Task (Filmed ω κ α ρ υ) υ → Prop
  | waiting d => ∃ work, d = Filmed.ofWork index item work
  | _ => True

variable {index : Nat} {item : ρ} {items : List ρ} {t : Task (Filmed ω κ α ρ υ) υ}
  {ts us : List (Task (Filmed ω κ α ρ υ) υ)} {r r' : Filmed ω κ α ρ υ}

/-- What a poll films is the completion, if there is one. -/
theorem WorksOn.poll (h : t.WorksOn index item) (r : Filmed ω κ α ρ υ) :
    (t.poll r).1.WorksOn index item ∧ ∃ events, (t.poll r).2.film = r.film ++ events ∧
      (t.poll r).1.done index item = t.done index item ++ events ∧
      ∀ event ∈ events, event.isFinished = true := by
  match t with
  | settled _ => exact ⟨trivial, [], by simp [Task.poll], by simp [Task.poll], by simp⟩
  | failed _ => exact ⟨trivial, [], by simp [Task.poll], by simp [Task.poll], by simp⟩
  | waiting ⟨0, finish⟩ =>
    obtain ⟨work, hwork⟩ := h
    obtain rfl : finish = (Filmed.ofWork index item work).finish := congrArg Deferred.finish hwork
    simp only [Task.poll, Filmed.ofWork]
    rcases work.finish r.world with ⟨a, w⟩ | ⟨e, w⟩
    · exact ⟨trivial, _, rfl, rfl, by simp [PagedEvent.isFinished]⟩
    · exact ⟨trivial, _, rfl, rfl, by simp [PagedEvent.isFinished]⟩
  | waiting ⟨n + 1, finish⟩ =>
    obtain ⟨⟨waits, work⟩, hwork⟩ := h
    obtain rfl : finish = (Filmed.ofWork index item ⟨waits, work⟩).finish :=
      congrArg Deferred.finish hwork
    exact ⟨⟨⟨n, work⟩, rfl⟩, [], by simp [Task.poll], rfl, by simp⟩

/-- The tasks are works for these items, of which the first came after `index` others. -/
inductive WorkOn : Nat → List ρ → List (Task (Filmed ω κ α ρ υ) υ) → Prop where
  | nil {index : Nat} : WorkOn index [] []
  | cons {index : Nat} {item : ρ} {items : List ρ} {t : Task (Filmed ω κ α ρ υ) υ}
    {ts : List (Task (Filmed ω κ α ρ υ) υ)} : t.WorksOn index item →
    WorkOn (index + 1) items ts → WorkOn index (item :: items) (t :: ts)

/-- What is filmed of the tasks that are done. -/
def doneFrom : Nat → List ρ → List (Task (Filmed ω κ α ρ υ) υ) → List (PagedEvent ω κ α ρ υ)
  | index, item :: items, t :: ts => t.done index item ++ doneFrom (index + 1) items ts
  | _, _, _ => []

/-- A round films what it adds to the tasks that are done. -/
theorem perm_doneFrom_pollAll {rule : JoinRule} {succeeded : Bool} (h : WorkOn index items ts)
    (hr : pollAll rule succeeded ts r = .ok us r') : WorkOn index items us ∧
      ∃ events, r'.film = r.film ++ events ∧
        (doneFrom index items us).Perm (doneFrom index items ts ++ events) ∧
        ∀ event ∈ events, event.isFinished = true := by
  induction h generalizing succeeded us r with
  | nil =>
    cases hr
    exact ⟨.nil, [], by simp, by simp [doneFrom], by simp⟩
  | @cons index item items t ts ht _ ih =>
    obtain ⟨succeeded', us', hus', rfl, -, -⟩ := pollAll_cons_eq_ok hr
    obtain ⟨hpolled, events, hfilm, hdone, hevents⟩ := ht.poll r
    obtain ⟨hothers, events', hfilm', hperm, hevents'⟩ := ih hus'
    refine ⟨.cons hpolled hothers, events ++ events', by rw [hfilm', hfilm, List.append_assoc], ?_,
      List.forall_mem_append.mpr ⟨hevents, hevents'⟩⟩
    rw [doneFrom, doneFrom, hdone, List.append_assoc, List.append_assoc]
    refine ((hperm.append_left events).append_left _).trans (List.Perm.append_left _ ?_)
    rw [← List.append_assoc, ← List.append_assoc]
    exact List.perm_append_comm.append_right events'

/-- A round that ends the join has filmed the failure of a work, or another one did before. -/
theorem failed_of_pollAll {rule : JoinRule} {succeeded : Bool} {e : StoreError}
    (h : WorkOn index items ts) (hr : pollAll rule succeeded ts r = .error e r') :
    ∃ events, r'.film = r.film ++ events ∧ (∀ event ∈ events, event.isFinished = true) ∧
      ∃ index' item, .finished index' item (.error e) ∈ doneFrom index items ts ++ events := by
  induction h generalizing succeeded r with
  | nil => cases hr
  | @cons index item items t ts ht _ ih =>
    obtain ⟨-, events, hfilm, hdone, hevents⟩ := ht.poll r
    rcases pollAll_cons_eq_error hr with hfailed | ⟨-, succeeded', hrest⟩
    · rw [hfailed] at hfilm hdone
      refine ⟨events, hfilm, hevents, index, item, ?_⟩
      have hmem : .finished index item (.error e) ∈ t.done index item ++ events :=
        hdone ▸ List.mem_singleton_self _
      exact (List.mem_append.mp hmem).elim
        (fun hmem => List.mem_append_left _ (List.mem_append_left _ hmem)) (List.mem_append_right _)
    · obtain ⟨events', hfilm', hevents', index', item', hmem⟩ := ih hrest
      refine ⟨events ++ events', by rw [hfilm', hfilm, List.append_assoc],
        List.forall_mem_append.mpr ⟨hevents, hevents'⟩, index', item', ?_⟩
      exact (List.mem_append.mp hmem).elim
        (fun hmem => List.mem_append_left _ (List.mem_append_right _ hmem))
        (fun hmem => List.mem_append_right _ (List.mem_append_right _ hmem))

theorem doneFrom_of_answers {answers : List υ} (h : WorkOn index items ts)
    (ha : answers? ts = some answers) :
    doneFrom index items ts = completions index items answers ∧ answers.length = items.length := by
  induction h generalizing answers with
  | nil =>
    cases ha
    exact ⟨rfl, rfl⟩
  | @cons index item items t ts _ _ ih =>
    match t with
    | settled a =>
      obtain ⟨others, hothers, rfl⟩ := Option.map_eq_some_iff.mp ha
      obtain ⟨hdone, hlength⟩ := ih hothers
      exact ⟨congrArg (PagedEvent.finished index item (.ok a) :: ·) hdone, congrArg (· + 1) hlength⟩
    | failed _ => cases ha
    | waiting _ => cases ha

/-- When a join comes to its answers, it has filmed the other works as completed, each once. -/
theorem completed_of_joinAll {rule : JoinRule} {answers : List υ} (h : WorkOn index items ts)
    (hr : joinAll rule ts r = .ok answers r') : answers.length = items.length ∧
      ∃ events, r'.film = r.film ++ events ∧
        (completions index items answers).Perm (doneFrom index items ts ++ events) := by
  induction ts, r using joinAll.induct rule with
  | case1 ts r answers' hs =>
    rw [joinAll_of_answers hs, Result.ok.injEq] at hr
    obtain ⟨rfl, rfl⟩ := hr
    obtain ⟨hdone, hlength⟩ := doneFrom_of_answers h hs
    exact ⟨hlength, [], by simp, by rw [hdone, List.append_nil]⟩
  | case2 ts r hn us r₁ hp ih =>
    rw [joinAll_of_round hn hp] at hr
    obtain ⟨hround, events, hfilm, hperm, -⟩ := perm_doneFrom_pollAll h hp
    obtain ⟨hlength, events', hfilm', hperm'⟩ := ih hround hr
    refine ⟨hlength, events ++ events', by rw [hfilm', hfilm, List.append_assoc], ?_⟩
    rw [← List.append_assoc]
    exact hperm'.trans (hperm.append_right events')
  | case3 ts r hn e r₁ hp =>
    rw [joinAll_of_end hn hp] at hr
    cases hr

/-- A join that fails has filmed completions, and the failure is that of a work. -/
theorem failed_of_joinAll {rule : JoinRule} {e : StoreError} (h : WorkOn index items ts)
    (hr : joinAll rule ts r = .error e r') :
    ∃ events, r'.film = r.film ++ events ∧ (∀ event ∈ events, event.isFinished = true) ∧
      ∃ index' item, .finished index' item (.error e) ∈ doneFrom index items ts ++ events := by
  induction ts, r using joinAll.induct rule with
  | case1 ts r answers' hs =>
    rw [joinAll_of_answers hs] at hr
    cases hr
  | case2 ts r hn us r₁ hp ih =>
    rw [joinAll_of_round hn hp] at hr
    obtain ⟨hround, events, hfilm, hperm, hevents⟩ := perm_doneFrom_pollAll h hp
    obtain ⟨events', hfilm', hevents', index', item, hmem⟩ := ih hround hr
    refine ⟨events ++ events', by rw [hfilm', hfilm, List.append_assoc],
      List.forall_mem_append.mpr ⟨hevents, hevents'⟩, index', item, ?_⟩
    rw [← List.append_assoc]
    exact (hperm.append_right events').mem_iff.mp hmem
  | case3 ts r hn e' r₁ hp =>
    rw [joinAll_of_end hn hp, Result.error.injEq] at hr
    obtain ⟨rfl, rfl⟩ := hr
    exact failed_of_pollAll h hp

end Task

end LazyExpiry
