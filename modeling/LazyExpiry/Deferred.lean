import LazyExpiry.Action

/-!
# Deferred work

A call to an asynchronous store takes effect in two moments : when it is made, and when
the work it left is completed. `Deferred ω α` is that work. It may have to be polled a
number of times in vain (`waits`) ; the poll after those runs `finish`, which is the one
moment at which it looks at the world or changes it. Work that is dropped before that has
done nothing.

`joinAll` completes a list of such works together. It polls them in rounds, each round in
the order of the list (`pollAll`), and answers the results in the order of the list. When
works fail, a `JoinRule` says which failure ends the join, after which nothing more is
polled : the first one met, or the first one in the list, for which all works before it
have to succeed. The rule goes by the number of works (`JoinRule.ofCount`). Every round
brings down the number of polls still needed (`pollsLeft_pollAll`).
-/

namespace LazyExpiry

/-- Work to be completed later. -/
structure Deferred (ω α : Type) where
  /-- Polls that find the work unfinished. -/
  waits : Nat := 0
  /-- What the poll after those does. -/
  finish : Action ω α

variable {ω σ α β : Type}

namespace Deferred

/-- Work that fails without touching the world. -/
def failed (e : StoreError) : Deferred ω α := { finish := fun w => .error e w }

/-- The same work with another answer. -/
def map (f : α → β) (d : Deferred ω α) : Deferred ω β :=
  { waits := d.waits, finish := fun w => (d.finish w).map f }

/-- The same work in a larger world. -/
def focus (view : ω → σ) (put : σ → ω → ω) (d : Deferred σ α) : Deferred ω α :=
  { waits := d.waits, finish := Action.focus view put d.finish }

/-- Completes the work now. -/
def await (d : Deferred ω α) : Action ω α := d.finish

end Deferred

/-! ## Joining -/

/-- Which failure ends a join. -/
inductive JoinRule where
  /-- The first failure met. -/
  | firstMet
  /-- The first failure in the list, once all works before it have succeeded. -/
  | firstListed
  deriving DecidableEq

namespace JoinRule

/-- The rule for joining `n` works : up to thirty are given up at the first failure met. -/
def ofCount (n : Nat) : JoinRule := if n ≤ 30 then firstMet else firstListed

/-- Whether a failure ends the join, given whether all works before it have succeeded. -/
def ends : JoinRule → (succeeded : Bool) → Bool
  | firstMet, _ => true
  | firstListed, succeeded => succeeded

@[simp] theorem ends_firstMet (succeeded : Bool) : firstMet.ends succeeded = true := rfl

@[simp] theorem ends_firstListed (succeeded : Bool) :
    firstListed.ends succeeded = succeeded := rfl

/-- A failure with only successes before it ends a join by either rule. -/
@[simp] theorem ends_true (rule : JoinRule) : rule.ends true = true := by
  cases rule <;> rfl

end JoinRule

/-- One of several works that are completed together. -/
inductive Task (ω α : Type) where
  /-- Completed. -/
  | settled (answer : α)
  /-- Failed, which has not ended the join so far. -/
  | failed (error : StoreError)
  /-- Still to be polled. -/
  | waiting (work : Deferred ω α)

namespace Task

/-- What became of a task. -/
def ofResult : Result ω α → Task ω α × ω
  | .ok a w => (settled a, w)
  | .error e w => (failed e, w)

/-- Polls a task once ; one that is settled or has failed is left alone. -/
def poll : Task ω α → ω → Task ω α × ω
  | settled a, w => (settled a, w)
  | failed e, w => (failed e, w)
  | waiting ⟨0, finish⟩, w => ofResult (finish w)
  | waiting ⟨n + 1, finish⟩, w => (waiting ⟨n, finish⟩, w)

/-- One round : polls every task in order, up to a failure that ends the join. Whether all
tasks before the list have succeeded is given. -/
def pollAll (rule : JoinRule) :
    (succeeded : Bool) → List (Task ω α) → Action ω (List (Task ω α))
  | _, [], w => .ok [] w
  | succeeded, t :: ts, w =>
    let polled := t.poll w
    match polled.1 with
    | settled a => (pollAll rule succeeded ts polled.2).map (settled a :: ·)
    | waiting d => (pollAll rule false ts polled.2).map (waiting d :: ·)
    | failed e =>
      if rule.ends succeeded then .error e polled.2
      else (pollAll rule false ts polled.2).map (failed e :: ·)

/-- The answers, once every task is settled. -/
def answers? : List (Task ω α) → Option (List α)
  | [] => some []
  | settled a :: ts => (answers? ts).map (a :: ·)
  | failed _ :: _ => none
  | waiting _ :: _ => none

/-- Polls still needed to complete every task. -/
def pollsLeft : List (Task ω α) → Nat
  | [] => 0
  | settled _ :: ts => pollsLeft ts
  | failed _ :: ts => pollsLeft ts
  | waiting d :: ts => d.waits + 1 + pollsLeft ts

theorem pollsLeft_cons (t : Task ω α) (ts : List (Task ω α)) :
    pollsLeft (t :: ts) = pollsLeft [t] + pollsLeft ts := by
  cases t <;> simp [pollsLeft]

theorem pollsLeft_poll (t : Task ω α) (w : ω) :
    pollsLeft [(t.poll w).1] = pollsLeft [t] - 1 := by
  match t with
  | settled _ => rfl
  | failed _ => rfl
  | waiting ⟨0, finish⟩ =>
    simp only [poll]
    cases finish w <;> rfl
  | waiting ⟨_ + 1, _⟩ => rfl

/-- A round that does not end the join polls the first task and goes on with the others. A
first task that is settled changes nothing for them, and one that has failed did not end
the join. -/
theorem pollAll_cons_eq_ok {rule : JoinRule} {succeeded : Bool} {t : Task ω α}
    {ts us : List (Task ω α)} {w w' : ω} (h : pollAll rule succeeded (t :: ts) w = .ok us w') :
    ∃ succeeded' ts', pollAll rule succeeded' ts (t.poll w).2 = .ok ts' w' ∧
      us = (t.poll w).1 :: ts' ∧ (∀ a, (t.poll w).1 = settled a → succeeded' = succeeded) ∧
      (∀ e, (t.poll w).1 = failed e → rule.ends succeeded = false) := by
  unfold pollAll at h
  dsimp only at h
  split at h
  · rename_i a hp
    obtain ⟨ts', hts, rfl⟩ := Result.map_eq_ok_iff.mp h
    exact ⟨succeeded, ts', hts, by rw [hp], fun _ _ => rfl, by simp [hp]⟩
  · rename_i d hp
    obtain ⟨ts', hts, rfl⟩ := Result.map_eq_ok_iff.mp h
    exact ⟨false, ts', hts, by rw [hp], by simp [hp], by simp [hp]⟩
  · rename_i e hp
    split at h
    · cases h
    · rename_i hends
      obtain ⟨ts', hts, rfl⟩ := Result.map_eq_ok_iff.mp h
      exact ⟨false, ts', hts, by rw [hp], by simp [hp], fun _ _ => by simpa using hends⟩

/-- A round that ends the join does so with a failure that a task met, there or before. A first
task that has failed did not end the join if a later one does. -/
theorem pollAll_cons_eq_error {rule : JoinRule} {succeeded : Bool} {t : Task ω α}
    {ts : List (Task ω α)} {w w' : ω} {e : StoreError}
    (h : pollAll rule succeeded (t :: ts) w = .error e w') : t.poll w = (failed e, w') ∨
      (∀ e', (t.poll w).1 = failed e' → rule.ends succeeded = false) ∧
        ∃ succeeded', pollAll rule succeeded' ts (t.poll w).2 = .error e w' := by
  unfold pollAll at h
  dsimp only at h
  split at h
  · rename_i a hp
    exact .inr ⟨by simp [hp], succeeded, Result.map_eq_error_iff.mp h⟩
  · rename_i d hp
    exact .inr ⟨by simp [hp], false, Result.map_eq_error_iff.mp h⟩
  · rename_i e' hp
    split at h
    · rw [Result.error.injEq] at h
      exact .inl (Prod.ext (hp.trans (congrArg failed h.1)) h.2)
    · rename_i hends
      exact .inr ⟨fun _ _ => by simpa using hends, false, Result.map_eq_error_iff.mp h⟩

theorem pollsLeft_pollAll_le {rule : JoinRule} :
    ∀ {succeeded : Bool} {ts us : List (Task ω α)} {w w' : ω},
      pollAll rule succeeded ts w = .ok us w' → pollsLeft us ≤ pollsLeft ts
  | _, [], _, _, _, h => by
    cases h
    exact Nat.le_refl _
  | _, t :: ts, _, w, _, h => by
    obtain ⟨_, ts', hts, rfl, -, -⟩ := pollAll_cons_eq_ok h
    have h₁ := pollsLeft_poll t w
    have h₂ := pollsLeft_pollAll_le hts
    rw [pollsLeft_cons t, pollsLeft_cons (t.poll w).1]
    omega

/-- A round over tasks that are not all settled ends the join or brings it nearer to its
end. -/
theorem pollsLeft_pollAll {rule : JoinRule} :
    ∀ {ts us : List (Task ω α)} {w w' : ω}, answers? ts = none →
      pollAll rule true ts w = .ok us w' → pollsLeft us < pollsLeft ts
  | [], _, _, _, hn, _ => by cases hn
  | t :: ts, _, w, _, hn, h => by
    obtain ⟨_, ts', hts, rfl, hsettled, hfailed⟩ := pollAll_cons_eq_ok h
    have h₁ := pollsLeft_poll t w
    rw [pollsLeft_cons t, pollsLeft_cons (t.poll w).1]
    match t with
    | settled a =>
      rw [hsettled a rfl] at hts
      have h₂ := pollsLeft_pollAll (by simpa [answers?] using hn) hts
      omega
    | failed e =>
      have := hfailed e rfl
      simp at this
    | waiting d =>
      have h₂ := pollsLeft_pollAll_le hts
      have h₃ : 0 < pollsLeft [(waiting d : Task ω α)] := by simp [pollsLeft]
      omega

end Task

/-- Completes tasks together, round by round, and answers their results in order. -/
def joinAll (rule : JoinRule) (ts : List (Task ω α)) (w : ω) : Result ω (List α) :=
  match _hs : Task.answers? ts with
  | some answers => .ok answers w
  | none =>
    match _hp : Task.pollAll rule true ts w with
    | .ok ts' w' => joinAll rule ts' w'
    | .error e w' => .error e w'
termination_by Task.pollsLeft ts
decreasing_by exact Task.pollsLeft_pollAll _hs _hp

variable {rule : JoinRule} {ts : List (Task ω α)} {w : ω}

theorem joinAll_eq (rule : JoinRule) (ts : List (Task ω α)) (w : ω) :
    joinAll rule ts w =
      match Task.answers? ts with
      | some answers => .ok answers w
      | none =>
        match Task.pollAll rule true ts w with
        | .ok ts' w' => joinAll rule ts' w'
        | .error e w' => .error e w' := by
  rw [joinAll]
  split <;> rename_i hs
  · rw [hs]
  · rw [hs]
    split <;> rename_i hp <;> rw [hp]

theorem joinAll_of_answers {answers : List α} (h : Task.answers? ts = some answers) :
    joinAll rule ts w = .ok answers w := by
  rw [joinAll_eq, h]

theorem joinAll_of_round (hn : Task.answers? ts = none) {ts' : List (Task ω α)} {w' : ω}
    (h : Task.pollAll rule true ts w = .ok ts' w') : joinAll rule ts w = joinAll rule ts' w' := by
  rw [joinAll_eq, hn, h]

theorem joinAll_of_end (hn : Task.answers? ts = none) {e : StoreError} {w' : ω}
    (h : Task.pollAll rule true ts w = .error e w') : joinAll rule ts w = .error e w' := by
  rw [joinAll_eq, hn, h]

end LazyExpiry
