import LazyExpiry.World
import LazyExpiry.Proofs.Paged.Film
import LazyExpiry.Proofs.Pass.Search

/-!
# What an expiring store asks of the store under it

`Overheard σ κ ν` is a world with a store in which every call on that store is written down,
with its arguments and its failure (`Heard`). What is written down is never read, so without
it an operation is the operation in the world as it was (`OneCall.plain_eq`,
`OneCallLater.mirrors`).

Every operation makes one call on the store, or leaves the work of one, and fails with the
failure of that call or not at all (`Direct.Transparent`, `Async.Transparent`). The exception
is whether a store that answers at once is empty : this opens one cursor and advances it past
expired entries up to the first other answer (`Direct.isEmpty?_scans`).
-/

namespace LazyExpiry

variable {σ κ ν α β γ δ π ρ : Type}

/-- The failure that was come to, if any. -/
def Result.failure? : Result σ β → Option StoreError
  | ok _ _ => none
  | error e _ => some e

@[simp] theorem Result.failure?_ok (b : β) (w : σ) : (ok b w).failure? = none := rfl

@[simp] theorem Result.failure?_error (e : StoreError) (w : σ) :
    (error e w : Result σ β).failure? = some e := rfl

@[simp] theorem Result.failure?_map {β' : Type} (r : Result σ β) (f : β → β') :
    (r.map f).failure? = r.failure? := by
  cases r <;> rfl

@[simp] theorem Result.failure?_mapWorld {σ' : Type} (r : Result σ β) (f : σ → σ') :
    (r.mapWorld f).failure? = r.failure? := by
  cases r <;> rfl

/-! ## Worlds with a store that is overheard -/

/-- A call on a store, on its cursors or on its page sources. -/
inductive StoreCall (κ ν : Type) where
  | get (key : κ)
  | put (key : κ) (value : ν)
  | putAll (batch : List (κ × ν))
  | remove (key : κ)
  | contains (key : κ)
  | isEmpty
  | clear
  | entries
  | advance
  | removeCurrent
  | nextPage

/-- Something heard of a store. -/
inductive Heard (κ ν : Type) where
  /-- A call was made and answered, with that failure if any. -/
  | answered (call : StoreCall κ ν) (failure : Option StoreError)
  /-- A call was made that leaves work. -/
  | made (call : StoreCall κ ν)
  /-- The work of a call was completed, with that failure if any. -/
  | completed (call : StoreCall κ ν) (failure : Option StoreError)

/-- A world with what was heard of its store, oldest first. -/
structure Overheard (σ κ ν : Type) where
  world : σ
  heard : List (Heard κ ν) := []

namespace Overheard

/-- One more thing heard. -/
def hear (t : Overheard σ κ ν) (w : σ) (h : Heard κ ν) : Overheard σ κ ν := ⟨w, t.heard ++ [h]⟩

@[simp] theorem world_hear (t : Overheard σ κ ν) (w : σ) (h : Heard κ ν) :
    (t.hear w h).world = w := rfl

@[simp] theorem heard_hear (t : Overheard σ κ ν) (w : σ) (h : Heard κ ν) :
    (t.hear w h).heard = t.heard ++ [h] := rfl

instance [Context σ] : Context (Overheard σ κ ν) where
  now t := ((Context.now t.world).1, ⟨(Context.now t.world).2, t.heard⟩)
  isLive writtenAt now t := ((Context.isLive writtenAt now t.world).1,
    ⟨(Context.isLive writtenAt now t.world).2, t.heard⟩)
  note event t := ⟨Context.note event t.world, t.heard⟩

/-- A call that is answered, made from something beside the world. -/
def answer (call : StoreCall κ ν) (x : Action (δ × σ) β) : Action (δ × Overheard σ κ ν) β :=
  fun s => (x (s.1, s.2.world)).mapWorld fun s' =>
    (s'.1, s.2.hear s'.2 (.answered call (x (s.1, s.2.world)).failure?))

/-- A call that is answered. -/
def ask (call : StoreCall κ ν) (x : Action σ β) : Action (Overheard σ κ ν) β := fun t =>
  (x t.world).mapWorld fun w => t.hear w (.answered call (x t.world).failure?)

/-- A call that leaves work. -/
def askLater (call : StoreCall κ ν) (x : σ → Deferred σ β × σ) (t : Overheard σ κ ν) :
    Deferred (Overheard σ κ ν) β × Overheard σ κ ν :=
  ({ waits := (x t.world).1.waits
     finish := fun r => ((x t.world).1.finish r.world).mapWorld fun w =>
       r.hear w (.completed call ((x t.world).1.finish r.world).failure?) },
    t.hear (x t.world).2 (.made call))

instance [Store σ κ ν γ] : Store (Overheard σ κ ν) κ ν γ where
  advance := answer .advance Cursor.advance
  removeCurrent := answer .removeCurrent Cursor.removeCurrent
  get key := ask (.get key) (Store.get key)
  put key value := ask (.put key value) (Store.put key value)
  putAll batch := ask (.putAll batch) (Store.putAll batch)
  remove key := ask (.remove key) (Store.remove key)
  contains key := ask (.contains key) (Store.contains key)
  isEmpty := ask .isEmpty Store.isEmpty
  clear := ask .clear Store.clear
  entries := ask .entries Store.entries

instance [AsyncStore σ κ ν π] : AsyncStore (Overheard σ κ ν) κ ν π where
  nextPage := answer .nextPage PageSource.nextPage
  get key := askLater (.get key) (AsyncStore.get key)
  put key value := askLater (.put key value) (AsyncStore.put key value)
  putAll batch := askLater (.putAll batch) (AsyncStore.putAll batch)
  remove key := askLater (.remove key) (AsyncStore.remove key)
  contains key := askLater (.contains key) (AsyncStore.contains key)
  isEmpty := askLater .isEmpty AsyncStore.isEmpty
  clear := askLater .clear AsyncStore.clear
  entries := askLater .entries AsyncStore.entries

end Overheard

/-! ## Operations of one call -/

/-- What is made of the end of a call on either side, without calling the store, and passes its
failure on. -/
structure PassesOn {β' : Type} (f : Result (Overheard σ κ ν) β → Result (Overheard σ κ ν) β')
    (f' : Result σ β → Result σ β') : Prop where
  plain_eq : ∀ r, (f r).mapWorld Overheard.world = f' (r.mapWorld Overheard.world)
  heard_eq : ∀ r, (f r).world.heard = r.world.heard
  failure_eq : ∀ r, (f r).failure? = r.failure?

theorem passesOn_map {β' : Type} (f : β → β') :
    PassesOn (σ := σ) (κ := κ) (ν := ν) (·.map f) (·.map f) where
  plain_eq r := Result.mapWorld_map r _ f
  heard_eq r := by rw [Result.world_map]
  failure_eq r := Result.failure?_map r f

theorem passesOn_bind {β' : Type} {g : β → Action (Overheard σ κ ν) β'} {g' : β → Action σ β'}
    (hplain : ∀ b t, (g b t).mapWorld Overheard.world = g' b t.world)
    (hheard : ∀ b t, (g b t).world.heard = t.heard) (hgood : ∀ b t, (g b t).failure? = none) :
    PassesOn (·.bind g) (·.bind g') where
  plain_eq r := by
    rcases r with ⟨b, t⟩ | ⟨e, t⟩
    · exact hplain b t
    · rfl
  heard_eq r := by
    rcases r with ⟨b, t⟩ | ⟨e, t⟩
    · exact hheard b t
    · rfl
  failure_eq r := by
    rcases r with ⟨b, t⟩ | ⟨e, t⟩
    · exact hgood b t
    · rfl

/-- An operation that makes this one call on the store, after what was heard `before`, and
fails if and only if the call does, with its failure. But for what is heard, it comes to the same
as `plain`. -/
structure OneCall (before : List (Heard κ ν)) (call : StoreCall κ ν)
    (r : Result (Overheard σ κ ν) β) (plain : Result σ β) : Prop where
  plain_eq : r.mapWorld Overheard.world = plain
  heard_eq : r.world.heard = before ++ [.answered call r.failure?]

theorem oneCall_ask (call : StoreCall κ ν) (x : Action σ β) (t : Overheard σ κ ν) :
    OneCall t.heard call (Overheard.ask call x t) (x t.world) := by
  unfold Overheard.ask
  rcases hx : x t.world with ⟨b, w⟩ | ⟨e, w⟩ <;> exact ⟨rfl, rfl⟩

/-- What is done with the answer of a call without calling the store again. -/
theorem OneCall.judged {before : List (Heard κ ν)} {call : StoreCall κ ν} {β' : Type}
    {r : Result (Overheard σ κ ν) β} {plain : Result σ β} (h : OneCall before call r plain)
    {f : Result (Overheard σ κ ν) β → Result (Overheard σ κ ν) β'} {f' : Result σ β → Result σ β'}
    (hf : PassesOn f f') : OneCall before call (f r) (f' plain) where
  plain_eq := by rw [← h.plain_eq, hf.plain_eq]
  heard_eq := by rw [hf.heard_eq, hf.failure_eq, h.heard_eq]

/-- An operation that leaves the work of this one call on the store, after what was heard
`before`. Completing the work completes the call, and fails if and only if the call does, with
its failure. But for what is heard, all comes to the same as in `plain`. -/
structure OneCallLater (before : List (Heard κ ν)) (call : StoreCall κ ν)
    (left : Deferred (Overheard σ κ ν) β × Overheard σ κ ν) (plain : Deferred σ β × σ) :
    Prop where
  mirrors : left.1.Mirrors Overheard.world plain.1
  world_eq : left.2.world = plain.2
  heard_eq : left.2.heard = before ++ [.made call]
  completed : ∀ r, (left.1.finish r).world.heard =
    r.heard ++ [.completed call (left.1.finish r).failure?]

theorem oneCallLater_askLater (call : StoreCall κ ν) (x : σ → Deferred σ β × σ)
    (t : Overheard σ κ ν) :
    OneCallLater t.heard call (Overheard.askLater call x t) (x t.world) where
  mirrors := ⟨rfl, fun r => by
    simp only [Overheard.askLater]
    rcases (x t.world).1.finish r.world with _ | _ <;> rfl⟩
  world_eq := rfl
  heard_eq := rfl
  completed r := by
    simp only [Overheard.askLater]
    rcases (x t.world).1.finish r.world with _ | _ <;> rfl

/-- What is done with the answer of a completed call without calling the store again. -/
theorem OneCallLater.judged {before : List (Heard κ ν)} {call : StoreCall κ ν} {β' : Type}
    {left : Deferred (Overheard σ κ ν) β × Overheard σ κ ν} {plain : Deferred σ β × σ}
    (h : OneCallLater before call left plain)
    {f : Result (Overheard σ κ ν) β → Result (Overheard σ κ ν) β'} {f' : Result σ β → Result σ β'}
    (hf : PassesOn f f') :
    OneCallLater before call
      ({ waits := left.1.waits, finish := fun r => f (left.1.finish r) }, left.2)
      ({ waits := plain.1.waits, finish := fun w => f' (plain.1.finish w) }, plain.2) where
  mirrors := ⟨h.mirrors.waits_eq, fun r => by
    simp only [hf.plain_eq, h.mirrors.finish_eq]⟩
  world_eq := h.world_eq
  heard_eq := h.heard_eq
  completed r := by rw [hf.heard_eq, hf.failure_eq, h.completed]

/-! ## An expiring store that answers at once -/

section Judging

variable [Context σ]

theorem mirrors_overheard : ContextMirrors (Overheard.world : Overheard σ κ ν → σ) where
  now _ := rfl
  isLive _ _ _ := rfl
  note _ _ := rfl

/-- Judging makes no call on the store. -/
theorem heard_judge (stored : Option (Stamped α)) (now : Timestamp)
    (t : Overheard σ κ (Stamped α)) : (judge stored now t).2.heard = t.heard := by
  rcases stored with - | ⟨- | v, writtenAt⟩ <;> rfl

end Judging

namespace Direct

variable [Context σ] [Store σ κ (Stamped α) γ]

/-- Every operation makes one call on the store, and the views open a cursor each. -/
structure Transparent (t : Overheard σ κ (Stamped α)) : Prop where
  get : ∀ key, OneCall t.heard (.get key) (get key t) (get key t.world)
  contains : ∀ key, OneCall t.heard (.get key) (contains key t) (contains key t.world)
  put : ∀ key value, OneCall t.heard (.put key ⟨value, (Context.now t.world).1⟩)
    (put key value t) (put key value t.world)
  putAll : ∀ batch, OneCall t.heard (.putAll (stampAll (Context.now t.world).1 batch))
    (putAll batch t) (putAll batch t.world)
  remove : ∀ key, OneCall t.heard (.remove key) (remove key t) (remove key t.world)
  clear : OneCall t.heard .clear (clear t) (clear t.world)
  entries : OneCall t.heard .entries (entries t) (entries t.world)
  iter : OneCall t.heard .entries (iter t) (iter t.world)
  keys : OneCall t.heard .entries (keys t) (keys t.world)
  values : OneCall t.heard .entries (values t) (values t.world)

theorem oneCall_get (key : κ) (t : Overheard σ κ (Stamped α)) :
    OneCall t.heard (.get key) (get key t) (get key t.world) := by
  refine (oneCall_ask (.get key) (Store.get key) t).judged
    (passesOn_bind (fun stored t => ?_) (fun stored t => ?_) fun _ _ => rfl)
  · simp only [Result.mapWorld_ok, mirrors_overheard.now, mirrors_overheard.judge]
  · exact heard_judge stored _ _

omit [Context σ] in
theorem oneCall_pass (project : κ → Option α → ρ) (t : Overheard σ κ (Stamped α)) :
    OneCall t.heard .entries (pass project t) (pass project t.world) :=
  (oneCall_ask .entries Store.entries t).judged (passesOn_map _)

theorem transparent (t : Overheard σ κ (Stamped α)) : Transparent t where
  get key := oneCall_get key t
  contains key := (oneCall_get key t).judged (passesOn_map _)
  put key _ := oneCall_ask (.put key _) (Store.put key _) ⟨(Context.now t.world).2, t.heard⟩
  putAll _ := oneCall_ask (.putAll _) (Store.putAll _) ⟨(Context.now t.world).2, t.heard⟩
  remove key := oneCall_ask (.remove key) (Store.remove key) t
  clear := oneCall_ask .clear Store.clear t
  entries := oneCall_pass _ t
  iter := oneCall_pass _ t
  keys := oneCall_pass _ t
  values := oneCall_pass _ t

end Direct

/-! ## The scan for a live entry -/

/-- The failure of the cursor in a turn. -/
def Turn.failure? : Turn κ α → Option StoreError
  | failed e => some e
  | _ => none

theorem Turn.failure?_eq_some_iff {t : Turn κ α} {e : StoreError} :
    t.failure? = some e ↔ t.answer? = some (.error e) := by
  rw [answer?_eq_error_iff]
  cases t <;> simp [failure?]

/-- A turn is a pull, and fails as the pull does. -/
theorem TakesTurn.pull {ω : Type} [Context ω] [Cursor ω κ (Stamped α)] {w w' : ω} {t : Turn κ α}
    (h : TakesTurn w t w') :
    (LazyExpiry.pull w).world = w' ∧ (LazyExpiry.pull w).failure? = t.failure? := by
  rw [h.pull_eq, Turn.result]
  cases t with
  | null _ _ _ => exact ⟨rfl, rfl⟩
  | value _ _ _ _ live => cases live <;> exact ⟨rfl, rfl⟩
  | ended => exact ⟨rfl, rfl⟩
  | failed _ => exact ⟨rfl, rfl⟩

section Scans

variable [Context σ] [Store σ κ (Stamped α) γ]

omit [Context σ] in
theorem Overheard.advance_eq (cursor : γ) (t : Overheard σ κ (Stamped α)) :
    Cursor.advance (cursor, t) = (Cursor.advance (cursor, t.world)).mapWorld fun s =>
      (s.1, t.hear s.2 (.answered .advance (Cursor.advance (cursor, t.world)).failure?)) := rfl

omit [Context σ] in
theorem Overheard.entries_eq (t : Overheard σ κ (Stamped α)) :
    Store.entries t = (Store.entries t.world).mapWorld fun w =>
      t.hear w (.answered .entries (Store.entries t.world).failure?) := rfl

theorem mirrors_beside :
    Mirrors (Prod.map id Overheard.world : γ × Overheard σ κ (Stamped α) → γ × σ) where
  advance s := by
    obtain ⟨cursor, t⟩ := s
    rw [Overheard.advance_eq]
    simp only [Prod.map_apply, id_eq]
    rcases Cursor.advance (cursor, t.world) with _ | _ <;> rfl
  removeCurrent s := by
    obtain ⟨cursor, t⟩ := s
    simp only [Cursor.removeCurrent, Overheard.answer, Prod.map_apply, id_eq]
    rcases Cursor.removeCurrent (cursor, t.world) with _ | _ <;> rfl
  now _ := rfl
  isLive _ _ _ := rfl
  note _ _ := rfl

/-- A pull makes one call on the cursor, and fails as that call does. -/
theorem heard_pull (cursor : γ) (t : Overheard σ κ (Stamped α)) :
    (pull (cursor, t)).world.2.heard =
      t.heard ++ [.answered .advance (pull (cursor, t)).failure?] := by
  unfold pull
  rw [Overheard.advance_eq]
  rcases Cursor.advance (cursor, t.world) with ⟨- | ⟨key, - | v, writtenAt⟩, s⟩ | ⟨e, s⟩
  · rfl
  · rfl
  · simp only [Result.mapWorld_ok, judge]
    split <;> rfl
  · rfl

/-- In turns the cursor is advanced once each. -/
theorem TakesTurns.heard {s s' : γ × Overheard σ κ (Stamped α)} {turns : List (Turn κ α)}
    (h : TakesTurns s turns s') :
    TakesTurns (s.1, s.2.world) turns (s'.1, s'.2.world) ∧
      s'.2.heard = s.2.heard ++ turns.map fun turn => .answered .advance turn.failure? := by
  induction h with
  | done => exact ⟨.done, by simp⟩
  | @turn s s₁ s' turn turns hturn _ ih =>
    obtain ⟨hplain, hheard⟩ := ih
    obtain ⟨rfl, hfailure⟩ := hturn.pull
    refine ⟨.turn (hturn.mirror mirrors_beside) hplain, ?_⟩
    rw [hheard, heard_pull, hfailure, List.append_assoc]
    rfl

end Scans

namespace Direct

variable [Context σ] [Store σ κ (Stamped α) γ]

/-- `isEmpty` over any store. There is no answer if expired entries come for ever. -/
def isEmpty? (w : σ) : Option (Result σ Bool) :=
  match keys w with
  | .error e w' => some (.error e w')
  | .ok opened w' =>
    (LiveEntries.hasNext? (opened.1, opened.2, w')).map fun
      | .ok live s => .ok (!live) (Context.note (.scanned live s.1.skipped) s.2.2)
      | .error e s => .error e s.2.2

/-- Over a store whose cursors settle there is one. -/
theorem isEmpty?_eq_some [Settles (γ × σ) κ α] (w : σ) : isEmpty? w = some (isEmpty w) := by
  unfold isEmpty? isEmpty
  rcases keys w with ⟨opened, w'⟩ | ⟨e, w'⟩
  · have hlook := LiveEntries.hasNext?_eq_some (opened.1, opened.2, w')
    rcases hfound : LiveEntries.hasNext (opened.1, opened.2, w') with _ | _ <;>
      simp only [hlook, hfound, Option.map_some, Result.bind_ok]
  · rfl

/-- What asking for a live entry comes to, and what is heard of the store meanwhile. -/
inductive Scans (t : Overheard σ κ (Stamped α)) (r : Result (Overheard σ κ (Stamped α)) Bool) :
    Prop where
  /-- No cursor could be opened. -/
  | unopened {e : StoreError} {w : σ} : Store.entries t.world = .error e w →
    r.outcome = .error e → r.world.heard = t.heard ++ [.answered .entries (some e)] → Scans t r
  /-- The cursor was advanced past expired entries to the first other answer : a live entry, the
  end or a failure. -/
  | scanned {cursor : γ} {w : σ} {s : γ × σ} {passed : List (Turn κ α)} {last : Turn κ α}
    {answer : Except StoreError (Option (κ × Option α))} : Store.entries t.world = .ok cursor w →
    TakesTurns (cursor, w) (passed ++ [last]) s → (∀ turn ∈ passed, turn.expired = true) →
    last.answer? = some answer → r.outcome = answer.map Option.isNone →
    r.world.heard = t.heard ++ .answered .entries none ::
      (passed ++ [last]).map (fun turn => .answered .advance turn.failure?) → Scans t r

/-- A fresh search advances its cursor past expired entries, up to the first other answer. -/
theorem hasNext?_heard {project : κ → Option α → ρ} {cursor : γ} {t : Overheard σ κ (Stamped α)}
    {looked : Result (LiveEntries κ α ρ × γ × Overheard σ κ (Stamped α)) Bool}
    (h : LiveEntries.hasNext? ({ project }, cursor, t) = some looked) :
    ∃ (passed : List (Turn κ α)) (last : Turn κ α) (answer : _) (s : γ × σ),
      TakesTurns (cursor, t.world) (passed ++ [last]) s ∧
      (∀ turn ∈ passed, turn.expired = true) ∧ last.answer? = some answer ∧
      looked.outcome = answer.map Option.isSome ∧ looked.world.2.2.heard = t.heard ++
        (passed ++ [last]).map fun turn => .answered .advance turn.failure? := by
  -- the same search in a world that writes down what is asked
  have hlogged := LiveEntries.hasNext?_view (Logged.mirrors_world (κ := κ) (α := α))
    (({ project } : LiveEntries κ α ρ), ⟨(cursor, t), []⟩)
  dsimp only at hlogged
  rw [h, eq_comm, Option.map_eq_some_iff] at hlogged
  obtain ⟨found, hfound, rfl⟩ := hlogged
  obtain ⟨turns, answer, hahead⟩ := LiveEntries.hasNext?_looksAhead hfound
  obtain ⟨s, htakes, hworld⟩ := hahead.takes
  obtain ⟨hplain, hheard⟩ := htakes.heard
  have hlast : found.world.2.world.2.heard = s.2.heard := by
    rw [Result.world_map] at hworld
    rcases hworld with hworld | ⟨n, hworld⟩ <;> rw [hworld]
    rfl
  obtain ⟨passed, last, hpassed, hanswer, rfl⟩ : ∃ passed last, (∀ turn ∈ passed,
      Turn.expired turn = true) ∧ last.answer? = some answer ∧ turns = passed ++ [last] := by
    cases hahead.looked with
    | sought hpassed hanswer => exact ⟨_, _, hpassed, hanswer, rfl⟩
  refine ⟨passed, last, answer, _, hplain, hpassed, hanswer, ?_, ?_⟩
  · rw [Result.view_outcome]
    rcases hahead.hasNext_cases with ⟨_, _, _, rfl, rfl⟩ | ⟨_, rfl, rfl⟩ | ⟨_, _, rfl, rfl⟩ <;> rfl
  · rw [Result.view_world, hlast, hheard]

theorem isEmpty?_scans {t : Overheard σ κ (Stamped α)}
    {r : Result (Overheard σ κ (Stamped α)) Bool} (h : isEmpty? t = some r) : Scans t r := by
  rcases hentries : Store.entries t.world with ⟨cursor, w⟩ | ⟨e, w⟩
  · have hopened : keys t = .ok ({ project := fun key _ => key }, cursor)
        (t.hear w (.answered .entries none)) := by
      rw [keys, pass, Overheard.entries_eq, hentries]
      rfl
    simp only [isEmpty?, hopened, Option.map_eq_some_iff] at h
    obtain ⟨looked, hlooked, rfl⟩ := h
    obtain ⟨passed, last, answer, s, htakes, hpassed, hanswer, houtcome, hheard⟩ :=
      hasNext?_heard hlooked
    rw [Overheard.heard_hear, List.append_assoc, List.singleton_append] at hheard
    refine .scanned hentries htakes hpassed hanswer ?_ ?_
    · rcases looked with ⟨live, s'⟩ | ⟨e, s'⟩ <;> rcases answer with e' | - | found <;>
        simp_all [Except.map]
    · rw [← hheard]
      rcases looked with ⟨live, s'⟩ | ⟨e, s'⟩ <;> rfl
  · have hopened : keys t = .error e (t.hear w (.answered .entries (some e))) := by
      rw [keys, pass, Overheard.entries_eq, hentries]
      rfl
    simp only [isEmpty?, hopened, Option.some.injEq] at h
    subst h
    exact .unopened hentries rfl rfl

/-- Without what is heard, the answer is that in the world as it was. -/
theorem isEmpty?_world (t : Overheard σ κ (Stamped α)) :
    (isEmpty? t).map (·.mapWorld Overheard.world) = isEmpty? t.world := by
  have hkeys : (keys t).mapWorld Overheard.world = keys t.world := (oneCall_pass _ t).plain_eq
  unfold isEmpty?
  rw [← hkeys]
  rcases keys t with ⟨opened, t'⟩ | ⟨e, t'⟩
  · have hview := LiveEntries.hasNext?_view (mirrors_beside (γ := γ) (α := α))
      (opened.1, (opened.2, t'))
    dsimp only [Prod.map_apply, id_eq] at hview
    simp only [Result.mapWorld_ok, hview, Option.map_map]
    refine congrArg (Option.map · _) (funext fun r => ?_)
    rcases r with ⟨live, s⟩ | ⟨e, s⟩ <;> rfl
  · rfl

/-- It fails if and only if the last call has, with the failure of that call. -/
theorem Scans.outcome_eq_error_iff {t : Overheard σ κ (Stamped α)}
    {r : Result (Overheard σ κ (Stamped α)) Bool} (h : Scans t r) (e : StoreError) :
    r.outcome = .error e ↔ ∃ before call, r.world.heard = before ++ [.answered call (some e)] := by
  -- the last thing heard is what the last call answered
  have hlast : ∀ {before call failure}, r.world.heard = before ++ [.answered call failure] →
      ((∃ before call, r.world.heard = before ++ [.answered call (some e)]) ↔
        failure = some e) := by
    intro before call failure hheard
    constructor
    · rintro ⟨before', call', hheard'⟩
      obtain ⟨-, hanswered⟩ := List.append_inj' (hheard.symm.trans hheard') rfl
      cases hanswered
      rfl
    · rintro rfl
      exact ⟨before, call, hheard⟩
  cases h with
  | @unopened e' w _ houtcome hheard =>
    rw [hlast hheard, houtcome, Except.error.injEq, Option.some.injEq]
  | @scanned cursor w s passed last answer _ _ _ hanswer houtcome hheard =>
    rw [List.map_append, List.map_singleton, ← List.cons_append, ← List.append_assoc] at hheard
    rw [hlast hheard, Turn.failure?_eq_some_iff, hanswer, houtcome]
    rcases answer with e' | found <;> simp [Except.map]

end Direct

/-! ## An expiring store that answers later -/

namespace Async

variable [Context σ] [AsyncStore σ κ (Stamped α) π]

/-- Every operation leaves the work of one call on the store, and so do the views. -/
structure Transparent (t : Overheard σ κ (Stamped α)) : Prop where
  get : ∀ key, OneCallLater t.heard (.get key) (get key t) (get key t.world)
  contains : ∀ key, OneCallLater t.heard (.get key) (contains key t) (contains key t.world)
  put : ∀ key value, OneCallLater t.heard (.put key ⟨value, (Context.now t.world).1⟩)
    (put key value t) (put key value t.world)
  putAll : ∀ batch, OneCallLater t.heard (.putAll (stampAll (Context.now t.world).1 batch))
    (putAll batch t) (putAll batch t.world)
  remove : ∀ key, OneCallLater t.heard (.remove key) (remove key t) (remove key t.world)
  clear : OneCallLater t.heard .clear (clear t) (clear t.world)
  isEmpty : OneCallLater t.heard .isEmpty (isEmpty t) (isEmpty t.world)
  entries : OneCallLater t.heard .entries (entries t) (entries t.world)
  keys : OneCallLater t.heard .entries (keys t) (keys t.world)
  values : OneCallLater t.heard .entries (values t) (values t.world)

theorem passesOn_judgeAnswer :
    PassesOn (κ := κ) (judgeAnswer : Result (Overheard σ κ (Stamped α)) (Option (Stamped α)) → _)
      judgeAnswer where
  plain_eq r := by
    rcases r with ⟨stored, t⟩ | ⟨e, t⟩
    · simp only [judgeAnswer, Result.mapWorld_ok, mirrors_overheard.now, mirrors_overheard.judge]
    · rfl
  heard_eq r := by
    rcases r with ⟨stored, t⟩ | ⟨e, t⟩
    · exact heard_judge stored _ _
    · rfl
  failure_eq r := by
    rcases r with ⟨stored, t⟩ | ⟨e, t⟩ <;> rfl

theorem oneCallLater_get (key : κ) (t : Overheard σ κ (Stamped α)) :
    OneCallLater t.heard (.get key) (get key t) (get key t.world) :=
  (oneCallLater_askLater (.get key) (AsyncStore.get key) t).judged passesOn_judgeAnswer

omit [Context σ] in
theorem oneCallLater_pass (project : κ → Option α → ρ) (t : Overheard σ κ (Stamped α)) :
    OneCallLater t.heard .entries (pass project t) (pass project t.world) :=
  (oneCallLater_askLater .entries AsyncStore.entries t).judged (passesOn_map _)

theorem transparent (t : Overheard σ κ (Stamped α)) : Transparent t where
  get key := oneCallLater_get key t
  contains key := (oneCallLater_get key t).judged (passesOn_map _)
  put key _ :=
    oneCallLater_askLater (.put key _) (AsyncStore.put key _) ⟨(Context.now t.world).2, t.heard⟩
  putAll _ :=
    oneCallLater_askLater (.putAll _) (AsyncStore.putAll _) ⟨(Context.now t.world).2, t.heard⟩
  remove key := oneCallLater_askLater (.remove key) (AsyncStore.remove key) t
  clear := oneCallLater_askLater .clear AsyncStore.clear t
  isEmpty := oneCallLater_askLater .isEmpty AsyncStore.isEmpty t
  entries := oneCallLater_pass _ t
  keys := oneCallLater_pass _ t
  values := oneCallLater_pass _ t

end Async

/-- Whatever the store does, every operation of the facades makes one call on it and fails if
and only if that call does, with its failure. Asking for a live entry opens one cursor and
advances it to the first failure or answer, and fails if and only if the last of these calls
does, with its failure. -/
theorem store_calls_transparent [Context σ] [Store σ κ (Stamped α) γ]
    [AsyncStore σ κ (Stamped α) π] (t : Overheard σ κ (Stamped α)) :
    Direct.Transparent t ∧ Async.Transparent t ∧
      (Direct.isEmpty? t).map (·.mapWorld Overheard.world) = Direct.isEmpty? t.world ∧
      (∀ [Settles (γ × σ) κ α], Direct.isEmpty? t.world = some (Direct.isEmpty t.world)) ∧
      ∀ r, Direct.isEmpty? t = some r → Direct.Scans t r ∧ ∀ e, r.outcome = .error e ↔
        ∃ before call, r.world.heard = before ++ [.answered call (some e)] :=
  ⟨Direct.transparent t, Async.transparent t, Direct.isEmpty?_world t,
    Direct.isEmpty?_eq_some t.world, fun _ h =>
      ⟨Direct.isEmpty?_scans h, (Direct.isEmpty?_scans h).outcome_eq_error_iff⟩⟩

/-- A store with a poisoned lock, overheard. -/
def Overheard.jammed : Overheard (World Nat Nat) Nat (Stamped Nat) where
  world := { memory := { poisoned := true }, policy := .writtenEven }

/-- A read makes its one call, which fails. A scan fails at the cursor, not when it opens it. -/
theorem store_calls_transparent_jammed :
    (Direct.get 1 Overheard.jammed).world.heard =
        [.answered (.get 1) (some Memory.lockPoisoned)] ∧
      ∃ r, Direct.isEmpty? Overheard.jammed = some r ∧
        r.outcome = .error Memory.lockPoisoned ∧ Direct.Scans Overheard.jammed r := by
  obtain ⟨hdirect, -, hworld, -, hscans⟩ := store_calls_transparent Overheard.jammed
  have hfails : Direct.isEmpty? Overheard.jammed.world =
      some (.error Memory.lockPoisoned Overheard.jammed.world) := by
    have hpull : pull (({} : Memory.Position Nat), Overheard.jammed.world) =
        .error Memory.lockPoisoned ({}, Overheard.jammed.world) := rfl
    have hkeys : Direct.keys Overheard.jammed.world =
        .ok ({ project := fun key _ => key }, {}) Overheard.jammed.world := rfl
    simp only [Direct.isEmpty?, hkeys]
    rw [LiveEntries.hasNext?_fresh rfl, LiveEntries.seek?, hpull]
    rfl
  obtain ⟨r, hr, hplain⟩ := Option.map_eq_some_iff.mp (hworld.trans hfails)
  refine ⟨(hdirect.get 1).heard_eq, r, hr, ?_, (hscans r hr).1⟩
  rw [← Result.outcome_mapWorld r Overheard.world, hplain, Result.outcome_error]

end LazyExpiry
