import LazyExpiry.Context
import LazyExpiry.Deferred

/-!
# Live entries page by page

A `PageSource ω κ ν` is a world that hands out its entries in pages, `none` being its
end. `PagedEntries` is one pass over the live entries of such a source. The clock is read
once for every page, when the page has arrived, and that reading decides which of its
entries are live.

`collectEach` calls back for every live item of a page, in order, before it completes any
of the works the callback left, and completes all of them before it asks for the next
page ; the results are those of all items in order. `deliverEach` gives the items to a
callback that leaves no work. Either pass ends at the first failure of a page or of a
callback, and `collectEach` at the failure of a work that ends the join of its page, by
the rule for the number of works there (`JoinRule.ofCount`). The callback is told how many
live items came before.

A callback may write ahead of the pass, which may then go on for as long as the callback
writes. So a pass is given the number of pages it may ask for, and answers `none` if the
source has not ended by then.
-/

namespace LazyExpiry

/-- A world that hands out its entries in pages. -/
class PageSource (ω : Type) (κ ν : outParam Type) where
  /-- The next page, or `none` at the end. -/
  nextPage : Action ω (Option (List (κ × ν)))

/-- One pass over the live entries of a page source. -/
structure PagedEntries (π κ α ρ : Type) where
  /-- Where the pages come from. -/
  source : π
  /-- The item made of a live entry. -/
  project : κ → Option α → ρ

namespace PagedEntries

variable {π σ κ α ρ υ : Type} [Context σ]

/-- A pass never reports itself empty, since only draining its source would tell. -/
def isEmpty (_ : PagedEntries π κ α ρ) : Bool := false

/-- Calls back for the live items of a page in order and keeps the works that were left.
An expired entry is noted and not counted. -/
def callEach (project : κ → Option α → ρ) (callback : Nat → ρ → σ → Deferred σ υ × σ)
    (now : Timestamp) : Nat → List (κ × Stamped α) → σ → List (Task σ υ) × σ
  | _, [], w => ([], w)
  | index, (key, stored) :: rest, w =>
    let judged := judge (some stored) now w
    match judged.1 with
    | none => callEach project callback now index rest (Context.note (.skipping now) judged.2)
    | some value =>
      let called := callback index (project key value) judged.2
      let others := callEach project callback now (index + 1) rest called.2
      (.waiting called.1 :: others.1, others.2)

theorem callEach_of_expired {project : κ → Option α → ρ}
    {callback : Nat → ρ → σ → Deferred σ υ × σ} {now : Timestamp} {key : κ} {stored : Stamped α}
    {w w' : σ} (h : judge (some stored) now w = (none, w')) (index : Nat)
    (rest : List (κ × Stamped α)) : callEach project callback now index ((key, stored) :: rest) w =
      callEach project callback now index rest (Context.note (.skipping now) w') := by
  simp only [callEach, h]

theorem callEach_of_live {project : κ → Option α → ρ}
    {callback : Nat → ρ → σ → Deferred σ υ × σ} {now : Timestamp} {key : κ} {stored : Stamped α}
    {value : Option α} {w w' : σ} (h : judge (some stored) now w = (some value, w')) (index : Nat)
    (rest : List (κ × Stamped α)) : callEach project callback now index ((key, stored) :: rest) w =
      (.waiting (callback index (project key value) w').1 ::
          (callEach project callback now (index + 1) rest
            (callback index (project key value) w').2).1,
        (callEach project callback now (index + 1) rest
          (callback index (project key value) w').2).2) := by
  simp only [callEach, h]

/-- Gives the live items of a page to the callback in order, and answers how many items
have been given by then. -/
def giveEach (project : κ → Option α → ρ) (callback : Nat → ρ → Action σ Unit)
    (now : Timestamp) : Nat → List (κ × Stamped α) → Action σ Nat
  | index, [], w => .ok index w
  | index, (key, stored) :: rest, w =>
    let judged := judge (some stored) now w
    match judged.1 with
    | none => giveEach project callback now index rest (Context.note (.skipping now) judged.2)
    | some value =>
      (callback index (project key value) judged.2).bind fun _ w' =>
        giveEach project callback now (index + 1) rest w'

theorem giveEach_of_expired {project : κ → Option α → ρ} {callback : Nat → ρ → Action σ Unit}
    {now : Timestamp} {key : κ} {stored : Stamped α} {w w' : σ}
    (h : judge (some stored) now w = (none, w')) (index : Nat) (rest : List (κ × Stamped α)) :
    giveEach project callback now index ((key, stored) :: rest) w =
      giveEach project callback now index rest (Context.note (.skipping now) w') := by
  simp only [giveEach, h]

theorem giveEach_of_live {project : κ → Option α → ρ} {callback : Nat → ρ → Action σ Unit}
    {now : Timestamp} {key : κ} {stored : Stamped α} {value : Option α} {w w' : σ}
    (h : judge (some stored) now w = (some value, w')) (index : Nat)
    (rest : List (κ × Stamped α)) : giveEach project callback now index ((key, stored) :: rest) w =
      (callback index (project key value) w').bind fun _ w'' =>
        giveEach project callback now (index + 1) rest w'' := by
  simp only [giveEach, h]

variable [PageSource (π × σ) κ (Stamped α)]

/-- `collectEachBy` from a source after `pages` pages and the results so far. -/
def collectFrom (rule : Nat → JoinRule) (project : κ → Option α → ρ)
    (callback : Nat → ρ → σ → Deferred σ υ × σ) :
    (limit pages : Nat) → List υ → π → Action σ (Option (List υ))
  | 0, _, _, _, w => .ok none w
  | limit + 1, pages, results, source, w =>
    match PageSource.nextPage (source, w) with
    | .error e s => .error e s.2
    | .ok none s => .ok (some results) (Context.note (.collected pages results.length) s.2)
    | .ok (some page) s =>
      let reading := Context.now s.2
      let called := callEach project callback reading.1 results.length page reading.2
      (joinAll (rule called.1.length) called.1 called.2).bind fun more w' =>
        collectFrom rule project callback limit (pages + 1) (results ++ more) s.1 w'

/-- The results of the callback's works for all live items, asking for at most `limit`
pages. The works of a page are joined by the `rule` for their number. -/
def collectEachBy (rule : Nat → JoinRule) (it : PagedEntries π κ α ρ) (limit : Nat)
    (callback : Nat → ρ → σ → Deferred σ υ × σ) : Action σ (Option (List υ)) :=
  collectFrom rule it.project callback limit 0 [] it.source

/-- The results of the callback's works for all live items, asking for at most `limit`
pages. -/
def collectEach (it : PagedEntries π κ α ρ) (limit : Nat)
    (callback : Nat → ρ → σ → Deferred σ υ × σ) : Action σ (Option (List υ)) :=
  it.collectEachBy JoinRule.ofCount limit callback

/-- `deliverEach` from a source after `pages` pages and `delivered` items. -/
def deliverFrom (project : κ → Option α → ρ) (callback : Nat → ρ → Action σ Unit) :
    (limit pages delivered : Nat) → π → Action σ (Option Unit)
  | 0, _, _, _, w => .ok none w
  | limit + 1, pages, delivered, source, w =>
    match PageSource.nextPage (source, w) with
    | .error e s => .error e s.2
    | .ok none s => .ok (some ()) (Context.note (.delivered pages delivered) s.2)
    | .ok (some page) s =>
      let reading := Context.now s.2
      (giveEach project callback reading.1 delivered page reading.2).bind fun delivered w' =>
        deliverFrom project callback limit (pages + 1) delivered s.1 w'

/-- Gives all live items to the callback, asking for at most `limit` pages. -/
def deliverEach (it : PagedEntries π κ α ρ) (limit : Nat) (callback : Nat → ρ → Action σ Unit) :
    Action σ (Option Unit) :=
  deliverFrom it.project callback limit 0 0 it.source

end PagedEntries

end LazyExpiry
