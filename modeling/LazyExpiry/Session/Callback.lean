import LazyExpiry.Session.Perform

/-!
# Callbacks that follow a script

The callback of a paged pass may work on the very store that the pass reads. Here it
follows a script : for the item of some index a `Cue` says what it does when it is called,
how many polls its work then waits for, what is done when the work is finished, and
whether it fails. An item without a cue is taken as it is. Every call, everything done on
the side and every work finished is written down by the watch.

`Desk.pageLimit` bounds the pages that a pass with a scripted callback can ask for : every
page holds an entry that is there or that the script writes, or it is an answer of the
watch's own script, and one more request finds the end.
-/

namespace LazyExpiry

variable {κ α : Type}

/-- The cue for the item of some index. -/
def Cue.find (script : List (Cue κ α)) (index : Nat) : Cue κ α :=
  (script.find? fun cue => cue.index == index).getD { index }

/-- Entries that a script writes. -/
def Cue.writes (script : List (Cue κ α)) : Nat :=
  (script.flatMap fun cue => cue.during ++ cue.late).foldr (fun a n => a.writes + n) 0

/-- What became of an action, in the words of a session. -/
def Refusal.outcome {ω β : Type} : Result ω β → Except Refusal β
  | .ok b _ => .ok b
  | .error e _ => .error (.failed e)

variable [Ord κ]

namespace Desk

/-- Writes a remark down. -/
def remark (r : Remark κ α) (d : Desk κ α) : Desk κ α := d.write (.remark r)

/-- A bound on the requests for pages of a pass whose callback follows a script. -/
def pageLimit (script : List (Cue κ α)) (source : WatchedPages (Memory.Pages κ) κ (Stamped α))
    (d : Desk κ α) : Nat :=
  match source with
  | .stored _ => d.world.memory.table.size + Cue.writes script + 1
  | .scripted rest => rest.length + 1

variable [Std.TransOrd κ]

/-- Does something on the side and writes down what became of it. -/
def aside (a : Aside κ α) (d : Desk κ α) : Desk κ α :=
  match a with
  | .handleStep => d.remark (.performed (.error .notInCallback))
  | .perform operation =>
    let r := operation.perform d
    r.world.remark (.performed (Refusal.outcome r))

/-- Does several things on the side, in order. -/
def asides (as : List (Aside κ α)) (d : Desk κ α) : Desk κ α := as.foldl (fun d a => d.aside a) d

/-- The callback of a collecting pass : called for an item, it leaves work that answers
that item or fails. -/
def collectBy (script : List (Cue κ α)) (index : Nat) (item : Item κ α) (d : Desk κ α) :
    Deferred (Desk κ α) (Item κ α) × Desk κ α :=
  let cue := Cue.find script index
  let finish (d : Desk κ α) : Result (Desk κ α) (Item κ α) :=
    let d := (d.asides cue.late).remark (.finished item)
    match cue.failure with
    | none => .ok item d
    | some e => .error e d
  ({ waits := cue.yields, finish }, (d.remark (.called item)).asides cue.during)

/-- The callback of a delivering pass : called with an item, it takes it or fails at
once. -/
def deliverBy (script : List (Cue κ α)) (index : Nat) (item : Item κ α) : Action (Desk κ α) Unit :=
  fun d =>
    let cue := Cue.find script index
    let d := (d.remark (.called item)).asides cue.during
    match cue.failure with
    | none => .ok () d
    | some e => .error e d

end Desk

end LazyExpiry
