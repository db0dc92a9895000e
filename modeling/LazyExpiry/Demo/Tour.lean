import LazyExpiry.Demo.Options
import LazyExpiry.World

/-!
# The demo

The demo writes two batches of keys through the two expiring stores over one store in
memory, the second half a lifetime after the first, and lets the first batch expire. It
then reports what the passes over the store see, removes one live entry on the way, and
in the end lets the second batch expire as well and shows that nothing was deleted.

`tour` is that course of events with the lines that it logs, and `output` is what the
demo prints for its arguments, and how it exits. If the store fails, then the lines that were
logged by then are printed all the same.

Lengths and their sum are numbers of 64 bits. The sum comes round after 2^64, which is more
than the bytes of all values that a memory under 64-bit addresses holds.
-/

namespace LazyExpiry.Demo

/-- The store, clock and policy of the demo. -/
abbrev Place := World String String

namespace Place

/-- An empty store at time zero. -/
def start (o : Options) : Place where
  memory := { pageSize := .ofNat o.pageSize.toNat }
  policy := Lifetime.isLive { span := .ofMillis o.ttl }

/-- The place at another time. -/
def moveTo (w : Place) (t : Timestamp) : Place := { w with clock := w.clock.set t }

end Place

/-- A batch of numbered keys, each with a numbered value. -/
def batch (name : String) (n : Nat) : List (String × Option String) :=
  (List.range n).map fun i => (s!"{name}:{i}", some s!"value:{i}")

/-- Removes the first live entry and answers its key. -/
def removeFirst : Action Place (Option String) := fun w =>
  (Direct.entries w).bind fun opened w =>
    let back (s : LiveEntries String String (String × Option String) ×
      Memory.Position String × Place) : Place := s.2.2
    Result.mapWorld back <|
      (LiveEntries.hasNext (opened.1, opened.2, w)).bind fun live s =>
        if live then
          (LiveEntries.nextItem s).bind fun item s =>
            (LiveEntries.removeCurrent s).map fun _ => some item.1
        else .ok none s

/-- The length of a value in bytes, an explicit null counting as zero. -/
def lengthOf (value : Option String) : UInt64 :=
  (value.map fun text => UInt64.ofNat text.utf8ByteSize).getD 0

/-- The sum of some lengths. -/
def total (lengths : List UInt64) : UInt64 := lengths.foldr (· + ·) 0

/-- The lengths of the live values. -/
def valueLengths : Action Place (List UInt64) := fun w =>
  let called := Async.values w
  (called.1.await called.2).bind fun it w =>
    let limit := w.memory.table.size + 1
    let length (_ : Nat) (value : Option String) (w : Place) : Deferred Place UInt64 × Place :=
      ({ finish := fun w => .ok (lengthOf value) w }, w)
    (it.collectEach limit length w).map (·.getD [])

/-- Whether the two expiring stores find the store empty. -/
def emptiness : Action Place (Bool × Bool) := fun w =>
  (Direct.isEmpty w).bind fun sync w =>
    let called := Async.isEmpty w
    (called.1.await called.2).map fun async => (sync, async)

/-! ## The course -/

/-- The demo under way. -/
structure Course where
  place : Place
  /-- The lines logged so far. -/
  logged : List String := []

namespace Course

/-- The course with another line. -/
def log (c : Course) (line : String) : Course := { c with logged := c.logged ++ [line] }

/-- The course at another time. -/
def moveTo (c : Course) (t : Timestamp) : Course := { c with place := c.place.moveTo t }

/-- A step in the place of the course. -/
def step {β : Type} (x : Action Place β) : Action Course β :=
  x.focus place fun w c => { c with place := w }

/-- A call in the place of the course whose work is done at once. -/
def await {β : Type} (call : Place → Deferred Place β × Place) : Action Course β :=
  step fun w => (call w).1.await (call w).2

end Course

open Course in
/-- The course of the demo. -/
def tour (o : Options) : Action Course Unit := fun c =>
  (step (Direct.putAll (batch "old" o.keys.toNat)) c).bind fun _ c =>
  (await (Async.putAll (batch "new" o.keys.toNat)) (c.moveTo (o.ttl / 2))).bind fun _ c =>
  (await (Async.put "new:null" none) c).bind fun _ c =>
  (step (World.onMemory Memory.size) (c.moveTo o.ttl)).bind fun stored c =>
  let c := c.log s!"INFO first batch expired now={c.place.clock.time} stored={stored}"
  (step (Direct.list fun key _ => key) c).bind fun live c =>
  let c := c.log s!"INFO sync iteration live={live.length}"
  (step removeFirst c).bind fun removed c =>
  let c := match removed with
    | some key => c.log s!"INFO removed first live entry during iteration key=b\"{key}\""
    | none => c
  (step valueLengths c).bind fun lengths c =>
  let c := c.log s!"INFO async paged iteration live={lengths.length} bytes={total lengths}"
  (step emptiness c).bind fun empty c =>
  let c := c.log s!"INFO emptiness checks sync_empty={empty.1} async_empty={empty.2}"
  (step emptiness (c.moveTo (Timestamp.clamp (2 * o.ttl.toNat)))).bind fun empty c =>
  (step (World.onMemory Memory.size) c).bind fun left c =>
  let c := c.log (s!"INFO everything expired, nothing deleted sync_empty={empty.1} " ++
    s!"async_empty={empty.2} stored={left}")
  (step (World.onMemory Memory.stats) c).bind fun stats c =>
  .ok () (c.log s!"INFO Stats: {stats.describe}")

/-! ## What is printed -/

/-- What a command prints, and how it exits. -/
structure Output where
  exit : Nat := 0
  stdout : List String := []
  stderr : List String := []
  /-- Lines logged, which go to standard output after everything else. -/
  logged : List String := []

/-- The help text. -/
def helpText : List String :=
  ["",
    "FlashTTL - Time-To-Live for Key-Value State",
    "",
    "USAGE:",
    "    flashttl [OPTIONS]",
    "",
    "OPTIONS:",
    "    -t, --ttl-ms <MS>         Time-to-live of every entry (default: 1000)",
    "    -k, --keys <N>            Keys written per batch (default: 8)",
    "    -p, --page-size <N>       Entries per async page (default: 4)",
    "    -v, --version             Print version information",
    "    -h, --help                Print this help message",
    ""]

/-- What the demo prints for its arguments. -/
def output (args : List String) : Output :=
  match Arguments.read args with
  | .run o =>
    match tour o { place := Place.start o } with
    | .ok () c => { logged := c.logged }
    | .error e c => { exit := 1, stderr := [s!"Error: {e.message}"], logged := c.logged }
  | .help => { stdout := helpText }
  | .version => { stdout := ["FlashTTL version 0.1.0"] }
  | .unknown word => { exit := 1, stderr := [s!"Unknown argument: {word}"], stdout := helpText }
  | .missing flag => { exit := 1, stderr := [s!"Error: {flag.name} requires a value"] }
  | .invalid flag => { exit := 1, stderr := [s!"Error: invalid value for {flag.name}"] }

end LazyExpiry.Demo
