/-!
# Times, spans and the clock

A `Timestamp` counts milliseconds in 64 bits. A `Span` is a length of time in seconds
and nanoseconds ; `Span.millis` is the number of whole milliseconds in it, and both it
and `Timestamp.plus` stop at the largest timestamp instead of wrapping around
(`toNat_millis`, `toNat_plus`).

A `Clock` moves only when it is told to. Reading it answers its time and then moves it
forward by its own `stride`, which is zero for a clock that stands still between calls.
The handles of a `SharedClock` all show and move one clock.
-/

namespace LazyExpiry

/-- Milliseconds since some origin. -/
abbrev Timestamp := UInt64

/-- The largest timestamp, at which additions stop. -/
def Timestamp.last : Timestamp := 18446744073709551615

/-- The `n`-th millisecond, or the last timestamp if `n` lies beyond it. -/
def Timestamp.clamp (n : Nat) : Timestamp :=
  if n < UInt64.size then UInt64.ofNat n else Timestamp.last

/-- The time `ms` milliseconds after `t`, at most the last timestamp. -/
def Timestamp.plus (t : Timestamp) (ms : UInt64) : Timestamp :=
  Timestamp.clamp (t.toNat + ms.toNat)

theorem Timestamp.toNat_last : Timestamp.last.toNat = UInt64.size - 1 := rfl

theorem Timestamp.toNat_clamp (n : Nat) :
    (Timestamp.clamp n).toNat = min n (UInt64.size - 1) := by
  unfold clamp
  split
  · rename_i h
    rw [UInt64.toNat_ofNat_of_lt' h]
    simp only [UInt64.size] at h ⊢
    omega
  · rename_i h
    rw [toNat_last]
    omega

theorem Timestamp.toNat_plus (t : Timestamp) (ms : UInt64) :
    (t.plus ms).toNat = min (t.toNat + ms.toNat) (UInt64.size - 1) :=
  toNat_clamp _

@[simp] theorem Timestamp.plus_zero (t : Timestamp) : t.plus 0 = t := by
  have hlt := t.toNat_lt
  have hplus := toNat_plus t 0
  have hsize : UInt64.size = 2 ^ 64 := rfl
  refine UInt64.toNat_inj.mp ?_
  rw [hplus, UInt64.toNat_zero, hsize]
  omega

/-- A length of time. -/
structure Span where
  /-- Whole seconds. -/
  secs : UInt64
  /-- Nanoseconds beyond the whole seconds. -/
  nanos : Nat := 0
  nanos_lt : nanos < 1000000000 := by decide

namespace Span

/-- A span of `ms` milliseconds. -/
def ofMillis (ms : UInt64) : Span where
  secs := ms / 1000
  nanos := ms.toNat % 1000 * 1000000
  nanos_lt := by omega

/-- Whole milliseconds in a span, however many. -/
def wholeMillis (s : Span) : Nat := s.secs.toNat * 1000 + s.nanos / 1000000

/-- Whole milliseconds in a span, at most the last timestamp. -/
def millis (s : Span) : UInt64 := Timestamp.clamp s.wholeMillis

theorem toNat_millis (s : Span) : s.millis.toNat = min s.wholeMillis (UInt64.size - 1) :=
  Timestamp.toNat_clamp _

end Span

/-- A clock that moves when it is told to, and by `stride` at each reading. -/
structure Clock where
  /-- What the next reading answers. -/
  time : Timestamp := 0
  /-- Milliseconds by which a reading moves the clock. -/
  stride : UInt64 := 0

namespace Clock

/-- The clock jumped to `t`. -/
def set (c : Clock) (t : Timestamp) : Clock := { c with time := t }

/-- The clock moved forward by the whole milliseconds of a span. -/
def advance (c : Clock) (s : Span) : Clock := { c with time := c.time.plus s.millis }

/-- One reading : the time, and the clock moved by its stride. -/
def read (c : Clock) : Timestamp × Clock := (c.time, { c with time := c.time.plus c.stride })

theorem read_of_stride {c : Clock} (h : c.stride = 0) : c.read = (c.time, c) := by
  rw [read, h, Timestamp.plus_zero, ← h]

end Clock

/-- A clock with several handles on it. -/
structure SharedClock where
  clock : Clock
  handles : Nat := 1

namespace SharedClock

/-- The clock with one more handle on it. -/
def clone (c : SharedClock) : SharedClock := { c with handles := c.handles + 1 }

/-- The clock changed through any of its handles. -/
def change (f : Clock → Clock) (c : SharedClock) : SharedClock := { c with clock := f c.clock }

/-- The time that each handle shows. -/
def times (c : SharedClock) : List Timestamp := List.replicate c.handles c.clock.time

end SharedClock

end LazyExpiry
