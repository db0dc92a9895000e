import Mathlib.Algebra.Group.Nat.Defs
import Mathlib.Order.Bounds.Defs
import LazyExpiry.Policy

/-!
# How far a lifetime is from exact time

By exact time a value lives while less than its lifetime has gone by since it was written,
and a time before the writing is a negative age (`Lifetime.Lasts`). A `Lifetime` goes by
timestamps instead. It rounds its length down to whole milliseconds, and the time at which
a value expires is at most the last timestamp (`toNat_expiresAt`).

Neither makes a value live longer than by exact time. It ends a value early in two cases
(`exact_deviation`) : at the very millisecond in which the fraction that was cut off still
had to pass, and at the last timestamp, which no value outlives.
-/

namespace LazyExpiry

/-! ## Spans to the nanosecond -/

namespace Span

/-- A span in nanoseconds. -/
def inNanos (s : Span) : Nat := s.secs.toNat * 1000000000 + s.nanos

/-- The whole milliseconds of a span, as a sum of 128 bits. -/
def wideMillis (s : Span) : BitVec 128 :=
  s.secs.toBitVec.setWidth 128 * 1000#128 + BitVec.ofNat 128 (s.nanos / 1000000)

theorem wholeMillis_eq (s : Span) : s.wholeMillis = s.inNanos / 1000000 := by
  rw [wholeMillis, inNanos]
  omega

/-- In 128 bits neither the product nor the sum wraps around. -/
theorem toNat_wideMillis (s : Span) : s.wideMillis.toNat = s.inNanos / 1000000 := by
  have hsecs := s.secs.toNat_lt
  have hnanos := s.nanos_lt
  rw [← wholeMillis_eq, wholeMillis, wideMillis, BitVec.toNat_add, BitVec.toNat_mul,
    BitVec.toNat_setWidth, BitVec.toNat_ofNat, BitVec.toNat_ofNat, UInt64.toNat_toBitVec]
  omega

end Span

namespace Lifetime

variable (l : Lifetime) (writtenAt now : Timestamp)

/-! ## Live or not -/

theorem isLive_iff_lt : l.isLive writtenAt now = true ↔ now < l.expiresAt writtenAt :=
  decide_eq_true_iff

theorem isLive_eq_false_iff_le : l.isLive writtenAt now = false ↔ l.expiresAt writtenAt ≤ now := by
  rw [← Bool.not_eq_true, isLive_iff_lt, UInt64.not_lt]

theorem toNat_millis : l.millis.toNat = min (l.span.inNanos / 1000000) (UInt64.size - 1) := by
  rw [millis, Span.toNat_millis, Span.wholeMillis_eq]

/-- A value expires after the whole milliseconds of its lifetime, or with the last
timestamp. -/
theorem toNat_expiresAt : (l.expiresAt writtenAt).toNat =
    min (writtenAt.toNat + l.span.inNanos / 1000000) (UInt64.size - 1) := by
  rw [expiresAt, Timestamp.toNat_plus, toNat_millis]
  omega

/-! ## The law -/

/-- By exact time, less than the lifetime has gone by since the writing. -/
def Lasts : Prop := ((now.toNat : Int) - writtenAt.toNat) * 1000000 < l.span.inNanos

instance : Decidable (l.Lasts writtenAt now) := inferInstanceAs (Decidable (_ < _))

/-- The law in whole milliseconds : the last of them counts if there is more than whole
milliseconds to the lifetime. -/
theorem lasts_iff : l.Lasts writtenAt now ↔
    (now.toNat : Int) - writtenAt.toNat < (l.span.inNanos / 1000000 : Nat) ∨
      l.span.inNanos % 1000000 ≠ 0 ∧
        (now.toNat : Int) - writtenAt.toNat = (l.span.inNanos / 1000000 : Nat) := by
  rw [Lasts]
  omega

theorem isLeast_expiresAt :
    IsLeast {now | l.isLive writtenAt now = false} (l.expiresAt writtenAt) := by
  constructor
  · exact (l.isLive_eq_false_iff_le writtenAt _).mpr (UInt64.le_refl _)
  · exact fun now hnow => (l.isLive_eq_false_iff_le writtenAt now).mp hnow

theorem lasts_of_isLive (h : l.isLive writtenAt now = true) : l.Lasts writtenAt now := by
  have hlt := UInt64.lt_iff_toNat_lt.mp ((l.isLive_iff_lt writtenAt now).mp h)
  rw [toNat_expiresAt] at hlt
  rw [lasts_iff]
  omega

/-- What lasts by exact time and is not live is in its last millisecond, or time is at its
end. -/
theorem lasts_and_expired_iff : l.Lasts writtenAt now ∧ l.isLive writtenAt now = false ↔
    l.span.inNanos % 1000000 ≠ 0 ∧
        (now.toNat : Int) - writtenAt.toNat = (l.span.inNanos / 1000000 : Nat) ∨
      now = Timestamp.last ∧ UInt64.size - 1 < writtenAt.toNat + l.span.inNanos / 1000000 := by
  have hend : now = Timestamp.last ↔ now.toNat = UInt64.size - 1 := by
    rw [← UInt64.toNat_inj, Timestamp.toNat_last]
  have hnow := now.toNat_lt
  have hsize : UInt64.size = 2 ^ 64 := rfl
  rw [isLive_eq_false_iff_le, UInt64.le_iff_toNat_le, toNat_expiresAt, lasts_iff, hend]
  omega

/-- A value is live up to one moment, the first at which it is not, and no step of the way to
that moment wraps around. It is never live longer than by exact time, and dead before in two
cases alone. -/
theorem exact_deviation :
    (IsLeast {now | l.isLive writtenAt now = false} (l.expiresAt writtenAt) ∧
      ∀ now, l.isLive writtenAt now = true ↔ now < l.expiresAt writtenAt) ∧
    (l.span.wideMillis.toNat = l.span.inNanos / 1000000 ∧
      l.millis.toNat = min (l.span.inNanos / 1000000) (2 ^ 64 - 1) ∧
      (l.expiresAt writtenAt).toNat =
        min (writtenAt.toNat + l.span.inNanos / 1000000) (2 ^ 64 - 1)) ∧
    ∀ now, (l.isLive writtenAt now = true → l.Lasts writtenAt now) ∧
      (l.Lasts writtenAt now ∧ l.isLive writtenAt now = false ↔
        l.span.inNanos % 1000000 ≠ 0 ∧
            (now.toNat : Int) - writtenAt.toNat = (l.span.inNanos / 1000000 : Nat) ∨
          now = Timestamp.last ∧ 2 ^ 64 - 1 < writtenAt.toNat + l.span.inNanos / 1000000) := by
  refine ⟨⟨l.isLeast_expiresAt writtenAt, l.isLive_iff_lt writtenAt⟩,
    ⟨l.span.toNat_wideMillis, l.toNat_millis, l.toNat_expiresAt writtenAt⟩, fun now => ?_⟩
  exact ⟨l.lasts_of_isLive writtenAt now, l.lasts_and_expired_iff writtenAt now⟩

/-- A lifetime of half a millisecond is over before it has begun. -/
example : let l : Lifetime := { span := { secs := 0, nanos := 500000 } }
    l.Lasts 5 5 ∧ l.isLive 5 5 = false := by
  decide

end Lifetime

end LazyExpiry
