import LazyExpiry.Time

/-!
# When a written value is still live

A `Policy` judges a time of writing against a time of reading. The stock policy is a
`Lifetime` : a value is live until its lifetime has passed since it was written,
`Lifetime.expiresAt` being the first time at which it is not. The other policies here
judge by one of the two times alone, by their order, or by the age of the value.
-/

namespace LazyExpiry

/-- Whether a value written at the first time is live at the second. -/
abbrev Policy := (writtenAt now : Timestamp) → Bool

/-- How long every value stays live after it was written, a minute unless said. -/
structure Lifetime where
  /-- The length of the lifetime. -/
  span : Span := { secs := 60 }

namespace Lifetime

/-- The lifetime with another length. -/
def withSpan (l : Lifetime) (s : Span) : Lifetime := { l with span := s }

/-- The lifetime in whole milliseconds. -/
def millis (l : Lifetime) : UInt64 := l.span.millis

/-- The first time at which a value written at `writtenAt` is expired. -/
def expiresAt (l : Lifetime) (writtenAt : Timestamp) : Timestamp := writtenAt.plus l.millis

/-- A value is live before the time at which it expires. -/
def isLive (l : Lifetime) : Policy := fun writtenAt now => decide (now < l.expiresAt writtenAt)

end Lifetime

namespace Policy

/-- No value is live. -/
def never : Policy := fun _ _ => false

/-- Every value is live. -/
def always : Policy := fun _ _ => true

/-- Values written at an even time are live. -/
def writtenEven : Policy := fun writtenAt _ => writtenAt % 2 == 0

/-- Values written before now are live. -/
def past : Policy := fun writtenAt now => decide (writtenAt < now)

/-- Values written now or later are live. -/
def notPast : Policy := fun writtenAt now => decide (now ≤ writtenAt)

/-- Every value is live before `limit`. -/
def nowBelow (limit : Timestamp) : Policy := fun _ now => decide (now < limit)

/-- Values younger than `limit` are live ; one written in the future has age zero. -/
def ageBelow (limit : UInt64) : Policy := fun writtenAt now =>
  decide (now.toNat - writtenAt.toNat < limit.toNat)

end Policy

end LazyExpiry
