import LazyExpiry.Demo.Tour
import Std.Time

/-!
# The demo command

Prints what the demo has to say for the arguments of the command, each line logged under
the time in UTC.
-/

namespace LazyExpiry.Demo

/-- The time in UTC, to the microsecond. -/
def timeText : IO String := do
  let now ← Std.Time.Timestamp.now
  let time := Std.Time.DateTime.ofTimestamp now Std.Time.TimeZone.ZoneRules.UTC
  return time.format "uuuu-MM-dd'T'HH:mm:ss.SSSSSS'Z'"

/-- Prints the output of the demo and answers its exit code. -/
def print (out : Output) : IO UInt32 := do
  for line in out.stderr do
    IO.eprintln line
  for line in out.stdout do
    IO.println line
  for line in out.logged do
    let time ← timeText
    IO.println s!"{time}  {line}"
  return UInt32.ofNat out.exit

end LazyExpiry.Demo

/-- Runs the demo. -/
def main (args : List String) : IO UInt32 :=
  LazyExpiry.Demo.print (LazyExpiry.Demo.output args)
