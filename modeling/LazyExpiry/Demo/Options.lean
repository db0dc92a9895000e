/-!
# Arguments of the demo

The demo's arguments are pairs of a flag and a number, read from the left. `Arguments.read`
answers the `Options` that they set, a later pair overriding an earlier one, or the first
place at which they are no such pairs : a word that asks for help or for the version, a
word that is no flag, a flag without a value, or a value that is no number. A value is
taken as it stands, so a flag in the place of a value is no number.

A number is one or more decimal digits, with or without a plus sign before them, of a
value below 2^64 (`readNumber`).
-/

namespace LazyExpiry.Demo

/-- What the demo can be told. -/
structure Options where
  /-- Time-to-live of every entry in milliseconds. -/
  ttl : UInt64 := 1000
  /-- Keys written per batch. -/
  keys : UInt64 := 8
  /-- Entries per page. -/
  pageSize : UInt64 := 4
  deriving DecidableEq

/-- The flags that take a number. -/
inductive Flag where
  | ttl | keys | pageSize
  deriving DecidableEq

namespace Flag

/-- The long spelling of a flag. -/
def name : Flag → String
  | ttl => "--ttl-ms"
  | keys => "--keys"
  | pageSize => "--page-size"

/-- The flag that a word spells. -/
def ofWord? (word : String) : Option Flag :=
  if word = "--ttl-ms" ∨ word = "-t" then some ttl
  else if word = "--keys" ∨ word = "-k" then some keys
  else if word = "--page-size" ∨ word = "-p" then some pageSize
  else none

/-- The options with one of them set. -/
def set (flag : Flag) (n : UInt64) (o : Options) : Options :=
  match flag with
  | ttl => { o with ttl := n }
  | keys => { o with keys := n }
  | pageSize => { o with pageSize := n }

end Flag

/-- The value of decimal digits read after the value `n`, or `none` at another character. -/
def readDigits (n : Nat) : List Char → Option Nat
  | [] => some n
  | c :: rest =>
    if '0' ≤ c ∧ c ≤ '9' then readDigits (10 * n + (c.toNat - '0'.toNat)) rest else none

/-- The value of a nonempty row of decimal digits. -/
def readNat : List Char → Option Nat
  | [] => none
  | c :: rest => readDigits 0 (c :: rest)

/-- The number that a word spells. -/
def readNumber (word : String) : Option UInt64 :=
  let value :=
    match word.toList with
    | '+' :: rest => readNat rest
    | chars => readNat chars
  value.bind fun n => if n < UInt64.size then some (UInt64.ofNat n) else none

/-- What the demo's arguments ask for. -/
inductive Arguments where
  /-- To run with these options. -/
  | run (options : Options)
  /-- To print the help text. -/
  | help
  /-- To print the version. -/
  | version
  /-- Nothing : the word is no flag. -/
  | unknown (word : String)
  /-- Nothing : the flag has no value. -/
  | missing (flag : Flag)
  /-- Nothing : the flag's value is no number. -/
  | invalid (flag : Flag)
  deriving DecidableEq

namespace Arguments

/-- What a word that is no flag asks for. -/
def ofWord (word : String) : Arguments :=
  if word = "--help" ∨ word = "-h" then help
  else if word = "--version" ∨ word = "-v" then version
  else unknown word

/-- Reads arguments on top of the options set so far. -/
def readFrom (o : Options) : List String → Arguments
  | [] => run o
  | [word] =>
    match Flag.ofWord? word with
    | none => ofWord word
    | some flag => missing flag
  | word :: value :: rest =>
    match Flag.ofWord? word with
    | none => ofWord word
    | some flag =>
      match readNumber value with
      | none => invalid flag
      | some n => readFrom (flag.set n o) rest

/-- Reads the demo's arguments. -/
def read (args : List String) : Arguments := readFrom {} args

end Arguments

end LazyExpiry.Demo
