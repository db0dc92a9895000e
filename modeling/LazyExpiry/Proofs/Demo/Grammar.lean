import LazyExpiry.Proofs.Demo.Outcome

/-!
# The grammar of the demo's arguments

The demo runs on pairs of a flag and a number (`Paired`), and each option has the value of the
last pair that sets it (`chosen`). Other arguments are pairs up to a place at which they break
(`Breaks`), and what is printed is told by that place alone : by the word there, and behind a flag
by the argument after it.

Whether a word is a flag depends on where it stands. Pairs are taken from the left, two words at
a time, so the proofs follow `Arguments.readFrom` by pairs : what comes after some pairs is read on
top of the options that they set (`Paired.readFrom_append`), and all arguments are pairs with an
end or a break after them (`paired_or_breaks`).
-/

namespace LazyExpiry.Demo

/-! ## Words -/

namespace Flag

/-- The short spelling of a flag. -/
def short : Flag → String
  | ttl => "-t"
  | keys => "-k"
  | pageSize => "-p"

/-- The word is the flag, in either spelling. -/
def Spelled (flag : Flag) (word : String) : Prop := word = flag.name ∨ word = flag.short

theorem ofWord?_eq_some_iff {word : String} {flag : Flag} :
    ofWord? word = some flag ↔ flag.Spelled word := by
  constructor
  · intro h
    unfold ofWord? at h
    split_ifs at h with httl hkeys hsize <;> cases h
    · exact httl
    · exact hkeys
    · exact hsize
  · rintro (rfl | rfl) <;> cases flag <;> decide

theorem ofWord?_eq_none_iff {word : String} :
    ofWord? word = none ↔ ∀ flag : Flag, ¬flag.Spelled word := by
  rw [Option.eq_none_iff_forall_ne_some]
  exact forall_congr' fun flag => not_congr ofWord?_eq_some_iff

end Flag

/-- The word is a number : one or more decimal digits, with or without a plus sign before them,
with a value that fits into 64 bits. -/
def SpelledNumber (n : UInt64) (word : String) : Prop :=
  ∃ digits : List Char, digits ≠ [] ∧ (∀ c ∈ digits, c.isDigit = true) ∧
    (word.toList = digits ∨ word.toList = '+' :: digits) ∧
    Nat.ofDigitChars 10 digits 0 = n.toNat

theorem isDigit_of_readDigits : ∀ {chars : List Char} {n m : Nat}, readDigits n chars = some m →
    ∀ c ∈ chars, c.isDigit = true
  | [], _, _, _ => by simp
  | c :: rest, n, m, h => by
    rw [readDigits] at h
    split_ifs at h with hc
    exact List.forall_mem_cons.mpr ⟨Char.isDigit_iff_toNat.mpr hc, isDigit_of_readDigits h⟩

theorem readNat_eq_some_iff {chars : List Char} {m : Nat} : readNat chars = some m ↔
    chars ≠ [] ∧ (∀ c ∈ chars, c.isDigit = true) ∧ Nat.ofDigitChars 10 chars 0 = m := by
  rcases chars with - | ⟨c, rest⟩
  · simp [readNat]
  · rw [readNat]
    constructor
    · intro h
      have hdigits := isDigit_of_readDigits h
      rw [readDigits_eq 0 hdigits, Option.some.injEq] at h
      exact ⟨List.cons_ne_nil c rest, hdigits, h⟩
    · rintro ⟨-, hdigits, rfl⟩
      exact readDigits_eq 0 hdigits

theorem readNumber_eq_some_iff {word : String} {n : UInt64} :
    readNumber word = some n ↔ SpelledNumber n word := by
  have hbound : ∀ {chars : List Char}, ((readNat chars).bind fun m =>
      if m < UInt64.size then some (UInt64.ofNat m) else none) = some n ↔
        readNat chars = some n.toNat := by
    intro chars
    rw [Option.bind_eq_some_iff]
    constructor
    · rintro ⟨m, hread, hm⟩
      split_ifs at hm with hlt
      rw [hread, ← Option.some.inj hm, UInt64.toNat_ofNat_of_lt' hlt]
    · intro hread
      exact ⟨n.toNat, hread, by rw [if_pos n.toNat_lt, UInt64.ofNat_toNat]⟩
  rw [readNumber]
  split
  · rename_i rest hplus
    rw [hbound, readNat_eq_some_iff]
    constructor
    · rintro ⟨hne, hdigits, hvalue⟩
      exact ⟨rest, hne, hdigits, .inr hplus, hvalue⟩
    · rintro ⟨digits, hne, hdigits, hword | hword, hvalue⟩
      · -- a plus sign is no digit
        have hsign := hdigits '+' (hword ▸ hplus ▸ List.mem_cons_self)
        cases hsign
      · obtain rfl := (List.cons.inj (hplus.symm.trans hword)).2
        exact ⟨hne, hdigits, hvalue⟩
  · rename_i hplain
    rw [hbound, readNat_eq_some_iff]
    constructor
    · rintro ⟨hne, hdigits, hvalue⟩
      exact ⟨word.toList, hne, hdigits, .inl rfl, hvalue⟩
    · rintro ⟨digits, hne, hdigits, hword | hword, hvalue⟩
      · exact hword ▸ ⟨hne, hdigits, hvalue⟩
      · exact absurd hword (hplain digits)

/-! ## Pairs -/

/-- The arguments are these pairs of a flag and a number. -/
inductive Paired : List String → List (Flag × UInt64) → Prop where
  | nil : Paired [] []
  | cons {flag : Flag} {word : String} {n : UInt64} {value : String} {rest : List String}
      {pairs : List (Flag × UInt64)} : flag.Spelled word → SpelledNumber n value →
      Paired rest pairs → Paired (word :: value :: rest) ((flag, n) :: pairs)

/-- The value of a flag's last pair. -/
def lastOf (flag : Flag) (pairs : List (Flag × UInt64)) : Option UInt64 :=
  ((pairs.filter fun p => p.1 = flag).getLast?).map Prod.snd

/-- The options that are set by some pairs, on top of others. -/
def chosenOver (o : Options) (pairs : List (Flag × UInt64)) : Options where
  ttl := (lastOf .ttl pairs).getD o.ttl
  keys := (lastOf .keys pairs).getD o.keys
  pageSize := (lastOf .pageSize pairs).getD o.pageSize

/-- The options that are set by some pairs. -/
def chosen (pairs : List (Flag × UInt64)) : Options where
  ttl := (lastOf .ttl pairs).getD 1000
  keys := (lastOf .keys pairs).getD 8
  pageSize := (lastOf .pageSize pairs).getD 4

theorem lastOf_cons_getD (flag : Flag) (p : Flag × UInt64) (pairs : List (Flag × UInt64))
    (n : UInt64) : (lastOf flag (p :: pairs)).getD n =
      (lastOf flag pairs).getD (if p.1 = flag then p.2 else n) := by
  simp only [lastOf]
  by_cases hflag : p.1 = flag
  · have hlast : ∀ later : List (Flag × UInt64), ((p :: later).getLast?.map Prod.snd).getD n =
        (later.getLast?.map Prod.snd).getD p.2 := fun later => by
      rw [List.getLast?_cons]
      cases later.getLast? <;> rfl
    rw [List.filter_cons_of_pos (by simpa using hflag), if_pos hflag, hlast]
  · rw [List.filter_cons_of_neg (by simpa using hflag), if_neg hflag]

/-- A pair sets its option, unless a later one does. -/
theorem chosenOver_set (o : Options) (flag : Flag) (n : UInt64) (pairs : List (Flag × UInt64)) :
    chosenOver (flag.set n o) pairs = chosenOver o ((flag, n) :: pairs) := by
  simp only [chosenOver, lastOf_cons_getD]
  cases flag <;> rfl

/-- What comes after some pairs is read on top of the options that they set. -/
theorem Paired.readFrom_append {before : List String} {pairs : List (Flag × UInt64)}
    (h : Paired before pairs) (o : Options) (rest : List String) :
    Arguments.readFrom o (before ++ rest) = Arguments.readFrom (chosenOver o pairs) rest := by
  induction h generalizing o with
  | nil => rfl
  | cons hflag hvalue _ ih =>
    rw [← Flag.ofWord?_eq_some_iff] at hflag
    rw [← readNumber_eq_some_iff] at hvalue
    rw [List.cons_append, List.cons_append, Arguments.readFrom]
    simp only [hflag, hvalue]
    rw [ih, chosenOver_set]

theorem Paired.read {args : List String} {pairs : List (Flag × UInt64)} (h : Paired args pairs) :
    Arguments.read args = .run (chosen pairs) := by
  have hread := h.readFrom_append {} []
  rw [List.append_nil] at hread
  exact hread

/-! ## Breaks -/

/-- What is printed for arguments that break at the first of these words. -/
inductive Breaks : List String → Output → Prop where
  | help {word : String} (rest : List String) : word = "--help" ∨ word = "-h" →
      Breaks (word :: rest) { exit := 0, stdout := helpText }
  | version {word : String} (rest : List String) : word = "--version" ∨ word = "-v" →
      Breaks (word :: rest) { exit := 0, stdout := ["FlashTTL version 0.1.0"] }
  /-- The word is none that the demo knows. -/
  | unknown {word : String} (rest : List String) : (∀ flag : Flag, ¬flag.Spelled word) →
      word ∉ ["--help", "-h", "--version", "-v"] →
      Breaks (word :: rest)
        { exit := 1, stdout := helpText, stderr := ["Unknown argument: " ++ word] }
  /-- The flag is the last argument. -/
  | missing {flag : Flag} {word : String} : flag.Spelled word →
      Breaks [word] { exit := 1, stderr := ["Error: " ++ flag.name ++ " requires a value"] }
  /-- The flag is followed by what is no number, a flag or not. -/
  | invalid {flag : Flag} {word value : String} (rest : List String) : flag.Spelled word →
      (∀ n, ¬SpelledNumber n value) →
      Breaks (word :: value :: rest)
        { exit := 1, stderr := ["Error: invalid value for " ++ flag.name] }

theorem Breaks.logged_eq_nil {rest : List String} {out : Output} (h : Breaks rest out) :
    out.logged = [] := by
  cases h <;> rfl

/-- A word that is no flag breaks the pairs. -/
theorem breaks_of_ofWord?_eq_none {word : String} (h : Flag.ofWord? word = none)
    (rest : List String) : ∃ out, Breaks (word :: rest) out := by
  by_cases hhelp : word = "--help" ∨ word = "-h"
  · exact ⟨_, .help rest hhelp⟩
  by_cases hversion : word = "--version" ∨ word = "-v"
  · exact ⟨_, .version rest hversion⟩
  exact ⟨_, .unknown rest (Flag.ofWord?_eq_none_iff.mp h) (by simp_all)⟩

/-- Arguments are pairs, or they break after some pairs. -/
theorem paired_or_breaks : ∀ args : List String, (∃ pairs, Paired args pairs) ∨
    ∃ before pairs rest out, args = before ++ rest ∧ Paired before pairs ∧ Breaks rest out
  | [] => .inl ⟨[], .nil⟩
  | [word] => by
    right
    rcases hword : Flag.ofWord? word with - | flag
    · obtain ⟨out, hbreaks⟩ := breaks_of_ofWord?_eq_none hword []
      exact ⟨[], [], _, out, rfl, .nil, hbreaks⟩
    · exact ⟨[], [], _, _, rfl, .nil, .missing (Flag.ofWord?_eq_some_iff.mp hword)⟩
  | word :: value :: rest => by
    rcases hword : Flag.ofWord? word with - | flag
    · obtain ⟨out, hbreaks⟩ := breaks_of_ofWord?_eq_none hword (value :: rest)
      exact .inr ⟨[], [], _, out, rfl, .nil, hbreaks⟩
    have hflag := Flag.ofWord?_eq_some_iff.mp hword
    rcases hvalue : readNumber value with - | n
    · refine .inr ⟨[], [], _, _, rfl, .nil, .invalid rest hflag fun n hn => ?_⟩
      rw [readNumber_eq_some_iff.mpr hn] at hvalue
      cases hvalue
    have hnumber := readNumber_eq_some_iff.mp hvalue
    rcases paired_or_breaks rest with
      ⟨pairs, hpairs⟩ | ⟨before, pairs, rest', out, rfl, hpairs, hbreaks⟩
    · exact .inl ⟨_, .cons hflag hnumber hpairs⟩
    · exact .inr ⟨_, _, rest', out, rfl, .cons hflag hnumber hpairs, hbreaks⟩

theorem readFrom_of_ofWord?_eq_none {word : String} (h : Flag.ofWord? word = none) (o : Options)
    (rest : List String) : Arguments.readFrom o (word :: rest) = Arguments.ofWord word := by
  rcases rest with - | ⟨value, rest⟩ <;> simp only [Arguments.readFrom, h]

/-- At a break the reading ends, whatever options are set by then. -/
theorem Breaks.output_eq {rest : List String} {out : Output} (h : Breaks rest out)
    {before : List String} {pairs : List (Flag × UInt64)} (hbefore : Paired before pairs) :
    output (before ++ rest) = out := by
  have hread : Arguments.read (before ++ rest) = _ := hbefore.readFrom_append {} rest
  generalize chosenOver {} pairs = o at hread
  cases h with
  | @help word rest hword =>
    have hnone : Flag.ofWord? word = none := by rcases hword with rfl | rfl <;> decide
    rw [readFrom_of_ofWord?_eq_none hnone, Arguments.ofWord, if_pos hword] at hread
    rw [output, hread]
  | @version word rest hword =>
    have hnone : Flag.ofWord? word = none := by rcases hword with rfl | rfl <;> decide
    have hnot : ¬(word = "--help" ∨ word = "-h") := by rcases hword with rfl | rfl <;> decide
    rw [readFrom_of_ofWord?_eq_none hnone, Arguments.ofWord, if_neg hnot, if_pos hword] at hread
    rw [output, hread]
  | @unknown word rest hflag hword =>
    simp only [List.mem_cons, List.not_mem_nil, or_false, not_or] at hword
    obtain ⟨hhelp, hh, hversion, hv⟩ := hword
    rw [readFrom_of_ofWord?_eq_none (Flag.ofWord?_eq_none_iff.mpr hflag), Arguments.ofWord,
      if_neg (not_or.mpr ⟨hhelp, hh⟩), if_neg (not_or.mpr ⟨hversion, hv⟩)] at hread
    rw [output, hread]
    rfl
  | missing hflag =>
    simp only [Arguments.readFrom, Flag.ofWord?_eq_some_iff.mpr hflag] at hread
    rw [output, hread]
    rfl
  | @invalid flag word value rest hflag hvalue =>
    have hnone : readNumber value = none :=
      Option.eq_none_iff_forall_ne_some.mpr fun n hn => hvalue n (readNumber_eq_some_iff.mp hn)
    simp only [Arguments.readFrom, Flag.ofWord?_eq_some_iff.mpr hflag, hnone] at hread
    rw [output, hread]
    rfl

/-! ## The grammar -/

/-- What the demo does with its arguments. -/
structure Grammatical (args : List String) : Prop where
  /-- The body of the demo runs if and only if the arguments are pairs. -/
  runs_iff : (output args).logged ≠ [] ↔ ∃ pairs, Paired args pairs
  /-- On pairs it runs to its end, with the options that they set, and prints its lines only. -/
  run : ∀ pairs, Paired args pairs → ∃ lines w',
    tour (chosen pairs) { place := Place.start (chosen pairs) } = .ok () ⟨w', lines⟩ ∧
      lines ≠ [] ∧ output args = { exit := 0, stdout := [], stderr := [], logged := lines }
  /-- Other arguments break after some pairs. -/
  breaks : (¬∃ pairs, Paired args pairs) → ∃ before pairs rest out,
    args = before ++ rest ∧ Paired before pairs ∧ Breaks rest out
  /-- The place at which they break settles what is printed. -/
  settled : ∀ before pairs rest out, args = before ++ rest → Paired before pairs →
    Breaks rest out → output args = out ∧ out.logged = []

theorem Paired.output_eq {args : List String} {pairs : List (Flag × UInt64)}
    (h : Paired args pairs) : ∃ lines w',
      tour (chosen pairs) { place := Place.start (chosen pairs) } = .ok () ⟨w', lines⟩ ∧
        lines ≠ [] ∧ output args = { exit := 0, stdout := [], stderr := [], logged := lines } := by
  obtain ⟨w', hends⟩ := tour_ends (chosen pairs)
  refine ⟨_, w', hends, List.append_ne_nil_of_right_ne_nil _ (List.cons_ne_nil _ _), ?_⟩
  rw [output, h.read]
  simp only [hends]

/-- The demo accepts its grammar and nothing else. -/
theorem grammatical (args : List String) : Grammatical args where
  runs_iff := by
    constructor
    · intro hlogged
      rcases paired_or_breaks args with hpaired | ⟨before, pairs, rest, out, rfl, hbefore, hbreaks⟩
      · exact hpaired
      · rw [hbreaks.output_eq hbefore] at hlogged
        exact absurd hbreaks.logged_eq_nil hlogged
    · rintro ⟨pairs, hpaired⟩
      obtain ⟨lines, -, -, hlines, houtput⟩ := hpaired.output_eq
      rw [houtput]
      exact hlines
  run _ hpaired := hpaired.output_eq
  breaks hnot := (paired_or_breaks args).resolve_left hnot
  settled := by
    rintro before pairs rest out rfl hbefore hbreaks
    exact ⟨hbreaks.output_eq hbefore, hbreaks.logged_eq_nil⟩

/-- What stands in the place of a number is no flag. -/
example : output ["-k", "3", "--ttl-ms", "--help", "-q"] =
    { exit := 1, stderr := ["Error: invalid value for --ttl-ms"] } := rfl

end LazyExpiry.Demo
