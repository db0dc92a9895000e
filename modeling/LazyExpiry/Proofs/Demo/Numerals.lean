import Mathlib.Data.Nat.Digits.Lemmas
import LazyExpiry.Demo.Tour

/-!
# Decimal numerals of the demo

The demo reads its options from decimal numerals and numbers its keys and values with them. A
numeral reads back as its number (`readNumber_toString`), so the arguments that spell some
options ask for a run with these (`Arguments.read_spelled`).

Numbered texts are kept apart by their numbers (`numbered_inj`). Texts are ordered by their
characters, and so the number zero comes first among all numbers and before a word that begins
with a letter, whatever the order of the numbers (`numbered_zero_lt`).
-/

namespace LazyExpiry.Demo

/-! ## Reading back -/

/-- A row of digits has the value that they spell. -/
theorem readDigits_eq : ∀ {digits : List Char} (n : Nat), (∀ c ∈ digits, c.isDigit = true) →
    readDigits n digits = some (Nat.ofDigitChars 10 digits n)
  | [], n, _ => by rw [readDigits, Nat.ofDigitChars_nil]
  | c :: rest, n, h => by
    have hc : '0' ≤ c ∧ c ≤ '9' := Char.isDigit_iff_toNat.mp (h c List.mem_cons_self)
    rw [readDigits, if_pos hc, Nat.ofDigitChars_cons]
    exact readDigits_eq _ fun d hd => h d (List.mem_cons_of_mem c hd)

theorem isDigit_of_mem_numeral {n : Nat} {c : Char} (h : c ∈ Nat.toDigits 10 n) :
    c.isDigit = true :=
  Nat.isDigit_of_mem_toDigits (by decide) (by decide) h

/-- A text with a number behind it. -/
def numbered (name : String) (i : Nat) : String := s!"{name}:{i}"

theorem batch_eq (name : String) (n : Nat) : batch name n =
    (List.range n).map fun i => (numbered name i, some (numbered "value" i)) := rfl

theorem length_batch (name : String) (n : Nat) : (batch name n).length = n := by
  rw [batch_eq, List.length_map, List.length_range]

theorem toList_numbered (name : String) (i : Nat) :
    (numbered name i).toList = name.toList ++ ':' :: Nat.toDigits 10 i := by
  change (name ++ ":" ++ i.repr).toList = _
  rw [String.toList_append, String.toList_append, Nat.toList_repr, List.append_assoc]
  rfl

/-- Numbered texts with names of one length are apart if the names or the numbers are. -/
theorem numbered_inj {name name' : String} {i j : Nat} (hlength : name.length = name'.length)
    (h : numbered name i = numbered name' j) : name = name' ∧ i = j := by
  have hlist := congrArg String.toList h
  rw [toList_numbered, toList_numbered] at hlist
  obtain ⟨hname, hrest⟩ := List.append_inj hlist hlength
  have hdigits := congrArg (Nat.ofDigitChars 10 · 0) (List.cons.inj hrest).2
  simp only [Nat.ofDigitChars_ten_toDigits] at hdigits
  exact ⟨String.toList_inj.mp hname, hdigits⟩

/-- A number is no word. -/
theorem numbered_ne_null (i : Nat) : numbered "new" i ≠ "new:null" := by
  intro h
  have hlist := congrArg String.toList h
  rw [toList_numbered] at hlist
  have hdigits : Nat.toDigits 10 i = "null".toList :=
    List.append_cancel_left (show "new:".toList ++ _ = "new:".toList ++ _ from hlist)
  have hn := isDigit_of_mem_numeral (n := i) (hdigits ▸ List.mem_cons_self : 'n' ∈ _)
  cases hn

theorem compare_eq_lt_iff {s t : String} : compare s t = .lt ↔ s.toList < t.toList :=
  compareOfLessAndEq_eq_lt.trans String.lt_iff

/-- The number zero comes before any other. -/
theorem numbered_zero_lt (name : String) {i : Nat} (h : i ≠ 0) :
    compare (numbered name 0) (numbered name i) = .lt := by
  obtain ⟨c, rest, hdigits⟩ := List.exists_cons_of_ne_nil (Nat.toDigits_ne_nil (n := i) (b := 10))
  have hc : '0' ≤ c :=
    (Char.isDigit_iff_toNat.mp (isDigit_of_mem_numeral (n := i) (hdigits ▸ List.mem_cons_self))).1
  have hvalue := Nat.ofDigitChars_ten_toDigits (n := i)
  rw [compare_eq_lt_iff, toList_numbered, toList_numbered, Nat.toDigits_zero, hdigits]
  refine List.append_left_lt (List.cons_lt_cons_iff.mpr (.inr ⟨rfl, List.cons_lt_cons_iff.mpr ?_⟩))
  by_cases hne : '0' = c
  · -- behind a leading zero there are other digits, or the number is zero
    rcases rest with - | ⟨d, rest⟩
    · rw [hdigits, ← hne] at hvalue
      exact absurd hvalue.symm h
    · exact .inr ⟨hne, List.nil_lt_cons d rest⟩
  · exact .inl (Std.lt_of_le_of_ne hc hne)

theorem numbered_zero_lt_null : compare (numbered "new" 0) "new:null" = .lt := by decide

/-! ## Sizes -/

/-- Digits take a byte each. -/
theorem utf8ByteSize_ofList_digits : ∀ {digits : List Char}, (∀ c ∈ digits, c.isDigit = true) →
    (String.ofList digits).utf8ByteSize = digits.length
  | [], _ => rfl
  | c :: rest, h => by
    have hc : c.utf8Size = 1 := by
      have hle := (Char.isDigit_iff_toNat.mp (h c List.mem_cons_self)).2
      exact Char.utf8Size_eq_one_iff.mpr (Nat.le_trans hle (by decide))
    have hrest := utf8ByteSize_ofList_digits fun d hd => h d (List.mem_cons_of_mem c hd)
    rw [String.ofList_cons, String.utf8ByteSize_append, String.utf8ByteSize_singleton, hc, hrest,
      List.length_cons, Nat.add_comm]

theorem length_toDigits {i : Nat} (h : i ≠ 0) :
    (Nat.toDigits 10 i).length = (Nat.digits 10 i).length := by
  have hpos : 0 < (Nat.digits 10 i).length :=
    List.length_pos_iff.mpr (Nat.digits_ne_nil_iff_ne_zero.mpr h)
  refine Nat.le_antisymm ?_ ?_
  · rw [Nat.length_toDigits_le_iff (by decide) hpos, ← Nat.digits_length_le_iff (by decide)]
  · rw [Nat.digits_length_le_iff (by decide),
      ← Nat.length_toDigits_le_iff (by decide) Nat.length_toDigits_pos]

/-- The bytes of a numbered value : its name, a colon and the digits. -/
theorem utf8ByteSize_value {i : Nat} (h : i ≠ 0) :
    (numbered "value" i).utf8ByteSize = 6 + (Nat.digits 10 i).length := by
  change ("value:" ++ String.ofList (Nat.toDigits 10 i)).utf8ByteSize = _
  rw [String.utf8ByteSize_append, utf8ByteSize_ofList_digits fun c hc =>
    isDigit_of_mem_numeral (n := i) hc, length_toDigits h]
  rfl

end LazyExpiry.Demo
