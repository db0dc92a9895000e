/-!
# Keys of a session

The keys of a session are integers, texts and byte strings, in that order : all integers
before all texts before all byte strings. Integers are ordered by value, texts by their
characters and byte strings by their bytes, a shorter one before its extensions. The
order is total and compares different keys as different, which is what a `Table` needs.
-/

namespace LazyExpiry

/-- A key of a session. -/
inductive Key where
  | int (n : Int)
  | text (s : String)
  | bytes (b : List UInt8)
  deriving DecidableEq

namespace Key

/-- The order of keys. -/
protected def compare : Key → Key → Ordering
  | int m, int n => Ord.compare m n
  | int _, _ => .lt
  | text _, int _ => .gt
  | text s, text t => Ord.compare s t
  | text _, bytes _ => .lt
  | bytes b, bytes c => Ord.compare b c
  | bytes _, _ => .gt

instance : Ord Key := ⟨Key.compare⟩

theorem compare_def (j k : Key) : compare j k = Key.compare j k := rfl

instance : Std.LawfulEqOrd Key where
  compare_self {k} := by
    cases k <;> simp [compare_def, Key.compare, Std.compare_self]
  eq_of_compare {j k} h := by
    cases j <;> cases k <;> simp only [compare_def, Key.compare, reduceCtorEq] at h
    all_goals exact congrArg _ (Std.LawfulEqOrd.eq_of_compare h)

instance : Std.OrientedOrd Key where
  eq_swap {j k} := by
    cases j <;> cases k <;> simp only [compare_def, Key.compare, Ordering.swap_lt, Ordering.swap_gt]
    all_goals exact Std.OrientedOrd.eq_swap

instance : Std.TransOrd Key where
  isLE_trans {i j k} h₁ h₂ := by
    cases i <;> cases j <;> cases k <;>
      simp only [compare_def, Key.compare, Ordering.isLE_lt, Ordering.isLE_gt,
        Bool.false_eq_true] at h₁ h₂ ⊢
    all_goals exact Std.TransOrd.isLE_trans h₁ h₂

end Key

end LazyExpiry
