/-! The integers of the language are the signed 64-bit ones. Arithmetic on them is
done on exact integers and brought back by `ofInt?`, so that nothing wraps. -/

namespace Lisplet.Word

/-- Whether an integer fits in 64 bits. -/
def Fits (i : Int) : Prop := Int64.minValue.toInt ≤ i ∧ i ≤ Int64.maxValue.toInt

instance (i : Int) : Decidable (Fits i) := inferInstanceAs (Decidable (_ ∧ _))

/-- The word that is the integer `i`, if there is one. -/
def ofInt? (i : Int) : Option Int64 := if Fits i then some (Int64.ofInt i) else none

theorem fits_toInt (n : Int64) : Fits n.toInt := ⟨n.minValue_le_toInt, n.toInt_le⟩

theorem fits_natCast {n : Nat} {k : Int64} (h : n ≤ k.toInt) : Fits n :=
  ⟨Int.le_trans (by decide) (Int.natCast_nonneg n), Int.le_trans h k.toInt_le⟩

theorem toInt_ofInt {i : Int} (h : Fits i) : (Int64.ofInt i).toInt = i :=
  Int64.toInt_ofInt_of_le h.1 (Int.lt_add_one_of_le h.2)

theorem ofInt?_toInt (n : Int64) : ofInt? n.toInt = some n := by
  rw [ofInt?, if_pos (fits_toInt n), Int64.ofInt_toInt]

theorem ofInt?_eq_some_iff {i : Int} {n : Int64} : ofInt? i = some n ↔ n.toInt = i := by
  constructor
  · intro h
    unfold ofInt? at h
    split at h
    · next hf => rw [← Option.some.inj h, toInt_ofInt hf]
    · contradiction
  · rintro rfl
    exact ofInt?_toInt n

theorem ofInt?_eq_none_iff {i : Int} : ofInt? i = none ↔ ¬ Fits i := by
  simp [ofInt?]

/-- The decimal digits of a word, with a minus sign if it is negative. -/
def digits (n : Int64) : List Char :=
  if n.toInt < 0 then '-' :: Nat.toDigits 10 n.toInt.natAbs else Nat.toDigits 10 n.toInt.natAbs

/-- The word that a run of decimal digits stands for, with at most one sign in front. -/
def ofDigits? : List Char → Option Int64
  | '-' :: ds => ofInt? (-(Nat.ofDigitChars 10 ds 0 : Int))
  | '+' :: ds => ofInt? (Nat.ofDigitChars 10 ds 0)
  | ds => ofInt? (Nat.ofDigitChars 10 ds 0)

end Lisplet.Word
