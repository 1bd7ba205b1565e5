/-!
Integers have sixty-four bits. An operation computes on unbounded integers and keeps the result if
it fits; nothing wraps.

    fit? (2 ^ 63 - 1) = some _        fit? (2 ^ 63) = none
-/

namespace Rulebook

/-- The range of the integers. -/
def Fits (i : Int) : Prop := -9223372036854775808 ≤ i ∧ i ≤ 9223372036854775807

instance (i : Int) : Decidable (Fits i) := inferInstanceAs (Decidable (_ ∧ _))

/-- The integer with this value, if it fits. -/
def fit? (i : Int) : Option Int64 := if Fits i then some (Int64.ofInt i) else none

theorem fits_toInt (n : Int64) : Fits n.toInt := by
  have h₁ := n.le_toInt
  have h₂ := n.toInt_lt
  unfold Fits
  omega

theorem fit?_eq_some_iff {i : Int} {n : Int64} : fit? i = some n ↔ n.toInt = i := by
  constructor
  · intro h
    unfold fit? at h
    split at h
    · next hi =>
      unfold Fits at hi
      cases h
      exact Int64.toInt_ofInt_of_le (by omega) (by omega)
    · cases h
  · rintro rfl
    simp [fit?, fits_toInt]

theorem fit?_eq_none_iff {i : Int} : fit? i = none ↔ ¬ Fits i := by
  simp [fit?]

/-- The double nearest to an integer, the even one of two. -/
def widen (n : Int64) : Float := .ofModel (.ofInt n.toInt)

/-- The decimal digits of an integer, behind a minus sign if it is negative. -/
def integerText (n : Int64) : String := toString n.toInt

/-- The value of a run of decimal digits. -/
def digitsValue (ds : List Char) : Nat := Nat.ofDigitChars 10 ds 0

/-- The integer that is written as digits, if it fits. -/
def readInteger (negative : Bool) (ds : List Char) : Option Int64 :=
  fit? (if negative then -(digitsValue ds : Int) else digitsValue ds)

/-- The double nearest to a number that is written as digits around a point. -/
def readDouble (negative : Bool) (whole part : List Char) : Float :=
  let x := Float.ofScientific (digitsValue (whole ++ part)) true part.length
  if negative then -x else x

end Rulebook
