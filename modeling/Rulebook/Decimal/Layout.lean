import Rulebook.Decimal.Shortest

/-!
The text of a double: its shortest decimal, written in full while the exponent is moderate and as
digits with an exponent beyond that.

    1.0   0.0001   123456.789   1e16   1.5e-7   -0.0   inf   NaN

What a format decides for itself is one record, `Layout`; the rest follows from the digits.
-/

namespace Rulebook

/-- The decisions of a number format: the exponents written in full, from `least` to `most`, the
    way a tie goes, and the names of what is not a number. -/
structure Layout where
  least : Int
  most : Int
  tie : Tie
  infinite : String
  undefined : String

/-- Digits with the point after the first `n + 1` of them, and at least one digit after it. -/
def Decimal.placed (ds : List Char) (n : Nat) : List Char :=
  let whole := ds.take (n + 1)
  let part := ds.drop (n + 1)
  whole ++ List.replicate (n + 1 - whole.length) '0' ++ '.' ::
    (if part.isEmpty then ['0'] else part)

/-- A decimal in full: `123.0`, `0.00123`. -/
def Decimal.full (d : Decimal) : List Char :=
  if 0 ≤ d.exponent then placed d.digits d.exponent.toNat
  else '0' :: '.' :: List.replicate ((-d.exponent).toNat - 1) '0' ++ d.digits

/-- A decimal as digits and an exponent: `1e16`, `1.5e-7`. -/
def Decimal.scaled (d : Decimal) : List Char :=
  let part := d.digits.drop 1
  d.digits.take 1 ++ (if part.isEmpty then [] else '.' :: part) ++ 'e' ::
    (toString d.exponent).toList

/-- A decimal in the form that its exponent calls for. -/
def Layout.write (l : Layout) (d : Decimal) : List Char :=
  if l.least ≤ d.exponent ∧ d.exponent ≤ l.most then d.full else d.scaled

/-- The text of a double. Its bits are a sign, eleven bits of exponent and fifty-two of fraction. -/
def Layout.text (l : Layout) (x : Float) : String :=
  let bits := x.toBits.toNat
  let exponent : Nat := bits / Nat.pow 2 52 % Nat.pow 2 11
  let fraction : Nat := bits % Nat.pow 2 52
  let sign := if bits / Nat.pow 2 63 == 1 then "-" else ""
  if exponent == 2047 then
    if fraction == 0 then sign ++ l.infinite else l.undefined
  else if exponent == 0 then
    if fraction == 0 then sign ++ "0.0"
    else sign ++ String.ofList (l.write ((Dyadic.mk fraction (-1074) false).shortest l.tie))
  else
    let d : Dyadic :=
      ⟨fraction + Nat.pow 2 52, (exponent : Int) - 1075, fraction == 0 && exponent != 1⟩
    sign ++ String.ofList (l.write (d.shortest l.tie))

/-- Numbers are written in full from a ten-thousandth up to sixteen digits before the point; of two
    shortest decimals equally near the larger one is written. -/
def numberLayout : Layout := ⟨-4, 15, .up, "inf", "NaN"⟩

end Rulebook
