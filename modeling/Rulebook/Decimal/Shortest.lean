/-!
The shortest decimal of a binary fraction. A double stands for every real that rounds to it; among
those reals we look for the decimal with the fewest digits, and of two with that many for the one
nearer to the double. Everything is exact arithmetic on naturals: a real is a numerator over a
denominator that all the reals in question share.

    grid of one digit      |--------x---|------------|     no point among the reals
    grid of two digits     |-|-|-|-[x-]-|-|-|-|-|-|-|-|     the first grid with a hit wins

On a grid only the two neighbours of the double can be nearest, so only those two are tried.
-/

namespace Rulebook

/-- Which neighbour an exact tie goes to. -/
inductive Tie where | down | up | even
  deriving DecidableEq, Repr

/-- The decimal `d₁.d₂d₃… × 10 ^ exponent`. -/
structure Decimal where
  digits : List Char
  exponent : Int
  deriving DecidableEq, Repr

/-- The positive number `m · 2 ^ q`; on an edge the double below is only half as far away as the
    one above. -/
structure Dyadic where
  m : Nat
  q : Int
  edge : Bool
  deriving DecidableEq, Repr

/-- The reals that round to a number, all over one denominator. -/
structure Span where
  value : Nat
  low : Nat
  high : Nat
  den : Nat
  closed : Bool

/-- The reals reach half way to each neighbour, and take in the ends when `m` is even. -/
def Dyadic.span (d : Dyadic) : Span :=
  let up := Nat.pow 2 d.q.toNat
  { value := 4 * d.m * up
    low := (4 * d.m - if d.edge then 1 else 2) * up
    high := (4 * d.m + 2) * up
    den := 4 * Nat.pow 2 (-d.q).toNat
    closed := d.m % 2 == 0 }

/-- The number of decimal digits. -/
def width (n : Nat) : Nat := (Nat.toDigits 10 n).length

/-- The `k` with `10 ^ k ≤ value / den < 10 ^ (k + 1)`. -/
def Span.leading (s : Span) : Int :=
  if s.den ≤ s.value then width (s.value / s.den) - 1
  else -(width ((s.den - 1) / s.value) : Int)

/-- Whether `c · 10 ^ u` is one of the reals. -/
def Span.holds (s : Span) (c : Nat) (u : Int) : Bool :=
  let point := c * s.den * Nat.pow 10 u.toNat
  let low := s.low * Nat.pow 10 (-u).toNat
  let high := s.high * Nat.pow 10 (-u).toNat
  if s.closed then low ≤ point && point ≤ high else low < point && point < high

/-- The better of the two neighbours on the grid `10 ^ u`, if one of them is among the reals. -/
def Span.nearest (s : Span) (tie : Tie) (u : Int) : Option Nat :=
  let num := s.value * Nat.pow 10 (-u).toNat
  let den := s.den * Nat.pow 10 u.toNat
  let c := num / den
  match s.holds c u, s.holds (c + 1) u with
  | false, false => none
  | true, false => some c
  | false, true => some (c + 1)
  | true, true =>
    match compare (2 * (num % den)) den with
    | .lt => some c
    | .gt => some (c + 1)
    | .eq => match tie with
      | .down => some c
      | .up => some (c + 1)
      | .even => some (if c % 2 == 0 then c else c + 1)

/-- The decimal `c · 10 ^ u`, without zeros at the end. -/
def Decimal.ofGrid (c : Nat) (u : Int) : Decimal :=
  let digits := Nat.toDigits 10 c
  ⟨(digits.reverse.dropWhile (· == '0')).reverse, u + digits.length - 1⟩

/-- The shortest decimal: the first of the grids of one to seventeen digits with a hit. -/
def Dyadic.shortest (tie : Tie) (d : Dyadic) : Decimal :=
  let s := d.span
  let k := s.leading
  let hit := (List.range 17).findSome? fun (n : Nat) =>
    (s.nearest tie (k - n)).map fun c => Decimal.ofGrid c (k - n)
  hit.getD (.ofGrid d.m d.q)

end Rulebook
