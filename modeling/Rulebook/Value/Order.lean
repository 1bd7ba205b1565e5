import Rulebook.Value.Equality

/-!
The six comparisons. Equality is defined for every pair of values; order is a matter of numbers, and
asking for it of anything else has no answer. Two integers compare exactly, every other pair of
numbers as doubles, and beside a NaN no order holds.
-/

namespace Rulebook

/-- The comparison operators. -/
inductive Comparison where | eq | ne | gt | ge | lt | le
  deriving DecidableEq, Repr

/-- A comparison as it is written. -/
def Comparison.text : Comparison → String
  | .eq => "=="
  | .ne => "!="
  | .gt => ">"
  | .ge => ">="
  | .lt => "<"
  | .le => "<="

/-- Whether an order operator accepts the way two numbers stand to each other. -/
def Comparison.accepts : Comparison → Ordering → Bool
  | .gt, o => o == .gt
  | .ge, o => o != .lt
  | .lt, o => o == .lt
  | .le, o => o != .gt
  | .eq, o => o == .eq
  | .ne, o => o != .eq

/-- How two doubles stand to each other; a NaN stands in no order. -/
def doubleOrder (x y : Float) : Option Ordering :=
  if x < y then some .lt
  else if x > y then some .gt
  else if x == y then some .eq
  else none

namespace Value

/-- How two numbers stand to each other: the outer option is empty unless both values are numbers,
    the inner one if a NaN is among them. -/
def numericOrder : Value → Value → Option (Option Ordering)
  | int a, int b => some (some (compare a b))
  | a, b => do some (doubleOrder (← a.float?) (← b.float?))

/-- The answer of a comparison, if it has one. -/
def compares (c : Comparison) (a b : Value) : Option Bool :=
  match c with
  | .eq => some (a.equals b)
  | .ne => some (!a.equals b)
  | c => (numericOrder a b).map fun o => o.any c.accepts

end Value

end Rulebook
