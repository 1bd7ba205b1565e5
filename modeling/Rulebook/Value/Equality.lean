import Rulebook.Value

/-!
Two equalities of values. Expressions use `equals`, in which numbers count by value whatever their
kind: `1` equals `1.0`, also inside lists and maps. `identical` tells an integer from a double and
takes nothing else apart: doubles compare as doubles do, `0.0` with `-0.0` and a NaN with nothing.

                     1, 1.0      0.0, -0.0     NaN, NaN     one object     two objects
    equals           yes         yes           no           yes            no
    identical        no          yes           no           yes            no
-/

namespace Rulebook.Value

mutual

/-- Equality kind by kind. -/
def identical : Value → Value → Bool
  | int a, int b => a == b
  | float x, float y => x == y
  | bool a, bool b => a == b
  | str s, str t => s == t
  | list as, list bs => identicalItems as bs
  | map as, map bs => identicalFields as bs
  | object a .., object b .. => a == b
  | null, null => true
  | _, _ => false

/-- `identical` element by element. -/
def identicalItems : List Value → List Value → Bool
  | [], [] => true
  | a :: as, b :: bs => identical a b && identicalItems as bs
  | _, _ => false

/-- `identical` field by field, names included. -/
def identicalFields : List (String × Value) → List (String × Value) → Bool
  | [], [] => true
  | (j, a) :: as, (k, b) :: bs => j == k && identical a b && identicalFields as bs
  | _, _ => false

end

/-- Equality of two values that are neither numbers nor made of others. -/
def sameAtom : Value → Value → Bool
  | bool a, bool b => a == b
  | str s, str t => s == t
  | object a .., object b .. => a == b
  | null, null => true
  | _, _ => false

mutual

/-- Equality by value: two integers exactly, any other two numbers as doubles, lists and maps
    element by element. -/
def equals : Value → Value → Bool
  | int a, int b => a == b
  | int a, float y => widen a == y
  | float x, int b => x == widen b
  | float x, float y => x == y
  | list as, list bs => equalItems as bs
  | map as, map bs => equalFields as bs
  | a, b => sameAtom a b

/-- `equals` element by element. -/
def equalItems : List Value → List Value → Bool
  | [], [] => true
  | a :: as, b :: bs => equals a b && equalItems as bs
  | _, _ => false

/-- `equals` field by field, names included. -/
def equalFields : List (String × Value) → List (String × Value) → Bool
  | [], [] => true
  | (j, a) :: as, (k, b) :: bs => j == k && equals a b && equalFields as bs
  | _, _ => false

end

end Rulebook.Value
