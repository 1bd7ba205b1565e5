import Rulebook.Decimal.Layout
import Rulebook.Number

/-!
Values are what expressions compute and contexts hold: sixty-four-bit integers, doubles, truth
values, texts, lists, maps, objects and null. A map is data; an object belongs to the caller, who
answers for its fields and calls, and is known by its number alone.

    int 3   float 2.5   bool true   str "gold"   list [1, 2]   map (zip = 150)   object   null

A view such as `int?` gives the content of a value of one kind and nothing for the others. In the
text of a value texts stand between double quotes as they are, and an object shows its type and
nothing else:

    3   2.5   true   "gold"   [1, 2.0]   {city: "Oslo", zip: 150}   <Customer>   null
-/

namespace Rulebook

/-- The kinds of value. -/
inductive Kind where | int | float | bool | str | list | map | object | null
  deriving DecidableEq, Repr

/-- The word for a kind in messages. -/
def Kind.text : Kind → String
  | .int => "int"
  | .float => "float"
  | .bool => "bool"
  | .str => "string"
  | .list => "list"
  | .map => "map"
  | .object => "object"
  | .null => "null"

/-- A value. The fields of a map stand in the order of their names; two objects with one number are
    one object. -/
inductive Value where
  | int (n : Int64)
  | float (x : Float)
  | bool (b : Bool)
  | str (s : String)
  | list (items : List Value)
  | map (fields : List (String × Value))
  | object (number : Nat) (type : String) (field call : String → Option Value)
  | null
  deriving Inhabited

/-- A truth value as it is written. -/
def boolText (b : Bool) : String := if b then "true" else "false"

namespace Value

/-- The kind of a value. -/
def kind : Value → Kind
  | int _ => .int
  | float _ => .float
  | bool _ => .bool
  | str _ => .str
  | list _ => .list
  | map _ => .map
  | object .. => .object
  | null => .null

/-- Whether a value is null. -/
def isNull : Value → Bool
  | null => true
  | _ => false

/-- Whether a value is a number of either kind. -/
def isNumeric : Value → Bool
  | int _ | float _ => true
  | _ => false

/-- The truth value, of a truth value. -/
def bool? : Value → Option Bool
  | bool b => some b
  | _ => none

/-- The integer, of an integer. -/
def int? : Value → Option Int64
  | int n => some n
  | _ => none

/-- A number as a double; an integer is widened. -/
def float? : Value → Option Float
  | int n => some (widen n)
  | float x => some x
  | _ => none

/-- The text, of a text. -/
def str? : Value → Option String
  | str s => some s
  | _ => none

/-- The elements, of a list. -/
def items? : Value → Option (List Value)
  | list vs => some vs
  | _ => none

/-- The fields of a map; any other value has none. -/
def fields : Value → List (String × Value)
  | map fs => fs
  | _ => []

theorem isNull_iff {v : Value} : v.isNull = true ↔ v = null := by cases v <;> simp [isNull]

theorem isNumeric_iff {v : Value} : v.isNumeric = true ↔ v.kind = .int ∨ v.kind = .float := by
  cases v <;> simp [isNumeric, kind]

theorem float?_eq_none_iff {v : Value} : v.float? = none ↔ v.isNumeric = false := by
  cases v <;> simp [float?, isNumeric]

theorem bool?_eq_none_iff {v : Value} : v.bool? = none ↔ v.kind ≠ .bool := by
  cases v <;> simp [bool?, kind]

theorem int?_eq_none_iff {v : Value} : v.int? = none ↔ v.kind ≠ .int := by
  cases v <;> simp [int?, kind]

/-! ### The text of a value -/

mutual

/-- A value as it is shown. -/
def text : Value → String
  | int n => integerText n
  | float x => numberLayout.text x
  | bool b => boolText b
  | str s => "\"" ++ s ++ "\""
  | list vs => "[" ++ ", ".intercalate (itemTexts vs) ++ "]"
  | map fs => "\x7b" ++ ", ".intercalate (fieldTexts fs) ++ "\x7d"
  | object _ type .. => "<" ++ type ++ ">"
  | null => "null"

/-- The elements of a list, one by one. -/
def itemTexts : List Value → List String
  | [] => []
  | v :: vs => text v :: itemTexts vs

/-- The fields of a map, each behind its name. -/
def fieldTexts : List (String × Value) → List String
  | [] => []
  | (k, v) :: fs => (k ++ ": " ++ text v) :: fieldTexts fs

end

end Value

end Rulebook
