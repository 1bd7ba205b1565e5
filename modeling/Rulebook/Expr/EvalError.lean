import Rulebook.Expr

/-!
What can go wrong in an evaluation. Each cause keeps what its message names, so that a message is a
function of the cause.
-/

namespace Rulebook

/-- What an operation accepts. -/
inductive Expected where | number | bool | int | stringOrList
  deriving DecidableEq, Repr

/-- What is accepted, as messages show it. -/
def Expected.text : Expected → String
  | .number => "number"
  | .bool => "bool"
  | .int => "int"
  | .stringOrList => "string or list"

/-- Why an expression has no value. -/
inductive EvalError where
  | unboundVariable (name : String)
  | noSuchField (field owner : String)
  | noSuchMethod (method owner : String)
  | indexOutOfBounds (index : Int64) (size : Nat)
  | notIndexable (found : Kind)
  | typeMismatch (operator : String) (expected : Expected) (found : Kind)
  | divisionByZero
  | overflow (operator : Arith)
  deriving DecidableEq, Repr

/-- The message of a cause. -/
def EvalError.message : EvalError → String
  | unboundVariable name => "unbound variable '" ++ name ++ "'"
  | noSuchField field owner => "no field '" ++ field ++ "' on " ++ owner
  | noSuchMethod method owner => "no method '" ++ method ++ "()' on " ++ owner
  | indexOutOfBounds index size =>
    "index " ++ integerText index ++ " out of bounds for list of length " ++ toString size
  | notIndexable found => "cannot index into " ++ found.text
  | typeMismatch operator expected found =>
    "type mismatch: '" ++ operator ++ "' expects " ++ expected.text ++ ", found " ++ found.text
  | divisionByZero => "division by zero"
  | overflow operator => "integer overflow in '" ++ operator.text ++ "'"

/-- The name that a missing field or method is reported under. -/
def Value.owner : Value → String
  | .object _ type .. => type
  | v => v.kind.text

end Rulebook
