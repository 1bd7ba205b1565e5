import Rulebook.Expr.Eval

/-!
A field test compares what stands at a dotted path with a constant. A field that is missing, or
null, equals null and stands in no other relation to anything; that is no failure.

    total >= 100        tags contains 'new'        owner.name == null
-/

namespace Rulebook

/-- How a field is tested. -/
inductive FieldOp where
  | compare (c : Comparison)
  | contains
  deriving DecidableEq, Repr

/-- A test as it is written. -/
def FieldOp.text : FieldOp → String
  | .compare c => c.text
  | .contains => "contains"

/-- A path, a test, and the constant to test against. -/
structure FieldTest where
  path : String
  op : FieldOp
  constant : Value

/-- Whether a text occurs inside another. -/
def occurs (needle : List Char) : List Char → Bool
  | [] => needle.isEmpty
  | c :: cs => needle.isPrefixOf (c :: cs) || occurs needle cs

/-- Whether a text has a given part, or a list a given element. -/
def containment (v needle : Value) : Except EvalError Bool :=
  match v, needle with
  | .str s, .str t => .ok (occurs t.toList s.toList)
  | .list vs, w => .ok (vs.any fun v => v.equals w)
  | v, _ => .error (.typeMismatch "contains" .stringOrList v.kind)

/-- The expression that reads a dotted path. -/
def Path.expr (p : Path) : Expr := .path p.root (p.rest.map .field)

namespace FieldTest

/-- What a test says of a field that is not there. -/
def onMissing (t : FieldTest) : Bool := t.op == .compare .eq && t.constant.isNull

/-- What a test says of a value. -/
def onValue (t : FieldTest) (v : Value) : Except EvalError Bool :=
  match t.op with
  | .compare c => c.apply v t.constant
  | .contains => containment v t.constant

/-- Whether the test holds in a context. -/
def test (c : Context) (t : FieldTest) : Except EvalError Bool :=
  match (Path.ofString t.path).expr.eval c with
  | .ok .null => .ok t.onMissing
  | .ok v => t.onValue v
  | .error (.unboundVariable _) => .ok t.onMissing
  | .error (.noSuchField ..) => .ok t.onMissing
  | .error e => .error e

/-- A test as it is shown, with a text between single quotes. -/
def text (t : FieldTest) : String :=
  let constant := match t.constant with
    | .str s => "'" ++ s ++ "'"
    | v => v.text
  t.path ++ " " ++ t.op.text ++ " " ++ constant

end FieldTest

end Rulebook
