import Rulebook.Context
import Rulebook.Expr.EvalError

/-!
The value of an expression in a context. Operands are evaluated from the left, and the first failure
is the result; a chain stops at the first operand that decides it, so what stands behind that one is
never looked at.

    integers          computed without bounds, refused if the result does not fit
    other numbers     computed as doubles
    anything else     a mismatch, blamed on the right operand only if the left one is a number

A path starts at a name of the context and goes on by fields, calls and indices.
-/

namespace Rulebook

/-- The operand that is no number; the left one, if neither is. -/
def blame (a b : Value) : Kind := if a.isNumeric then b.kind else a.kind

/-- A comparison of two values. -/
def Comparison.apply (c : Comparison) (a b : Value) : Except EvalError Bool :=
  match a.compares c b with
  | some r => .ok r
  | none => .error (.typeMismatch c.text .number (blame a b))

/-- The exact result on integers; division goes toward zero. -/
def Arith.onInt : Arith → Int → Int → Int
  | .add, a, b => a + b
  | .sub, a, b => a - b
  | .mul, a, b => a * b
  | .div, a, b => a.tdiv b

/-- The result on doubles. -/
def Arith.onFloat : Arith → Float → Float → Float
  | .add, x, y => x + y
  | .sub, x, y => x - y
  | .mul, x, y => x * y
  | .div, x, y => x / y

/-- Arithmetic on two values: among integers if both are, else among doubles. -/
def Arith.apply (op : Arith) (a b : Value) : Except EvalError Value :=
  match a, b with
  | .int m, .int n =>
    if op = .div ∧ n = 0 then .error .divisionByZero
    else match fit? (op.onInt m.toInt n.toInt) with
      | some r => .ok (.int r)
      | none => .error (.overflow op)
  | a, b =>
    match a.float?, b.float? with
    | some x, some y =>
      if op = .div ∧ y == 0.0 then .error .divisionByZero else .ok (.float (op.onFloat x y))
    | _, _ => .error (.typeMismatch op.text .number (blame a b))

/-- An operator on the values of its operands. -/
def BinOp.apply : BinOp → Value → Value → Except EvalError Value
  | .compare c, a, b => (c.apply a b).map .bool
  | .arith op, a, b => op.apply a b

namespace Value

/-- The truth value that an operator needs. -/
def truth (operator : String) (v : Value) : Except EvalError Bool :=
  match v.bool? with
  | some b => .ok b
  | none => .error (.typeMismatch operator .bool v.kind)

/-- The field of a map or of an object. -/
def field (name : String) (v : Value) : Except EvalError Value :=
  let found := match v with
    | map fs => Fields.find? name fs
    | object _ _ field _ => field name
    | _ => none
  match found with
  | some w => .ok w
  | none => .error (.noSuchField name v.owner)

/-- The number of elements, fields or characters. -/
def size? : Value → Option Nat
  | list vs => some vs.length
  | map fs => some fs.length
  | str s => some s.length
  | _ => none

/-- The result of a call: of the size of a collection or text, the largest integer if it is larger
    than that, else whatever an object answers. -/
def call (name : String) (v : Value) : Except EvalError Value :=
  let found := match v.size?, v with
    | some n, _ =>
      if name = "size" ∨ name = "length" then some (int ((fit? n).getD .maxValue))
      else if name = "isEmpty" then some (bool (n == 0))
      else none
    | none, object _ _ _ call => call name
    | none, _ => none
  match found with
  | some w => .ok w
  | none => .error (.noSuchMethod name v.owner)

/-- The element of a list at an index that has been evaluated. -/
def element (items : List Value) (index : Value) : Except EvalError Value :=
  match index.int? with
  | none => .error (.typeMismatch "[]" .int index.kind)
  | some i =>
    let found := if 0 ≤ i.toInt then items[i.toInt.toNat]? else none
    match found with
    | some v => .ok v
    | none => .error (.indexOutOfBounds i items.length)

end Value

mutual

/-- The value of a tree. -/
def Expr.eval (c : Context) : Expr → Except EvalError Value
  | .literal l => .ok l.value
  | .path root ss =>
    match c.lookup root with
    | some v => Segment.walk c ss v
    | none => .error (.unboundVariable root)
  | .binary op l r =>
    match l.eval c with
    | .error e => .error e
    | .ok a =>
      match r.eval c with
      | .error e => .error e
      | .ok b => op.apply a b
  | .not e =>
    match e.eval c with
    | .error e => .error e
    | .ok v => (v.truth "!").map fun b => .bool !b
  | .all es => (Expr.settle c "&&" false es).map .bool
  | .any es => (Expr.settle c "||" true es).map .bool

/-- The value of a chain, which the first operand equal to `stop` settles. -/
def Expr.settle (c : Context) (operator : String) (stop : Bool) :
    List Expr → Except EvalError Bool
  | [] => .ok !stop
  | e :: es =>
    match e.eval c with
    | .error e => .error e
    | .ok v =>
      match v.truth operator with
      | .error e => .error e
      | .ok b => if b = stop then .ok stop else Expr.settle c operator stop es

/-- Follow the segments of a path from a value. -/
def Segment.walk (c : Context) : List Segment → Value → Except EvalError Value
  | [], v => .ok v
  | s :: ss, v =>
    match s.step c v with
    | .error e => .error e
    | .ok w => Segment.walk c ss w

/-- One segment. Only a list has elements, and for nothing else is the index looked at. -/
def Segment.step (c : Context) : Segment → Value → Except EvalError Value
  | .field name, v => v.field name
  | .call name, v => v.call name
  | .index e, v =>
    match v with
    | .list items =>
      match e.eval c with
      | .error e => .error e
      | .ok i => Value.element items i
    | v => .error (.notIndexable v.kind)

end

end Rulebook
