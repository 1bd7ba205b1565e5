import Rulebook.Value.Order

/-!
Expression trees. A chain `a && b && c` is one node with three operands, as is a chain of `||`;
every other operator has its operands below it, and an index holds a tree of its own.

    total * 2 >= user.limits[i + 1]

    compare ge
    ├── arith mul ── total, 2
    └── path user .limits [arith add ── i, 1]
-/

namespace Rulebook

/-- What an expression can spell out. -/
inductive Literal where
  | int (n : Int64)
  | float (x : Float)
  | str (s : String)
  | bool (b : Bool)
  deriving DecidableEq

/-- The value that a literal stands for. -/
def Literal.value : Literal → Value
  | .int n => .int n
  | .float x => .float x
  | .str s => .str s
  | .bool b => .bool b

/-- The arithmetic operators. -/
inductive Arith where | add | sub | mul | div
  deriving DecidableEq, Repr

/-- An arithmetic operator as it is written. -/
def Arith.text : Arith → String
  | .add => "+"
  | .sub => "-"
  | .mul => "*"
  | .div => "/"

/-- The operators with two operands. -/
inductive BinOp where
  | compare (c : Comparison)
  | arith (a : Arith)
  deriving DecidableEq, Repr

/-- An operator as it is written. -/
def BinOp.text : BinOp → String
  | .compare c => c.text
  | .arith a => a.text

mutual

/-- An expression tree. -/
inductive Expr where
  | literal (l : Literal)
  | path (root : String) (segments : List Segment)
  | binary (op : BinOp) (left right : Expr)
  | not (e : Expr)
  | all (es : List Expr)
  | any (es : List Expr)

/-- One step of a path after its root: `.name`, `.name()` or `[index]`. -/
inductive Segment where
  | field (name : String)
  | call (name : String)
  | index (e : Expr)

end

instance : Inhabited Expr := ⟨.literal (.bool false)⟩

/-- A literal as it is shown in a tree: a text between single quotes, as it is. -/
def Literal.text : Literal → String
  | .str s => "'" ++ s ++ "'"
  | l => l.value.text

mutual

/-- A tree with a pair of parentheses around every operator but `!`. -/
def Expr.text : Expr → String
  | .literal l => l.text
  | .path root ss => root ++ Segment.texts ss
  | .binary op l r => "(" ++ l.text ++ " " ++ op.text ++ " " ++ r.text ++ ")"
  | .not e => "!" ++ e.text
  | .all es => "(" ++ " && ".intercalate (Expr.texts es) ++ ")"
  | .any es => "(" ++ " || ".intercalate (Expr.texts es) ++ ")"

/-- The trees of a chain, one by one. -/
def Expr.texts : List Expr → List String
  | [] => []
  | e :: es => e.text :: Expr.texts es

/-- A segment as it is written. -/
def Segment.text : Segment → String
  | .field name => "." ++ name
  | .call name => "." ++ name ++ "()"
  | .index e => "[" ++ e.text ++ "]"

/-- The segments of a path, one after the other. -/
def Segment.texts : List Segment → String
  | [] => ""
  | s :: ss => s.text ++ Segment.texts ss

end

mutual

/-- The height of a tree: one for a literal or a bare path, one more than the tallest operand for an
    operator, and one more than the tallest index for a path with indices. -/
def Expr.height : Expr → Nat
  | .literal _ => 1
  | .path _ ss => max 1 (Segment.heights ss)
  | .binary _ l r => max l.height r.height + 1
  | .not e => e.height + 1
  | .all es => Expr.heights es + 1
  | .any es => Expr.heights es + 1

/-- The height of the tallest of some trees. -/
def Expr.heights : List Expr → Nat
  | [] => 0
  | e :: es => max e.height (Expr.heights es)

/-- The height that a segment lends to its path. -/
def Segment.height : Segment → Nat
  | .index e => e.height + 1
  | _ => 0

/-- The height that the tallest segment lends to its path. -/
def Segment.heights : List Segment → Nat
  | [] => 0
  | s :: ss => max s.height (Segment.heights ss)

end

end Rulebook
