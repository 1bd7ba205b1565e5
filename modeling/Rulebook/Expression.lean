import Rulebook.Expr.Eval
import Rulebook.Expr.Grammar
import Rulebook.Token.Scan

/-!
An expression is a text together with the tree that it spells. It is read once and evaluated as
often as needed; the text is what messages show.
-/

namespace Rulebook

/-- Why a text is no expression: a lexeme that cannot be read, or a token in the wrong place. -/
inductive SourceError where
  | lex (e : LexError)
  | parse (e : ParseError)
  deriving DecidableEq

/-- The message of either kind of fault. -/
def SourceError.message : SourceError → String
  | .lex e => e.message
  | .parse e => e.message

/-- The tree that a text spells. -/
def Expr.ofSource (source : String) : Except SourceError Expr :=
  match tokenize source with
  | .error e => .error (.lex e)
  | .ok tokens =>
    match Expr.ofTokens tokens with
    | .error e => .error (.parse e)
    | .ok e => .ok e

/-- A text that is an expression, and its tree. -/
structure Expression where
  source : String
  tree : Expr
  spells : Expr.ofSource source = .ok tree

namespace Expression

/-- The expression that a text is. -/
def ofSource (source : String) : Except SourceError Expression :=
  match h : Expr.ofSource source with
  | .error e => .error e
  | .ok tree => .ok ⟨source, tree, h⟩

/-- The value in a context. -/
def eval (c : Context) (e : Expression) : Except EvalError Value := e.tree.eval c

/-- The value as a condition, which has to be a truth value. -/
def test (c : Context) (e : Expression) : Except EvalError Bool :=
  match e.eval c with
  | .error e => .error e
  | .ok v => v.truth "condition"

end Expression

end Rulebook
