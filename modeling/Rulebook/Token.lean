import Rulebook.Expr

/-!
Tokens are the words, literals and marks of an expression, each with the byte at which it starts.
The token after the last one stands for the end of the text.

    a >= 10         word a at 0,  ge at 2,  int 10 at 5,  the end at 7
-/

namespace Rulebook

/-- What a token says, which is all that the grammar looks at. -/
inductive Terminal where
  | word (name : String)
  | literal (l : Literal)
  | plus | minus | star | slash
  | gt | ge | lt | le | eq | ne
  | and | or | not
  | dot | openIndex | closeIndex | openCall | closeCall
  | ending
  deriving DecidableEq

/-- A token and the byte where it starts. -/
structure Token where
  terminal : Terminal
  position : Nat
  deriving DecidableEq

namespace Terminal

/-- A token as messages show it. -/
def text : Terminal → String
  | word name => "'" ++ name ++ "'"
  | literal (.str s) => "string '" ++ s ++ "'"
  | literal l => "'" ++ l.text ++ "'"
  | plus => "'+'"
  | minus => "'-'"
  | star => "'*'"
  | slash => "'/'"
  | gt => "'>'"
  | ge => "'>='"
  | lt => "'<'"
  | le => "'<='"
  | eq => "'=='"
  | ne => "'!='"
  | and => "'&&'"
  | or => "'||'"
  | not => "'!'"
  | dot => "'.'"
  | openIndex => "'['"
  | closeIndex => "']'"
  | openCall => "'('"
  | closeCall => "')'"
  | ending => "end of input"

/-- Whether the grammar may go on with an operand: not after an operand, a dot or a closing bracket.
    A minus sign before a digit belongs to the number there, and is the operator elsewhere. -/
def opensOperand : Terminal → Bool
  | word _ | literal _ | closeIndex | closeCall | dot => false
  | _ => true

/-- The equality that a token stands for. -/
def equality? : Terminal → Option BinOp
  | eq => some (.compare .eq)
  | ne => some (.compare .ne)
  | _ => none

/-- The order that a token stands for. -/
def relation? : Terminal → Option BinOp
  | gt => some (.compare .gt)
  | ge => some (.compare .ge)
  | lt => some (.compare .lt)
  | le => some (.compare .le)
  | _ => none

/-- The sum or difference that a token stands for. -/
def sum? : Terminal → Option BinOp
  | plus => some (.arith .add)
  | minus => some (.arith .sub)
  | _ => none

/-- The product or quotient that a token stands for. -/
def product? : Terminal → Option BinOp
  | star => some (.arith .mul)
  | slash => some (.arith .div)
  | _ => none

end Terminal

end Rulebook
