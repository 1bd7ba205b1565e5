import Rulebook.Text
import Rulebook.Token.Lexeme

/-!
The tokens of a text: blanks are passed over, a lexeme is read, and so on to the end. A token's
position counts the bytes of UTF-8 before it. Whether an operand is due is known from the token
before, and at the start one is.

    "1 -2"       int 1 at 0,  minus at 2,  int 2 at 3,  the end at 4
    "1 + -2"     int 1 at 0,  plus at 2,   int -2 at 4, the end at 6
-/

namespace Rulebook

/-- The first place where no token can be read. -/
structure LexError where
  position : Nat
  cause : LexCause
  deriving DecidableEq, Repr

/-- The fault with its place. -/
def LexError.message (e : LexError) : String :=
  "lex error at " ++ toString e.position ++ ": " ++ e.cause.message

theorem length_lt_of_readLexeme {operand : Bool} {c : Char} {cs rest : List Char} {l : Lexeme}
    (hs : skipBlanks cs = c :: rest) (hl : readLexeme operand c rest = .ok l) :
    l.rest.length < cs.length := by
  have h₁ := readLexeme_shorter hl
  have h₂ := length_skipBlanks_le cs
  rw [hs, List.length_cons] at h₂
  omega

/-- The tokens of a text that starts at a position. -/
def scan (position : Nat) (operand : Bool) (cs : List Char) : Except LexError (List Token) :=
  let start := position + bytes (cs.takeWhile isBlank)
  match hs : skipBlanks cs with
  | [] => .ok [⟨.ending, start⟩]
  | c :: rest =>
    match hl : readLexeme operand c rest with
    | .error cause => .error ⟨start, cause⟩
    | .ok l =>
      have := length_lt_of_readLexeme hs hl
      (scan (start + bytes l.text) l.terminal.opensOperand l.rest).map
        (⟨l.terminal, start⟩ :: ·)
termination_by cs.length

/-- The tokens of an expression's text, the last of which is its end. -/
def tokenize (source : String) : Except LexError (List Token) := scan 0 true source.toList

end Rulebook
