import Rulebook.Token

/-!
Reading one lexeme. The first character decides what stands there.

    quote                               a text up to the same quote
    digit, or minus before a digit      a number, where the minus needs an operand to be due
    letter or underscore                a word, or a truth value
    anything else                       an operator or bracket, the longer one of two

A number takes `digits` or `digits.digits`. If letters, digits, points or underscores follow at
once, the whole run is one malformed number. `readLexeme_split` says that what was read is a piece
of the text, and not an empty one.
-/

namespace Rulebook

/-- Why no token can be read. -/
inductive LexCause where
  | unexpected (c : Char)
  | unterminated
  | malformed (text : String)
  deriving DecidableEq, Repr

/-- The cause as messages show it. -/
def LexCause.message : LexCause → String
  | .unexpected c => "unexpected character '" ++ c.toString ++ "'"
  | .unterminated => "unterminated string literal"
  | .malformed text => "malformed number '" ++ text ++ "'"

/-- A terminal, the text that spells it, and the text after it. -/
structure Lexeme where
  terminal : Terminal
  text : List Char
  rest : List Char
  deriving DecidableEq

/-- A character that can start a word. -/
def isWordStart (c : Char) : Bool := c.isAlpha || c == '_'

/-- A character that can go on with a word. -/
def isWordPart (c : Char) : Bool := c.isAlphanum || c == '_'

theorem isWordPart_of_isWordStart {c : Char} (h : isWordStart c = true) : isWordPart c = true := by
  simp only [isWordStart, isWordPart, Char.isAlphanum, Bool.or_eq_true] at h ⊢
  exact h.imp .inl id

/-- A character that may not follow a number. -/
def isNumberTail (c : Char) : Bool := c.isAlphanum || c == '.' || c == '_'

/-- Either kind of quote. -/
def isQuote (c : Char) : Bool := c == '\x22' || c == '\x27'

/-- A word, unless it is one of the two truth values. -/
def Terminal.ofWord (w : List Char) : Terminal :=
  if w = ['t', 'r', 'u', 'e'] then .literal (.bool true)
  else if w = ['f', 'a', 'l', 's', 'e'] then .literal (.bool false)
  else .word (String.ofList w)

/-- The longest word at the head of a text. -/
def readWord (cs : List Char) : Lexeme :=
  let w := cs.takeWhile isWordPart
  ⟨.ofWord w, w, cs.dropWhile isWordPart⟩

/-- The text between a quote and the next one like it; there is no way to write that
    quote inside. -/
def readQuoted (q : Char) (cs : List Char) : Except LexCause Lexeme :=
  let body := cs.takeWhile (· != q)
  match cs.dropWhile (· != q) with
  | [] => .error .unterminated
  | e :: rest => .ok ⟨.literal (.str (String.ofList body)), q :: body ++ [e], rest⟩

/-- The digits after a point, if both are there, and the text after them. -/
def readPart : List Char → List Char × List Char
  | '.' :: d :: cs =>
    if d.isDigit then ((d :: cs).takeWhile Char.isDigit, (d :: cs).dropWhile Char.isDigit)
    else ([], '.' :: d :: cs)
  | cs => ([], cs)

/-- The spelling of a number: minus sign, digits, and the part after the point. -/
def numberText (negative : Bool) (cs : List Char) : List Char :=
  let part := (readPart (cs.dropWhile Char.isDigit)).1
  (if negative then ['-'] else []) ++ cs.takeWhile Char.isDigit ++
    (if part.isEmpty then [] else '.' :: part)

/-- The number at the head of a text, whose minus sign has been read already. -/
def readNumber (negative : Bool) (cs : List Char) : Except LexCause Lexeme :=
  let whole := cs.takeWhile Char.isDigit
  let (part, rest) := readPart (cs.dropWhile Char.isDigit)
  let text := numberText negative cs
  let tail := rest.takeWhile isNumberTail
  if !tail.isEmpty then .error (.malformed (String.ofList (text ++ tail)))
  else if !part.isEmpty then
    .ok ⟨.literal (.float (readDouble negative whole part)), text, rest⟩
  else match readInteger negative whole with
    | some n => .ok ⟨.literal (.int n), text, rest⟩
    | none => .error (.malformed (String.ofList text))

/-- The operator or bracket at the head of a text, two characters long if it can be. -/
def readMark : List Char → Option Lexeme
  | '>' :: '=' :: cs => some ⟨.ge, ['>', '='], cs⟩
  | '<' :: '=' :: cs => some ⟨.le, ['<', '='], cs⟩
  | '=' :: '=' :: cs => some ⟨.eq, ['=', '='], cs⟩
  | '!' :: '=' :: cs => some ⟨.ne, ['!', '='], cs⟩
  | '&' :: '&' :: cs => some ⟨.and, ['&', '&'], cs⟩
  | '|' :: '|' :: cs => some ⟨.or, ['|', '|'], cs⟩
  | '>' :: cs => some ⟨.gt, ['>'], cs⟩
  | '<' :: cs => some ⟨.lt, ['<'], cs⟩
  | '!' :: cs => some ⟨.not, ['!'], cs⟩
  | '+' :: cs => some ⟨.plus, ['+'], cs⟩
  | '-' :: cs => some ⟨.minus, ['-'], cs⟩
  | '*' :: cs => some ⟨.star, ['*'], cs⟩
  | '/' :: cs => some ⟨.slash, ['/'], cs⟩
  | '.' :: cs => some ⟨.dot, ['.'], cs⟩
  | '[' :: cs => some ⟨.openIndex, ['['], cs⟩
  | ']' :: cs => some ⟨.closeIndex, [']'], cs⟩
  | '(' :: cs => some ⟨.openCall, ['('], cs⟩
  | ')' :: cs => some ⟨.closeCall, [')'], cs⟩
  | _ => none

/-- Whether a text starts with a digit. -/
def startsDigit (cs : List Char) : Bool := (cs.head?.map Char.isDigit).getD false

/-- The lexeme that starts with `c`, where `operand` says whether an operand is due. -/
def readLexeme (operand : Bool) (c : Char) (cs : List Char) : Except LexCause Lexeme :=
  if isQuote c then readQuoted c cs
  else if c.isDigit then readNumber false (c :: cs)
  else if c == '-' && operand && startsDigit cs then readNumber true cs
  else if isWordStart c then .ok (readWord (c :: cs))
  else match readMark (c :: cs) with
    | some l => .ok l
    | none => .error (.unexpected c)

theorem readQuoted_split {q : Char} {cs : List Char} {l : Lexeme} (h : readQuoted q cs = .ok l) :
    l.text ≠ [] ∧ q :: cs = l.text ++ l.rest := by
  unfold readQuoted at h
  split at h
  · cases h
  · next e rest he =>
    cases h
    refine ⟨by simp, ?_⟩
    have := List.takeWhile_append_dropWhile (p := (· != q)) (l := cs)
    rw [he] at this
    simp [this]

theorem readPart_split (cs : List Char) :
    cs = (if (readPart cs).1.isEmpty then [] else '.' :: (readPart cs).1) ++ (readPart cs).2 := by
  unfold readPart
  split
  · next d cs =>
    split
    · next hd => simp [hd, List.takeWhile_append_dropWhile]
    · simp
  · simp

theorem readNumber_text {negative : Bool} {cs : List Char} {l : Lexeme}
    (h : readNumber negative cs = .ok l) :
    l.text = numberText negative cs ∧ l.rest = (readPart (cs.dropWhile Char.isDigit)).2 := by
  unfold readNumber at h
  simp only at h
  split at h
  · cases h
  split at h
  · cases h; exact ⟨rfl, rfl⟩
  split at h
  · cases h; exact ⟨rfl, rfl⟩
  · cases h

theorem readNumber_split {negative : Bool} {cs : List Char} {l : Lexeme}
    (h : readNumber negative cs = .ok l) :
    (if negative then ['-'] else []) ++ cs = l.text ++ l.rest := by
  obtain ⟨ht, hr⟩ := readNumber_text h
  rw [ht, hr, numberText]
  simp only [List.append_assoc]
  rw [← readPart_split, List.takeWhile_append_dropWhile]

theorem readMark_split {cs : List Char} {l : Lexeme} (h : readMark cs = some l) :
    l.text ≠ [] ∧ cs = l.text ++ l.rest := by
  unfold readMark at h
  split at h <;> cases h <;> simp

/-- A lexeme is not empty and stands at the head of the text. -/
theorem readLexeme_split {operand : Bool} {c : Char} {cs : List Char} {l : Lexeme}
    (h : readLexeme operand c cs = .ok l) : l.text ≠ [] ∧ c :: cs = l.text ++ l.rest := by
  unfold readLexeme at h
  split at h
  · exact readQuoted_split h
  split at h
  · next hc =>
    refine ⟨?_, by simpa using readNumber_split h⟩
    rw [(readNumber_text h).1, numberText]
    simp [hc]
  split at h
  · next hc =>
    have hm : c = '-' := by simp only [Bool.and_eq_true, beq_iff_eq] at hc; exact hc.1.1
    refine ⟨?_, by simpa [hm] using readNumber_split h⟩
    rw [(readNumber_text h).1, numberText]
    simp
  split at h
  · next hc =>
    cases h
    simp [readWord, isWordPart_of_isWordStart hc, List.takeWhile_append_dropWhile]
  split at h
  · next hl => cases h; exact readMark_split hl
  · cases h

theorem readLexeme_shorter {operand : Bool} {c : Char} {cs : List Char} {l : Lexeme}
    (h : readLexeme operand c cs = .ok l) : l.rest.length ≤ cs.length := by
  obtain ⟨hne, hs⟩ := readLexeme_split h
  have hl := congrArg List.length hs
  have := List.length_pos_iff.2 hne
  simp only [List.length_cons, List.length_append] at hl
  omega

end Rulebook
