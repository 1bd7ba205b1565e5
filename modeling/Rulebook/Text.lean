/-!
Blanks are the twenty-five code points of the property White_Space. They separate lexemes, and an
identifier made of nothing else counts as missing.

    tab to carriage return   space   next line   no-break space
    ogham space              en quad to hair space
    line, paragraph separator        narrow no-break, medium mathematical, ideographic space

Places in a text are counted in bytes of UTF-8, not in characters, as are the lengths that messages
speak of.
-/

namespace Rulebook

/-- The property White_Space as ranges of code points, both ends included. -/
def blanks : List (Nat × Nat) :=
  [(0x09, 0x0D), (0x20, 0x20), (0x85, 0x85), (0xA0, 0xA0), (0x1680, 0x1680), (0x2000, 0x200A),
   (0x2028, 0x2029), (0x202F, 0x202F), (0x205F, 0x205F), (0x3000, 0x3000)]

/-- A blank is a character of the table. -/
def isBlank (c : Char) : Bool := blanks.any fun r => r.1 ≤ c.toNat && c.toNat ≤ r.2

/-- A text is blank when no character of it shows. -/
def isBlankText (s : String) : Bool := s.toList.all isBlank

/-- A text without its leading blanks. -/
def skipBlanks (cs : List Char) : List Char := cs.dropWhile isBlank

theorem length_skipBlanks_le (cs : List Char) : (skipBlanks cs).length ≤ cs.length :=
  (List.dropWhile_sublist isBlank).length_le

/-- The number of bytes of some characters. -/
def bytes : List Char → Nat
  | [] => 0
  | c :: cs => c.utf8Size + bytes cs

@[simp] theorem bytes_append (cs ds : List Char) : bytes (cs ++ ds) = bytes cs + bytes ds := by
  induction cs with
  | nil => simp [bytes]
  | cons c cs ih => simp [bytes, ih, Nat.add_assoc]

theorem length_le_bytes (cs : List Char) : cs.length ≤ bytes cs := by
  induction cs with
  | nil => simp
  | cons c cs ih =>
    have := c.utf8Size_pos
    simp only [List.length_cons, bytes]
    omega

end Rulebook
