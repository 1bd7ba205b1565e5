import Mathlib
import Rulebook.Proofs.Tiling

/-!
Where a text cannot be scanned, and why. The fault is at the first character that is no blank behind
the lexemes that can be read:

    text          'é' < -12ab
    in front      'é' <             text é at 0,  lt at 5,  the end at 7
    fault         at 7              malformed -12ab

The text in front is one that can be scanned, into the same tokens: a lexeme asks of what is behind
it only not to go on with certain characters, and nothing goes on with any character where the text
is cut. The cause tells what stands at the fault:

    unexpected c     the character c, with which no lexeme begins there
    unterminated     a quote that does not come again
    malformed s      the number s, too large or grown together with what follows it
-/

namespace Rulebook

variable {operand negative : Bool} {c : Char} {cs rest front back : List Char} {l : Lexeme}

/-! ### Cutting a text -/

/-- A lexeme is still one if the text is cut somewhere behind it. -/
theorem Terminal.Spells.cut {t : Terminal} (h : t.Spells operand cs (front ++ back)) :
    t.Spells operand cs front := by
  refine h.of_head fun c hc _ => ?_
  rw [Option.mem_def] at hc ⊢
  rw [List.head?_append, hc]
  rfl

/-! ### What stands at a fault -/

/-- No lexeme stands at the head of a text, whether an operand is due or not and whatever the lexeme
    needs to have behind it. -/
def Lexless (cs : List Char) : Prop :=
  ∀ (operand : Bool) (t : Terminal) (lexeme rest : List Char), t.Spells operand lexeme rest →
    ¬ lexeme <+: cs

/-- A number that is none, in front of a text: an integer that does not fit, or digits, with a part
    after the point or without, and all the letters, digits, points and underscores behind them. -/
inductive Malformed : List Char → List Char → Prop
  | large {negative : Bool} {ds rest : List Char} : IsDigits ds →
      ¬ Fits (if negative then -(digitsValue ds : Int) else digitsValue ds) →
      Stops isNumberTail rest →
      Malformed (minusSign negative ++ ds) rest
  | grown {negative : Bool} {ds part tail rest : List Char} : IsDigits ds →
      (part = [] ∨ ∃ es, IsDigits es ∧ part = '.' :: es) →
      tail ≠ [] → (∀ c ∈ tail, isNumberTail c = true) → Stops isNumberTail rest →
      Malformed (minusSign negative ++ ds ++ part ++ tail) rest

/-- What a cause says of the text that begins at the fault. -/
def LexCause.Explains (cs : List Char) : LexCause → Prop
  | unexpected c => cs.head? = some c ∧ Lexless cs
  | unterminated => ∃ q body, cs = q :: body ∧ isQuote q = true ∧ q ∉ body
  | malformed text => ∃ rest, cs = text.toList ++ rest ∧ Malformed text.toList rest

theorem readQuoted_error {q : Char} {cause : LexCause} (h : readQuoted q cs = .error cause) :
    cause = .unterminated ∧ q ∉ cs := by
  unfold readQuoted at h
  split at h
  · next hnil =>
    cases h
    refine ⟨rfl, fun hmem => ?_⟩
    simpa using List.dropWhile_eq_nil_iff.1 hnil q hmem
  · cases h

/-- The spelling of a number and what is behind it make up the text. -/
theorem numberText_append (negative : Bool) (cs : List Char) :
    numberText negative cs ++ (readPart (cs.dropWhile Char.isDigit)).2 =
      minusSign negative ++ cs := by
  simp only [numberText, minusSign, List.append_assoc]
  rw [← readPart_split, List.takeWhile_append_dropWhile]

theorem readNumber_error {cause : LexCause} (hd : startsDigit cs = true)
    (h : readNumber negative cs = .error cause) :
    ∃ text rest, cause = .malformed (String.ofList text) ∧
      minusSign negative ++ cs = text ++ rest ∧
      Malformed text rest := by
  have hwhole := isDigits_takeWhile hd
  have htext := numberText_append negative cs
  unfold readNumber at h
  rcases readPart_eq (cs.dropWhile Char.isDigit) with hpart | ⟨es, rest, hpart, hes, -⟩
  · have hspelled : numberText negative cs = minusSign negative ++ cs.takeWhile Char.isDigit := by
      simp [numberText, minusSign, hpart]
    rw [hpart] at h htext
    generalize cs.dropWhile Char.isDigit = rest at h htext
    simp only [List.isEmpty_nil, Bool.not_true, Bool.false_eq_true, if_false] at h
    split at h
    · next htail =>
      cases h
      refine ⟨_, rest.dropWhile isNumberTail, rfl, ?_, ?_⟩
      · rw [← htext, List.append_assoc, List.takeWhile_append_dropWhile]
      · rw [hspelled, ← List.append_nil (minusSign negative ++ _)]
        exact .grown hwhole (.inl rfl) (by simpa using htail)
          (fun c hc => List.mem_takeWhile_imp hc)
          (stops_dropWhile _ _)
    · next htail =>
      split at h
      · cases h
      next hinteger =>
      cases h
      refine ⟨_, rest, rfl, htext.symm, ?_⟩
      rw [hspelled]
      refine .large hwhole (fit?_eq_none_iff.1 hinteger) (stops_iff_takeWhile.2 ?_)
      simpa using htail
  · have hne : es.isEmpty = false := by simpa using hes.1
    have hspelled : numberText negative cs =
        minusSign negative ++ cs.takeWhile Char.isDigit ++ '.' :: es := by
      simp [numberText, minusSign, hpart, hne]
    rw [hpart] at h htext
    simp only [hne, Bool.not_false, if_true] at h
    split at h
    · next htail =>
      cases h
      refine ⟨_, rest.dropWhile isNumberTail, rfl, ?_, ?_⟩
      · rw [← htext, List.append_assoc, List.takeWhile_append_dropWhile]
      · rw [hspelled]
        exact .grown hwhole (.inr ⟨es, hes, rfl⟩) (by simpa using htail)
          (fun c hc => List.mem_takeWhile_imp hc) (stops_dropWhile _ _)
    · cases h

/-- A mark that may be the beginning of a longer one is read whatever is behind it. -/
theorem readMark_ne_none {d : Char} (hd : d ∈ ['>', '<', '!']) (more : List Char) :
    readMark (d :: more) ≠ none := by
  simp only [List.mem_cons, List.not_mem_nil, or_false] at hd
  rcases hd with rfl | rfl | rfl <;> unfold readMark <;> split <;> simp_all

/-- Where a mark is read, one is read as well if the text goes on in another way behind it. -/
theorem readMark_append_ne_none (h : readMark cs = some l) (more : List Char) :
    readMark (l.text ++ more) ≠ none := by
  unfold readMark at h
  split at h <;> cases h <;>
    first | exact Option.some_ne_none _ | exact readMark_ne_none (by simp) more

theorem lexless_of_readMark (hq : isQuote c = false) (hd : c.isDigit = false)
    (hw : isWordStart c = false) (hm : readMark (c :: cs) = none) : Lexless (c :: cs) := by
  rintro operand t lexeme rest hspells ⟨more, hmore⟩
  obtain ⟨d, ds, rfl⟩ := List.exists_cons_of_ne_nil hspells.ne_nil
  obtain ⟨rfl, rfl⟩ := List.cons.inj hmore
  have hsign : (d == '-') = false := by
    rw [beq_eq_false_iff_ne]
    rintro rfl
    cases hm
  have hread := readLexeme_of_spells hspells
  simp only [readLexeme, hq, hd, hw, hsign, Bool.false_and, Bool.false_eq_true, if_false] at hread
  split at hread
  · next hmark =>
    cases hread
    exact readMark_append_ne_none hmark more hm
  · cases hread

/-- A cause tells what stands at the fault. -/
theorem readLexeme_error {cause : LexCause} (h : readLexeme operand c cs = .error cause) :
    cause.Explains (c :: cs) := by
  have hnumber {negative : Bool} {ds : List Char} (hd : startsDigit ds = true)
      (hcs : c :: cs = minusSign negative ++ ds) (h : readNumber negative ds = .error cause) :
      cause.Explains (c :: cs) := by
    obtain ⟨text, rest, rfl, htext, hmalformed⟩ := readNumber_error hd h
    refine ⟨rest, ?_, ?_⟩
    · rw [String.toList_ofList, hcs, htext]
    · rwa [String.toList_ofList]
  unfold readLexeme at h
  split at h
  · next hq =>
    obtain ⟨rfl, hnot⟩ := readQuoted_error h
    exact ⟨c, cs, rfl, hq, hnot⟩
  next hq =>
  split at h
  · next hd =>
    have hstart : startsDigit (c :: cs) = true := hd
    exact hnumber hstart rfl h
  next hd =>
  split at h
  · next hsign =>
    simp only [Bool.and_eq_true, beq_iff_eq] at hsign
    exact hnumber hsign.2 (by rw [hsign.1.1]; rfl) h
  split at h
  · cases h
  next hw =>
  split at h
  · cases h
  · next hm =>
    cases h
    exact ⟨rfl, lexless_of_readMark (by simpa using hq) (by simpa using hd)
      (by simpa using hw) hm⟩

/-! ### Where the fault is -/

/-- A text that cannot be scanned is one that can be laid out with tiles, and what the
    cause explains. -/
theorem exists_tiling_of_scan_error {position : Nat} {source : List Char} {e : LexError}
    (h : scan position operand source = .error e) :
    ∃ front back tiles last, source = front ++ back ∧
      Tiling position operand front tiles last ∧
      e.position = position + bytes front ∧ back ≠ [] ∧ e.cause.Explains back := by
  fun_induction scan position operand source generalizing e with
  | case1 => cases h
  | case2 position operand source start c rest hs cause =>
    rename_i hl
    cases h
    refine ⟨source.takeWhile isBlank, c :: rest, [], _, ?_, tiling_nil_iff.2 ⟨rfl, ?_⟩, rfl,
      List.cons_ne_nil _ _, readLexeme_error hl⟩
    · rw [← hs, skipBlanks, List.takeWhile_append_dropWhile]
    · exact fun c hc => List.mem_takeWhile_imp hc
  | case3 position operand source start c rest hs l hl =>
    rename_i ih
    simp only [Except.map] at h
    split at h
    · next fault hfault =>
      cases h
      obtain ⟨front, back, tiles, last, hrest, htiling, hplace, hback, hexplains⟩ := ih hfault
      obtain ⟨hcs, hspells⟩ := readLexeme_iff.1 hl
      rw [hrest] at hspells
      refine ⟨source.takeWhile isBlank ++ l.text ++ front, back,
        ⟨source.takeWhile isBlank, l.text, ⟨l.terminal, start⟩⟩ :: tiles, last, ?_, ?_, ?_,
        hback, hexplains⟩
      · rw [List.append_assoc, List.append_assoc, ← hrest, ← hcs, ← hs, skipBlanks,
          List.takeWhile_append_dropWhile]
      · refine tiling_cons_iff.2
          ⟨front, rfl, fun c hc => List.mem_takeWhile_imp hc, rfl, hspells.cut, ?_⟩
        rw [bytes_append, ← Nat.add_assoc]
        exact htiling
      · rw [hplace, bytes_append, bytes_append]
        omega
    · cases h

/-- FIRST UNREADABLE CHARACTER: if a text cannot be scanned, the fault is at a character of it. The
    text in front of that character can be scanned, and its end is where the fault is; the cause
    explains the text that begins there. -/
theorem tokenize_fault {source : String} {e : LexError} (h : tokenize source = .error e) :
    ∃ front back : String, source = front ++ back ∧ back ≠ "" ∧
      e.position = front.utf8ByteSize ∧
      (∃ tokens, tokenize front = .ok (tokens ++ [⟨.ending, e.position⟩])) ∧
      e.cause.Explains back.toList := by
  obtain ⟨front, back, tiles, last, hsource, htiling, hplace, hback, hexplains⟩ :=
    exists_tiling_of_scan_error h
  have hsize : e.position = (String.ofList front).utf8ByteSize := by
    rw [hplace, bytes_ofList, Nat.zero_add]
  refine ⟨String.ofList front, String.ofList back, ?_, ?_, hsize, ⟨tiles.map Tile.token, ?_⟩,
    ?_⟩
  · rw [← String.ofList_append, ← hsource, String.ofList_toList]
  · intro hempty
    exact hback (by simpa using congrArg String.toList hempty)
  · rw [tokenize, String.toList_ofList, htiling.scan_eq, hplace, tokensOf]
  · rwa [String.toList_ofList]

/-- A text outside the bytes of one character, a comparison, and a number that has grown. -/
theorem tokenize_fault_grown :
    tokenize "'é' < -12ab" = .error ⟨7, .malformed "-12ab"⟩ ∧
    ∃ front back : String, "'é' < -12ab" = front ++ back ∧ front.utf8ByteSize = 7 ∧
      (∃ tokens, tokenize front = .ok (tokens ++ [⟨.ending, 7⟩])) ∧
      ∃ rest, back.toList = "-12ab".toList ++ rest ∧ Malformed "-12ab".toList rest := by
  have hfault : tokenize "'é' < -12ab" = .error ⟨7, .malformed "-12ab"⟩ := by cbv
  obtain ⟨front, back, hsource, -, hplace, htokens, hexplains⟩ := tokenize_fault hfault
  exact ⟨hfault, front, back, hsource, hplace.symm, htokens, hexplains⟩

end Rulebook
