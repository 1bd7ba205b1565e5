import Mathlib.Data.List.TakeWhile
import Rulebook.Text
import Rulebook.Token.Lexeme

/-!
What it is for a text to spell a terminal. A lexeme is as long as it can be, so that a spelling says
as well how the text may go on behind it:

    word, truth value     no letter, digit or underscore behind
    number                none of these behind and no point; a minus sign only for an operand
    text                  up to the second quote, whatever is behind
    >  <  !               no `=` behind
    -                     no digit behind, where an operand is due
    other marks           whatever is behind

So of the text behind a lexeme only the next character counts, and only if it is visible. Reading
gives exactly this: a lexeme is read from the head of a text if and only if the head spells it in
front of the rest. `readLexeme_iff` is all that other modules need to know of how it is done.
-/

namespace Rulebook

/-! ### Spellings -/

/-- How a terminal is written, if there is only one way. -/
def Terminal.spelling : Terminal → List Char
  | .word name => name.toList
  | .literal l => l.text.toList
  | .plus => ['+']
  | .minus => ['-']
  | .star => ['*']
  | .slash => ['/']
  | .gt => ['>']
  | .ge => ['>', '=']
  | .lt => ['<']
  | .le => ['<', '=']
  | .eq => ['=', '=']
  | .ne => ['!', '=']
  | .and => ['&', '&']
  | .or => ['|', '|']
  | .not => ['!']
  | .dot => ['.']
  | .openIndex => ['[']
  | .closeIndex => [']']
  | .openCall => ['(']
  | .closeCall => [')']
  | .ending => []

/-- A text is over, or goes on with a character that is not of a class. -/
def Stops (p : Char → Bool) (rest : List Char) : Prop := ∀ c ∈ rest.head?, p c = false

/-- Letters, digits and underscores, the first of which is no digit. -/
def IsWord (cs : List Char) : Prop :=
  (∃ c ∈ cs.head?, isWordStart c = true) ∧ ∀ c ∈ cs, isWordPart c = true

/-- Digits, of which there is at least one. -/
def IsDigits (ds : List Char) : Prop := ds ≠ [] ∧ ∀ d ∈ ds, d.isDigit = true

/-- A minus sign, or nothing. -/
def minusSign (negative : Bool) : List Char := if negative then ['-'] else []

/-- A text spells a terminal in front of another text, where `operand` says whether an
    operand is due. -/
def Terminal.Spells (operand : Bool) (t : Terminal) (cs rest : List Char) : Prop :=
  match t with
  | .word name =>
    cs = name.toList ∧ IsWord cs ∧ name ≠ "true" ∧ name ≠ "false" ∧
    Stops isWordPart rest
  | .literal (.bool b) => cs = (if b then "true" else "false").toList ∧ Stops isWordPart rest
  | .literal (.int n) => ∃ negative ds, (negative = true → operand = true) ∧ IsDigits ds ∧
      cs = minusSign negative ++ ds ∧
      n.toInt = (if negative then -(digitsValue ds : Int) else digitsValue ds) ∧
      Stops isNumberTail rest
  | .literal (.float x) =>
    ∃ negative ds es, (negative = true → operand = true) ∧ IsDigits ds ∧
      IsDigits es ∧ cs = minusSign negative ++ ds ++ '.' :: es ∧
      x = readDouble negative ds es ∧
      Stops isNumberTail rest
  | .literal (.str body) =>
    ∃ q, isQuote q = true ∧ q ∉ body.toList ∧ cs = q :: body.toList ++ [q]
  | .gt | .lt | .not => cs = t.spelling ∧ Stops (· == '=') rest
  | .minus => cs = t.spelling ∧ (operand = true → Stops Char.isDigit rest)
  | .ending => False
  | t => cs = t.spelling

/-! ### Runs of characters -/

section Runs

variable {p : Char → Bool} {cs rest : List Char}

theorem stops_dropWhile (p : Char → Bool) (cs : List Char) : Stops p (cs.dropWhile p) := by
  intro c hc
  have h := List.head?_dropWhile_not p cs
  rw [hc] at h
  simpa using h

theorem stops_iff_takeWhile : Stops p rest ↔ rest.takeWhile p = [] := by
  cases rest with
  | nil => simp [Stops]
  | cons c rest => simp [Stops, List.takeWhile_cons]

theorem takeWhile_append_stops (hp : ∀ c ∈ cs, p c = true) (hr : Stops p rest) :
    (cs ++ rest).takeWhile p = cs := by
  rw [List.takeWhile_append_of_pos hp, stops_iff_takeWhile.1 hr, List.append_nil]

theorem dropWhile_append_stops (hp : ∀ c ∈ cs, p c = true) (hr : Stops p rest) :
    (cs ++ rest).dropWhile p = rest := by
  rw [List.dropWhile_append_of_pos hp]
  cases rest with
  | nil => rfl
  | cons c rest => rw [List.dropWhile_cons_of_neg (by simp [hr c rfl])]

theorem Stops.mono {q : Char → Bool} (h : Stops q rest) (hpq : ∀ c, p c = true → q c = true) :
    Stops p rest := by
  intro c hc
  refine Bool.eq_false_iff.2 fun hp => ?_
  have hq := h c hc
  rw [hpq c hp] at hq
  cases hq

theorem isDigits_takeWhile (h : startsDigit cs = true) : IsDigits (cs.takeWhile Char.isDigit) := by
  cases cs with
  | nil => cases h
  | cons d ds =>
    have hd : d.isDigit = true := h
    exact ⟨by simp [hd], fun c hc => List.mem_takeWhile_imp hc⟩

theorem stops_of_ne {d : Char} (h : ∀ ds, rest ≠ d :: ds) : Stops (· == d) rest := by
  cases rest with
  | nil => simp [Stops]
  | cons c rest =>
    rintro _ ⟨⟩
    rw [beq_eq_false_iff_ne]
    rintro rfl
    exact h rest rfl

theorem Stops.ne {d : Char} (h : Stops (· == d) rest) (ds : List Char) : rest ≠ d :: ds := by
  rintro rfl
  simpa using h d rfl

theorem stops_isDigit_iff : Stops Char.isDigit rest ↔ startsDigit rest = false := by
  cases rest <;> simp [Stops, startsDigit]

theorem isNumberTail_of_isDigit {c : Char} (h : c.isDigit = true) : isNumberTail c = true := by
  simp [isNumberTail, Char.isAlphanum, h]

theorem isNumberTail_of_isWordPart {c : Char} (h : isWordPart c = true) :
    isNumberTail c = true := by
  rw [isWordPart, Bool.or_eq_true] at h
  rw [isNumberTail, Bool.or_assoc, Bool.or_eq_true]
  exact h.imp_right fun hunderscore => by rw [hunderscore, Bool.or_true]

end Runs

/-! ### What is read is a spelling -/

variable {operand negative : Bool} {c q : Char} {cs rest : List Char} {l : Lexeme}

theorem readQuoted_spells (hq : isQuote q = true) (h : readQuoted q cs = .ok l) :
    l.terminal.Spells operand l.text l.rest := by
  unfold readQuoted at h
  split at h
  · cases h
  · next e rest he =>
    cases h
    -- the body ends at a character that is not different from the quote
    have hstop := stops_dropWhile (· != q) cs
    rw [he] at hstop
    obtain rfl : e = q := by simpa using hstop e rfl
    refine ⟨e, hq, ?_, ?_⟩
    · intro hm
      rw [String.toList_ofList] at hm
      simpa using List.mem_takeWhile_imp hm
    · rw [String.toList_ofList]

theorem readPart_eq (cs : List Char) :
    readPart cs = ([], cs) ∨
      ∃ es rest, readPart cs = (es, rest) ∧ IsDigits es ∧ cs = '.' :: es ++ rest := by
  unfold readPart
  split
  · next d cs =>
    split
    · next hd =>
      refine .inr ⟨_, _, rfl, isDigits_takeWhile hd, ?_⟩
      rw [List.cons_append, List.takeWhile_append_dropWhile]
    · exact .inl rfl
  · exact .inl rfl

theorem readNumber_spells (hn : negative = true → operand = true) (hd : startsDigit cs = true)
    (h : readNumber negative cs = .ok l) : l.terminal.Spells operand l.text l.rest := by
  have hwhole := isDigits_takeWhile hd
  obtain ⟨htext, hrest⟩ := readNumber_text h
  unfold readNumber at h
  simp only at h
  split at h
  · cases h
  next htail =>
  have hstop : Stops isNumberTail l.rest := by
    rw [stops_iff_takeWhile, hrest]
    simpa using htail
  rcases readPart_eq (cs.dropWhile Char.isDigit) with hpart | ⟨es, rest, hpart, hes, -⟩
  · rw [hpart] at h
    simp only [List.isEmpty_nil, Bool.not_true, Bool.false_eq_true, if_false] at h
    split at h
    · next n hi =>
      cases h
      refine ⟨negative, _, hn, hwhole, ?_, fit?_eq_some_iff.1 hi, hstop⟩
      rw [htext, numberText, hpart]
      simp [minusSign]
    · cases h
  · have hne : es.isEmpty = false := by simpa using hes.1
    rw [hpart] at h
    simp only [hne, Bool.not_false, if_true] at h
    cases h
    refine ⟨negative, _, es, hn, hwhole, hes, ?_, rfl, hstop⟩
    rw [htext, numberText, hpart]
    simp [minusSign, hne]

theorem spells_ofWord (hw : IsWord cs) (hr : Stops isWordPart rest) :
    (Terminal.ofWord cs).Spells operand cs rest := by
  unfold Terminal.ofWord
  split
  · next h => exact ⟨h, hr⟩
  split
  · next h => exact ⟨h, hr⟩
  · next htrue hfalse =>
    refine ⟨String.toList_ofList.symm, hw, ?_, ?_, hr⟩
    · intro h
      exact htrue (by rw [← String.toList_ofList (l := cs), h]; rfl)
    · intro h
      exact hfalse (by rw [← String.toList_ofList (l := cs), h]; rfl)

theorem readWord_spells (hc : isWordStart c = true) :
    (readWord (c :: cs)).terminal.Spells operand (readWord (c :: cs)).text
      (readWord (c :: cs)).rest := by
  refine spells_ofWord ⟨⟨c, ?_, hc⟩, fun d hd => List.mem_takeWhile_imp hd⟩
    (stops_dropWhile _ _)
  simp [isWordPart_of_isWordStart hc]

theorem readMark_spells
    (hminus : ∀ ds, cs = '-' :: ds → operand = true → Stops Char.isDigit ds)
    (h : readMark cs = some l) : l.terminal.Spells operand l.text l.rest := by
  unfold readMark at h
  split at h <;> cases h <;> try exact rfl
  -- the marks that are also the beginning of something longer
  · next hne => exact ⟨rfl, stops_of_ne hne⟩
  · next hne => exact ⟨rfl, stops_of_ne hne⟩
  · next hne => exact ⟨rfl, stops_of_ne hne⟩
  · exact ⟨rfl, hminus _ rfl⟩

theorem readLexeme_spells (h : readLexeme operand c cs = .ok l) :
    l.terminal.Spells operand l.text l.rest := by
  unfold readLexeme at h
  split at h
  · next hq => exact readQuoted_spells hq h
  split at h
  · next hd =>
    have hstart : startsDigit (c :: cs) = true := hd
    exact readNumber_spells (by simp) hstart h
  split at h
  · next hm =>
    simp only [Bool.and_eq_true] at hm
    exact readNumber_spells (fun _ => hm.1.2) hm.2 h
  next hm =>
  split at h
  · next hc => cases h; exact readWord_spells hc
  split at h
  · next hl =>
    cases h
    refine readMark_spells ?_ hl
    rintro ds ⟨⟩ ho
    rw [stops_isDigit_iff]
    simpa [ho] using hm
  · cases h

/-! ### A spelling is read -/

theorem toNat_of_isDigit (h : c.isDigit = true) : 48 ≤ c.toNat ∧ c.toNat ≤ 57 := by
  simpa [Char.isDigit, UInt32.le_iff_toNat_le] using h

theorem toNat_of_isWordStart (h : isWordStart c = true) : 65 ≤ c.toNat ∧ c.toNat ≤ 122 := by
  have hc : c.isAlpha = true ∨ c = '_' := by simpa [isWordStart] using h
  rcases hc with halpha | rfl
  · have hrange : (65 ≤ c.toNat ∧ c.toNat ≤ 90) ∨
        (97 ≤ c.toNat ∧ c.toNat ≤ 122) := by
      rcases Bool.or_eq_true_iff.1 halpha with hupper | hlower
      · exact .inl (of_decide_eq_true hupper)
      · obtain ⟨hmin, hmax⟩ := Bool.and_eq_true_iff.1 hlower
        exact .inr ⟨of_decide_eq_true hmin, of_decide_eq_true hmax⟩
    omega
  · decide

theorem toNat_of_isQuote (h : isQuote c = true) : 34 ≤ c.toNat ∧ c.toNat ≤ 39 := by
  have hc : c = '\x22' ∨ c = '\x27' := by simpa [isQuote] using h
  rcases hc with rfl | rfl <;> decide

theorem isQuote_eq_false_of_toNat (h : 40 ≤ c.toNat) : isQuote c = false := by
  refine Bool.eq_false_iff.2 fun hq => ?_
  have := toNat_of_isQuote hq
  omega

theorem readQuoted_eq {body : String} (hb : q ∉ body.toList) :
    readQuoted q (body.toList ++ q :: rest) =
      .ok ⟨.literal (.str body), q :: body.toList ++ [q], rest⟩ := by
  have hp : ∀ c ∈ body.toList, (c != q) = true := by
    intro c hc
    rw [bne_iff_ne]
    rintro rfl
    exact hb hc
  have hr : Stops (· != q) (q :: rest) := by simp [Stops]
  unfold readQuoted
  rw [takeWhile_append_stops hp hr, dropWhile_append_stops hp hr]
  simp [String.ofList_toList]

theorem readPart_of_stops (hr : Stops isNumberTail rest) : readPart rest = ([], rest) := by
  unfold readPart
  split
  · exact absurd (hr '.' rfl) (by decide)
  · rfl

theorem readPart_point {es : List Char} (hes : IsDigits es) (hr : Stops Char.isDigit rest) :
    readPart ('.' :: es ++ rest) = (es, rest) := by
  obtain ⟨hne, hd⟩ := hes
  obtain ⟨d, ds, rfl⟩ := List.exists_cons_of_ne_nil hne
  have htake := takeWhile_append_stops hd hr
  have hdrop := dropWhile_append_stops hd hr
  rw [List.cons_append] at htake hdrop
  rw [List.cons_append, List.cons_append, readPart, if_pos (hd d List.mem_cons_self), htake, hdrop]

theorem readNumber_int {ds : List Char} {n : Int64} (hd : IsDigits ds)
    (hn : n.toInt = if negative then -(digitsValue ds : Int) else digitsValue ds)
    (hr : Stops isNumberTail rest) :
    readNumber negative (ds ++ rest) =
      .ok ⟨.literal (.int n), minusSign negative ++ ds, rest⟩ := by
  have hr' : Stops Char.isDigit rest := hr.mono fun c => isNumberTail_of_isDigit
  have hread : readInteger negative ds = some n := fit?_eq_some_iff.2 hn
  simp [readNumber, numberText, minusSign, takeWhile_append_stops hd.2 hr',
    dropWhile_append_stops hd.2 hr', readPart_of_stops hr, stops_iff_takeWhile.1 hr, hread]

theorem readNumber_float {ds es : List Char} (hd : IsDigits ds) (he : IsDigits es)
    (hr : Stops isNumberTail rest) :
    readNumber negative (ds ++ '.' :: (es ++ rest)) =
      .ok ⟨.literal (.float (readDouble negative ds es)), minusSign negative ++ ds ++ '.' :: es,
        rest⟩ := by
  have hr' : Stops Char.isDigit rest := hr.mono fun c => isNumberTail_of_isDigit
  have hpoint : Stops Char.isDigit ('.' :: (es ++ rest)) := by
    rintro _ ⟨⟩
    decide
  have hpart : readPart ('.' :: (es ++ rest)) = (es, rest) := readPart_point he hr'
  simp [readNumber, numberText, minusSign, takeWhile_append_stops hd.2 hpoint,
    dropWhile_append_stops hd.2 hpoint, hpart, stops_iff_takeWhile.1 hr, he.1]

theorem ofWord_toList {name : String} (ht : name ≠ "true") (hf : name ≠ "false") :
    Terminal.ofWord name.toList = .word name := by
  have ht' : name.toList ≠ ['t', 'r', 'u', 'e'] := fun h => ht (String.toList_inj.1 h)
  have hf' : name.toList ≠ ['f', 'a', 'l', 's', 'e'] := fun h => hf (String.toList_inj.1 h)
  rw [Terminal.ofWord, if_neg ht', if_neg hf', String.ofList_toList]

theorem readLexeme_word (hw : IsWord (c :: cs)) (hr : Stops isWordPart rest) :
    readLexeme operand c (cs ++ rest) = .ok ⟨.ofWord (c :: cs), c :: cs, rest⟩ := by
  obtain ⟨⟨_, ⟨⟩, hc⟩, hp⟩ := hw
  have hn := toNat_of_isWordStart hc
  have hq : isQuote c = false := isQuote_eq_false_of_toNat (by omega)
  have hd : ¬ c.isDigit = true := by
    intro hd
    have := toNat_of_isDigit hd
    omega
  have hm : (c == '-') = false := by
    rw [beq_eq_false_iff_ne]
    rintro rfl
    exact absurd hn (by decide)
  have hread : readWord (c :: (cs ++ rest)) = ⟨.ofWord (c :: cs), c :: cs, rest⟩ := by
    rw [← List.cons_append, readWord, takeWhile_append_stops hp hr, dropWhile_append_stops hp hr]
  simp only [readLexeme, hq, hd, hm, hc, hread, Bool.false_and, Bool.false_eq_true, if_false,
    if_true]

/-- A number is read with its sign, which only stands where an operand is due. -/
theorem readLexeme_number {ds more : List Char} (hn : negative = true → operand = true)
    (hd : IsDigits ds) (hcs : c :: cs = minusSign negative ++ ds ++ more) :
    readLexeme operand c (cs ++ rest) = readNumber negative (ds ++ (more ++ rest)) := by
  obtain ⟨d, ds, rfl⟩ := List.exists_cons_of_ne_nil hd.1
  have hdigit : d.isDigit = true := hd.2 d List.mem_cons_self
  cases negative with
  | false =>
    have := toNat_of_isDigit hdigit
    have hq : isQuote d = false := isQuote_eq_false_of_toNat (by omega)
    obtain ⟨rfl, rfl⟩ : c = d ∧ cs = ds ++ more := by simpa [minusSign] using hcs
    rw [readLexeme, if_neg (by rw [hq]; decide), if_pos hdigit, List.append_assoc]
    rfl
  | true =>
    obtain ⟨rfl, rfl⟩ : c = '-' ∧ cs = d :: (ds ++ more) := by simpa [minusSign] using hcs
    rw [hn rfl]
    have hstart : startsDigit (d :: (ds ++ more) ++ rest) = true := hdigit
    rw [readLexeme, if_neg (by decide), if_neg (by decide), hstart, List.cons_append,
      List.append_assoc]
    rfl

theorem readLexeme_mark (hq : isQuote c = false) (hd : c.isDigit = false)
    (hw : isWordStart c = false) (hm : c = '-' → operand = true → startsDigit cs = false)
    (hl : readMark (c :: cs) = some l) :
    readLexeme operand c cs = .ok l := by
  have hsign : (c == '-' && operand && startsDigit cs) = false := by
    refine Bool.eq_false_iff.2 fun h => ?_
    simp only [Bool.and_eq_true, beq_iff_eq] at h
    rw [hm h.1.1 h.1.2] at h
    exact Bool.noConfusion h.2
  simp only [readLexeme, hq, hd, hw, hsign, hl, Bool.false_eq_true, if_false]

/-- Whether a character shows, among those of one byte. -/
def IsVisible (c : Char) : Prop := 33 ≤ c.toNat ∧ c.toNat ≤ 126

instance (c : Char) : Decidable (IsVisible c) := inferInstanceAs (Decidable (_ ∧ _))

theorem IsVisible.isBlank_eq_false (h : IsVisible c) : isBlank c = false := by
  obtain ⟨h₁, h₂⟩ := h
  simp [isBlank, blanks]
  omega

theorem exists_head_number {ds : List Char} (hd : IsDigits ds) (negative : Bool) :
    ∃ c cs, minusSign negative ++ ds = c :: cs ∧ IsVisible c := by
  cases negative with
  | true => exact ⟨'-', ds, rfl, by decide⟩
  | false =>
    obtain ⟨d, ds, rfl⟩ := List.exists_cons_of_ne_nil hd.1
    have := toNat_of_isDigit (hd.2 d List.mem_cons_self)
    exact ⟨d, ds, rfl, by omega, by omega⟩

/-- A lexeme begins with a character that shows. -/
theorem Terminal.Spells.exists_head {t : Terminal} (h : t.Spells operand cs rest) :
    ∃ c ds, cs = c :: ds ∧ IsVisible c := by
  cases t with
  | word name =>
    obtain ⟨-, ⟨⟨c, hc, hstart⟩, -⟩, -⟩ := h
    obtain ⟨ds, rfl⟩ := List.head?_eq_some_iff.1 hc
    have := toNat_of_isWordStart hstart
    exact ⟨c, ds, rfl, by omega, by omega⟩
  | literal l =>
    cases l with
    | bool b =>
      obtain ⟨rfl, -⟩ := h
      cases b <;> exact ⟨_, _, rfl, by decide⟩
    | int n =>
      obtain ⟨negative, ds, -, hd, rfl, -⟩ := h
      exact exists_head_number hd negative
    | float x =>
      obtain ⟨negative, ds, es, -, hd, -, rfl, -⟩ := h
      obtain ⟨c, cs, hcs, hc⟩ := exists_head_number hd negative
      exact ⟨c, cs ++ '.' :: es, by rw [hcs]; rfl, hc⟩
    | str body =>
      obtain ⟨q, hq, -, rfl⟩ := h
      have := toNat_of_isQuote hq
      exact ⟨q, _, rfl, by omega, by omega⟩
  | ending => exact h.elim
  | gt | lt | not | minus =>
    obtain ⟨rfl, -⟩ := h
    exact ⟨_, _, rfl, by decide⟩
  | _ =>
    obtain rfl : cs = _ := h
    exact ⟨_, _, rfl, by decide⟩

theorem isVisible_of_isNumberTail (h : isNumberTail c = true) : IsVisible c := by
  have hc : c.isAlpha = true ∨ c.isDigit = true ∨ c = '.' ∨ c = '_' := by
    simpa [isNumberTail, Char.isAlphanum, or_assoc] using h
  rcases hc with halpha | hdigit | rfl | rfl
  · have := toNat_of_isWordStart (by rw [isWordStart, halpha, Bool.true_or])
    exact ⟨by omega, by omega⟩
  · have := toNat_of_isDigit hdigit
    exact ⟨by omega, by omega⟩
  · decide
  · decide

theorem Stops.of_head {p : Char → Bool} {rest' : List Char} (h : Stops p rest)
    (hp : ∀ c, p c = true → IsVisible c)
    (hhead : ∀ c ∈ rest'.head?, IsVisible c → c ∈ rest.head?) :
    Stops p rest' := by
  intro c hc
  refine Bool.eq_false_iff.2 fun hpc => ?_
  have hstop := h c (hhead c hc (hp c hpc))
  rw [hpc] at hstop
  cases hstop

/-- A lexeme looks at no more of what is behind it than which visible character comes next. -/
theorem Terminal.Spells.of_head {t : Terminal} {rest' : List Char} (h : t.Spells operand cs rest)
    (hhead : ∀ c ∈ rest'.head?, IsVisible c → c ∈ rest.head?) :
    t.Spells operand cs rest' := by
  have hnumber (hr : Stops isNumberTail rest) : Stops isNumberTail rest' :=
    hr.of_head (fun _ => isVisible_of_isNumberTail) hhead
  have hword (hr : Stops isWordPart rest) : Stops isWordPart rest' :=
    hr.of_head (fun _ hc => isVisible_of_isNumberTail (isNumberTail_of_isWordPart hc)) hhead
  have hequals (hr : Stops (· == '=') rest) : Stops (· == '=') rest' := by
    refine hr.of_head (fun c hc => ?_) hhead
    obtain rfl : c = '=' := by simpa using hc
    decide
  have hdigit (hr : Stops Char.isDigit rest) : Stops Char.isDigit rest' :=
    hr.of_head (fun _ hc => isVisible_of_isNumberTail (isNumberTail_of_isDigit hc)) hhead
  cases t with
  | word name =>
    obtain ⟨hname, hw, htrue, hfalse, hstop⟩ := h
    exact ⟨hname, hw, htrue, hfalse, hword hstop⟩
  | literal l =>
    cases l with
    | bool b => exact ⟨h.1, hword h.2⟩
    | int n =>
      obtain ⟨negative, ds, hn, hd, hcs, hvalue, hstop⟩ := h
      exact ⟨negative, ds, hn, hd, hcs, hvalue, hnumber hstop⟩
    | float x =>
      obtain ⟨negative, ds, es, hn, hd, he, hcs, hvalue, hstop⟩ := h
      exact ⟨negative, ds, es, hn, hd, he, hcs, hvalue, hnumber hstop⟩
    | str body => exact h
  | gt | lt | not => exact ⟨h.1, hequals h.2⟩
  | minus => exact ⟨h.1, fun ho => hdigit (h.2 ho)⟩
  | _ => exact h

theorem Terminal.Spells.ne_nil {t : Terminal} (h : t.Spells operand cs rest) : cs ≠ [] := by
  obtain ⟨c, ds, rfl, -⟩ := h.exists_head
  exact List.cons_ne_nil c ds

theorem readLexeme_of_spells {t : Terminal} (h : t.Spells operand (c :: cs) rest) :
    readLexeme operand c (cs ++ rest) = .ok ⟨t, c :: cs, rest⟩ := by
  cases t with
  | word name =>
    obtain ⟨hname, hw, ht, hf, hr⟩ := h
    rw [readLexeme_word hw hr, hname, ofWord_toList ht hf]
  | literal l =>
    cases l with
    | bool b =>
      obtain ⟨hb, hr⟩ := h
      have hw : IsWord (c :: cs) := by
        rw [hb]
        cases b <;> exact ⟨⟨_, rfl, by decide⟩, List.all_eq_true.1 rfl⟩
      rw [readLexeme_word hw hr, hb]
      cases b <;> rfl
    | int n =>
      obtain ⟨negative, ds, hn, hd, hcs, hvalue, hr⟩ := h
      rw [readLexeme_number hn hd (hcs.trans (List.append_nil _).symm), List.nil_append,
        readNumber_int hd hvalue hr, hcs]
    | float x =>
      obtain ⟨negative, ds, es, hn, hd, he, hcs, rfl, hr⟩ := h
      rw [readLexeme_number hn hd hcs, List.cons_append, readNumber_float hd he hr, hcs]
    | str body =>
      obtain ⟨q, hq, hb, hcs⟩ := h
      obtain ⟨rfl, rfl⟩ : c = q ∧ cs = body.toList ++ [q] := by simpa using hcs
      rw [List.append_assoc, readLexeme, if_pos hq]
      exact readQuoted_eq hb
  | ending => exact h.elim
  | gt | lt | not =>
    obtain ⟨hcs, hr⟩ := h
    obtain ⟨rfl, rfl⟩ := List.cons.inj hcs
    refine readLexeme_mark (by decide) (by decide) (by decide) (fun h => absurd h (by decide)) ?_
    rw [List.nil_append, readMark]
    exact hr.ne
  | minus =>
    obtain ⟨hcs, hr⟩ := h
    obtain ⟨rfl, rfl⟩ := List.cons.inj hcs
    refine readLexeme_mark (by decide) (by decide) (by decide) ?_ rfl
    intro _ ho
    exact stops_isDigit_iff.1 (hr ho)
  | _ =>
    obtain ⟨rfl, rfl⟩ := List.cons.inj h
    exact readLexeme_mark (by decide) (by decide) (by decide) (fun h => absurd h (by decide)) rfl

/-- Nothing but `==` begins with an equals sign. -/
theorem Terminal.Spells.stops_equals {t : Terminal} (h : t.Spells operand cs rest) (ht : t ≠ .eq)
    (more : List Char) : Stops (· == '=') (cs ++ more) := by
  obtain ⟨c, ds, rfl, -⟩ := h.exists_head
  rintro _ ⟨⟩
  rw [beq_eq_false_iff_ne]
  rintro rfl
  have hread := readLexeme_of_spells h
  unfold readLexeme at hread
  rw [if_neg (by decide), if_neg (by decide), if_neg (by simp), if_neg (by decide)] at hread
  split at hread
  · next l hl =>
    cases hread
    unfold readMark at hl
    split at hl <;> cases hl
    exact ht rfl
  · cases hread

/-- A lexeme is read if and only if it stands at the head of the text and spells its
    terminal there. -/
theorem readLexeme_iff : readLexeme operand c cs = .ok l ↔
    c :: cs = l.text ++ l.rest ∧ l.terminal.Spells operand l.text l.rest := by
  constructor
  · intro h
    exact ⟨(readLexeme_split h).2, readLexeme_spells h⟩
  · rintro ⟨hcs, hspell⟩
    obtain ⟨t, text, rest⟩ := l
    obtain ⟨d, ds, rfl⟩ := List.exists_cons_of_ne_nil hspell.ne_nil
    obtain ⟨rfl, rfl⟩ := List.cons.inj hcs
    exact readLexeme_of_spells hspell

end Rulebook
