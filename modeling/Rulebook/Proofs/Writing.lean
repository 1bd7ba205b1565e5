import Mathlib
import Rulebook.Expression
import Rulebook.Proofs.Parsing
import Rulebook.Proofs.Tiling

/-!
Writing a tree as a text. The terminals of the tree are written in order with one space between any
two, and nothing is grouped:

    a<-1&&user.name()=='x'      a < -1 && user . name ( ) == 'x'

The text that a tree was read from shows that this works. Its row of terminals is that of the tree,
since the language spells in order, and a row that was read can be spelled: no text in it has both
quotes, no word is a truth value, and a number has a minus sign only where an operand is due, which
the terminal before it decides and the text does not.
-/

namespace Rulebook

/-! ### Spellings -/

/-- The spellings of a terminal: a text stands between quotes of a kind that is not in it. -/
def Terminal.SpelledBy (t : Terminal) (cs : List Char) : Prop :=
  match t with
  | .literal (.str body) => ∃ q, isQuote q ∧ q ∉ body.toList ∧ cs = q :: body.toList ++ [q]
  | t => cs = t.spelling

/-- The texts that write a tree: its terminals in order, with a space between any two. -/
def Expr.WrittenAs (e : Expr) (text : String) : Prop :=
  ∃ pieces, List.Forall₂ Terminal.SpelledBy e.terminals pieces ∧
    text.toList = [' '].intercalate pieces

/-! ### What a text can consist of -/

/-- The terminals that can be read, where `operand` says whether an operand is due. -/
def Terminal.Legible (operand : Bool) : Terminal → Prop
  | .word name => ofWord name.toList = .word name ∧ (∀ c ∈ name.toList, isWordPart c) ∧
      ∃ c, name.toList.head? = some c ∧ isWordStart c
  | .literal (.int n) => n.toInt < 0 → operand = true
  | .literal (.str body) => ∃ q, isQuote q ∧ q ∉ body.toList
  | .ending => False
  | _ => True

/-- Terminals that can be read one after the other. -/
def LegibleRow : Bool → List Terminal → Prop
  | _, [] => True
  | operand, t :: ts => t.Legible operand ∧ LegibleRow t.opensOperand ts

/-- What a lexeme spells can be read. -/
theorem Terminal.Spells.legible {t : Terminal} {operand : Bool} {cs rest : List Char}
    (h : t.Spells operand cs rest) : t.Legible operand := by
  cases t with
  | word name =>
    obtain ⟨rfl, ⟨⟨c, hc, hstart⟩, hp⟩, ht, hf, -⟩ := h
    exact ⟨ofWord_toList ht hf, hp, c, hc, hstart⟩
  | literal l =>
    cases l with
    | int n =>
      obtain ⟨negative, ds, hn, -, -, hvalue, -⟩ := h
      intro hneg
      refine hn ?_
      cases negative with
      | true => rfl
      | false =>
        simp only [Bool.false_eq_true, if_false] at hvalue
        omega
    | str body =>
      obtain ⟨q, hq, hb, -⟩ := h
      exact ⟨q, hq, hb⟩
    | _ => exact trivial
  | ending => exact h
  | _ => exact trivial

theorem Tiling.legibleRow {position : Nat} {operand : Bool} {source last : List Char}
    {tiles : List Tile} (h : Tiling position operand source tiles last) :
    LegibleRow operand (tiles.map (·.token.terminal)) := by
  induction tiles generalizing position operand source with
  | nil => exact trivial
  | cons t tiles ih =>
    obtain ⟨rest, -, -, -, hspells, h⟩ := tiling_cons_iff.1 h
    exact ⟨hspells.legible, ih h⟩

/-- The tokens of a text are a row that can be read, and the end. -/
theorem scan_legible {position : Nat} {operand : Bool} {cs : List Char} {tokens : List Token}
    (h : scan position operand cs = .ok tokens) :
    ∃ ts last, tokens = ts ++ [last] ∧ last.terminal = .ending ∧
      LegibleRow operand (ts.map Token.terminal) := by
  obtain ⟨tiles, last, htiling, rfl⟩ := exists_tiling_of_scan h
  refine ⟨tiles.map Tile.token, _, rfl, rfl, ?_⟩
  rw [List.map_map]
  exact htiling.legibleRow

/-- Each terminal of a row that can be read can be read where it stands. -/
theorem LegibleRow.exists_legible {row : List Terminal} {operand : Bool}
    (h : LegibleRow operand row) {t : Terminal} (ht : t ∈ row) :
    ∃ operand', t.Legible operand' := by
  induction row generalizing operand with
  | nil => cases ht
  | cons u row ih =>
    rcases List.mem_cons.1 ht with rfl | ht
    · exact ⟨operand, h.1⟩
    · exact ih h.2 ht

theorem ne_ending_of_legibleRow {row : List Terminal} {operand : Bool}
    (h : LegibleRow operand row) :
    ∀ t ∈ row, t ≠ .ending := by
  rintro t ht rfl
  obtain ⟨_, hlegible⟩ := h.exists_legible ht
  exact hlegible

theorem Terminal.exists_spelling {t : Terminal} {operand : Bool} (h : t.Legible operand) :
    ∃ s, t.SpelledBy s := by
  cases t with
  | literal l =>
    cases l with
    | str body =>
      obtain ⟨q, hq, hb⟩ := h
      exact ⟨_, q, hq, hb, rfl⟩
    | _ => exact ⟨_, rfl⟩
  | _ => exact ⟨_, rfl⟩

theorem exists_spellings {row : List Terminal} {operand : Bool} (h : LegibleRow operand row) :
    ∃ pieces, List.Forall₂ Terminal.SpelledBy row pieces := by
  induction row generalizing operand with
  | nil => exact ⟨[], .nil⟩
  | cons t ts ih =>
    obtain ⟨s, hs⟩ := Terminal.exists_spelling h.1
    obtain ⟨pieces, hp⟩ := ih h.2
    exact ⟨s :: pieces, .cons hs hp⟩

/-! ### Reading spellings -/

/-- A text that is over, or goes on with a space. -/
def Apart (rest : List Char) : Prop := ∀ c ∈ rest.head?, c = ' '

theorem Apart.stops {p : Char → Bool} {rest : List Char} (hr : Apart rest)
    (hspace : p ' ' = false) :
    Stops p rest := by
  intro c hc
  rw [hr c hc]
  exact hspace

theorem toList_integerText (n : Int64) :
    (integerText n).toList =
      (if n.toInt < 0 then ['-'] else []) ++ Nat.toDigits 10 n.toInt.natAbs := by
  rw [integerText, show toString n.toInt = n.toInt.repr from rfl]
  cases n.toInt with
  | ofNat m => simp [Int.repr]
  | negSucc m => simp [Int.repr, Int.negSucc_lt_zero]

/-- The decimal digits of an integer, and a minus sign only where it is part of the number. -/
theorem spells_integerText {operand : Bool} {n : Int64} {rest : List Char}
    (hn : n.toInt < 0 → operand = true) (hr : Stops isNumberTail rest) :
    (Terminal.literal (.int n)).Spells operand (integerText n).toList rest := by
  rw [toList_integerText]
  -- the digits are those of the absolute value, and there is at least one
  have hdigits : IsDigits (Nat.toDigits 10 n.toInt.natAbs) :=
    ⟨Nat.toDigits_ne_nil, fun c hc => Nat.isDigit_of_mem_toDigits (by decide) (by decide) hc⟩
  have hvalue : digitsValue (Nat.toDigits 10 n.toInt.natAbs) = n.toInt.natAbs :=
    Nat.ofDigitChars_ten_toDigits
  by_cases hneg : n.toInt < 0
  · refine ⟨true, _, fun _ => hn hneg, hdigits, ?_, ?_, hr⟩
    · rw [if_pos hneg]; rfl
    · rw [hvalue, if_pos rfl]; omega
  · refine ⟨false, _, by simp, hdigits, ?_, ?_, hr⟩
    · rw [if_neg hneg]; rfl
    · rw [hvalue, if_neg (by decide)]; omega

/-- A terminal that can be read is spelled, if a space or nothing follows. -/
theorem Terminal.SpelledBy.spells {operand : Bool} {t : Terminal} {s rest : List Char}
    (hs : t.SpelledBy s) (ht : t.Legible operand) (hf : ∀ x, t ≠ .literal (.float x))
    (hr : Apart rest) : t.Spells operand s rest := by
  cases t with
  | word name =>
    obtain ⟨hw, hp, c, hc, hstart⟩ := ht
    refine ⟨hs, ?_, ?_, ?_, hr.stops (by decide)⟩
    · obtain rfl : s = _ := hs
      exact ⟨⟨c, hc, hstart⟩, hp⟩
    · rintro rfl; cases hw
    · rintro rfl; cases hw
  | literal l =>
    cases l with
    | str body => exact hs
    | int n =>
      obtain rfl : s = _ := hs
      exact spells_integerText ht (hr.stops (by decide))
    | float x => exact absurd rfl (hf x)
    | bool b =>
      obtain rfl : s = _ := hs
      cases b <;> exact ⟨rfl, hr.stops (by decide)⟩
  | ending => exact ht.elim
  | gt | lt | not => exact ⟨hs, hr.stops (by decide)⟩
  | minus => exact ⟨hs, fun _ => hr.stops (by decide)⟩
  | _ => exact hs

/-! ### Reading rows -/

/-- The spellings of a row, with a space between any two, are laid out with that row. -/
theorem exists_tiling_of_spellings {row : List Terminal} {pieces : List (List Char)}
    (hp : List.Forall₂ Terminal.SpelledBy row pieces) {operand : Bool}
    (hrow : LegibleRow operand row) (hf : ∀ x, Terminal.literal (.float x) ∉ row)
    (position : Nat) (lead : List Char) (hlead : ∀ d ∈ lead, isBlank d) :
    ∃ tiles last, Tiling position operand (lead ++ [' '].intercalate pieces) tiles last ∧
      tiles.map (·.token.terminal) = row := by
  induction hp generalizing operand position lead with
  | nil =>
    refine ⟨[], lead, tiling_nil_iff.2 ⟨?_, hlead⟩, rfl⟩
    rw [List.intercalate_nil, List.append_nil]
  | @cons t s row pieces hs hp ih =>
    -- what follows the first spelling: nothing, or a space and the other spellings
    obtain ⟨rest, hrest, hjoin, htail⟩ : ∃ rest, Apart rest ∧
        [' '].intercalate (s :: pieces) = s ++ rest ∧
        ∃ lead', (∀ d ∈ lead', isBlank d) ∧ rest = lead' ++ [' '].intercalate pieces := by
      cases pieces with
      | nil => exact ⟨[], by simp [Apart], by simp, [], by simp, by simp⟩
      | cons s' pieces =>
        refine ⟨' ' :: [' '].intercalate (s' :: pieces), ?_, by simp, [' '],
          List.all_eq_true.1 rfl, rfl⟩
        rintro c ⟨⟩; rfl
    obtain ⟨lead', hlead', rfl⟩ := htail
    have hspells := hs.spells hrow.1 (fun x h => hf x (h ▸ List.mem_cons_self)) hrest
    obtain ⟨tiles, last, htiling, hmap⟩ :=
      ih hrow.2 (fun x h => hf x (List.mem_cons_of_mem _ h))
      (position + bytes (lead ++ s)) lead' hlead'
    refine ⟨⟨lead, s, ⟨t, position + bytes lead⟩⟩ :: tiles, last, ?_,
      by rw [List.map_cons, hmap]⟩
    refine tiling_cons_iff.2 ⟨_, ?_, hlead, rfl, hspells, htiling⟩
    rw [hjoin, List.append_assoc]

/-- The spellings of a row, with a space between any two, are read as that row. -/
theorem scan_spellings {row : List Terminal} {pieces : List (List Char)}
    (hp : List.Forall₂ Terminal.SpelledBy row pieces) {operand : Bool}
    (hrow : LegibleRow operand row) (hf : ∀ x, Terminal.literal (.float x) ∉ row)
    (position : Nat) (lead : List Char) (hlead : ∀ d ∈ lead, isBlank d) :
    ∃ ts last, scan position operand (lead ++ [' '].intercalate pieces) = .ok (ts ++ [last]) ∧
      ts.map Token.terminal = row ∧ last.terminal = .ending := by
  obtain ⟨tiles, last, htiling, hmap⟩ :=
    exists_tiling_of_spellings hp hrow hf position lead hlead
  refine ⟨tiles.map Tile.token, _, htiling.scan_eq, ?_, rfl⟩
  rw [List.map_map]
  exact hmap

/-! ### The round trip -/

namespace Expr

theorem ofSource_eq_ok_iff {source : String} {e : Expr} :
    ofSource source = .ok e ↔
      ∃ tokens, tokenize source = .ok tokens ∧ ofTokens tokens = .ok e := by
  unfold ofSource
  split
  · next h => simp [h]
  · next tokens h =>
    split
    · next h' => simp [h, h']
    · next h' => simp [h, h']

/-- The row of a tree that was read is what a text can consist of. -/
theorem legibleRow_of_ofSource {source : String} {e : Expr} (h : ofSource source = .ok e) :
    LegibleRow true e.terminals ∧ Language.Disjunction e.terminals e ∧
    e.height ≤ maxHeight := by
  obtain ⟨tokens, htokens, he⟩ := ofSource_eq_ok_iff.1 h
  obtain ⟨ts, last, rfl, hlast, hrow⟩ := scan_legible htokens
  have hts : ∀ t ∈ ts, t.terminal ≠ .ending :=
    fun t ht => ne_ending_of_legibleRow hrow _ (List.mem_map_of_mem ht)
  have hspell : ts.map Token.terminal = e.terminals :=
    Language.InOrder.levels (fun _ _ h => h)
      (ofTokensWithin_sound Language.closed_terminals (by decide) hts hlast he).1
  rw [← hspell]
  exact ⟨hrow, (ofTokensWithin_iff (by decide) hts hlast).1 he⟩

/-- A text is read as the tree that its tokens spell. -/
theorem ofSource_of_tokens {source : String} {ts : List Token} {last : Token} {e : Expr}
    (htokens : tokenize source = .ok (ts ++ [last])) (hts : ∀ t ∈ ts, t.terminal ≠ .ending)
    (hlast : last.terminal = .ending) (hL : Language.Disjunction (ts.map Token.terminal) e)
    (hle : e.height ≤ maxHeight) : ofSource source = .ok e :=
  ofSource_eq_ok_iff.2 ⟨_, htokens, (ofTokensWithin_iff (by decide) hts hlast).2 ⟨hL, hle⟩⟩

/-- ROUND TRIP: the tree of a text, if it has no number with a point in it, can be written as a text
    without grouping, and every such text is read as the same tree. -/
theorem ofSource_written {source : String} {e : Expr} (h : ofSource source = .ok e)
    (hf : ∀ x, Terminal.literal (.float x) ∉ e.terminals) :
    (∃ text, e.WrittenAs text) ∧ ∀ text, e.WrittenAs text → ofSource text = .ok e := by
  obtain ⟨hrow, hread⟩ := legibleRow_of_ofSource h
  constructor
  · obtain ⟨pieces, hp⟩ := exists_spellings hrow
    exact ⟨String.ofList ([' '].intercalate pieces), pieces, hp, String.toList_ofList⟩
  · rintro text ⟨pieces, hp, htext⟩
    obtain ⟨ts, last, hscan, hmap, hlast⟩ := scan_spellings hp hrow hf 0 [] (by simp)
    have hts : ∀ t ∈ ts, t.terminal ≠ .ending :=
      fun t ht => ne_ending_of_legibleRow hrow _ (hmap ▸ List.mem_map_of_mem ht)
    refine ofSource_eq_ok_iff.2 ⟨ts ++ [last], ?_, ?_⟩
    · rw [tokenize, htext]
      exact hscan
    · exact (ofTokensWithin_iff (by decide) hts hlast).2 (hmap.symm ▸ hread)

/-- The least integer, a truth value and a text with a quote in it. -/
theorem ofSource_written_least :
    ofSource "-9223372036854775808<a&&!b==\"it's\"||true" =
      .ok (.any [.all [.binary (.compare .lt) (.literal (.int Int64.minValue)) (.path "a" []),
        .binary (.compare .eq) (.not (.path "b" [])) (.literal (.str "it's"))],
        .literal (.bool true)]) ∧
    ofSource "-9223372036854775808 < a && ! b == \"it's\" || true" =
      .ok (.any [.all [.binary (.compare .lt) (.literal (.int Int64.minValue)) (.path "a" []),
        .binary (.compare .eq) (.not (.path "b" [])) (.literal (.str "it's"))],
        .literal (.bool true)]) := by
  have htokens : tokenize "-9223372036854775808<a&&!b==\"it's\"||true" =
      .ok ([⟨.literal (.int Int64.minValue), 0⟩, ⟨.lt, 20⟩, ⟨.word "a", 21⟩,
        ⟨.and, 22⟩, ⟨.not, 24⟩, ⟨.word "b", 25⟩, ⟨.eq, 26⟩,
        ⟨.literal (.str "it's"), 28⟩, ⟨.or, 34⟩, ⟨.literal (.bool true), 36⟩] ++
        [⟨.ending, 40⟩]) := by
    cbv
  have ha : Language.Negation [.word "a"] (.path "a" []) := .path .nil
  have hb : Language.Negation [.not, .word "b"] (.not (.path "b" [])) := .not (.path .nil)
  have hparse : Language.Disjunction _ _ :=
    .many (.more (.many (.more
        (.one (.two (.one (.one (.literal (l := .int Int64.minValue)))) (t := .lt) rfl
          (.one (.one ha))))
        (.one (.two hb.relation (t := .eq) rfl
          (Language.Negation.literal (l := .str "it's")).relation)))
        (by decide))
      (.one (.one (Language.Negation.literal (l := .bool true)).equality))) (by decide)
  have hsource := ofSource_eq_ok_iff.2 ⟨_, htokens,
    (ofTokensWithin_iff (by decide : 1 ≤ maxHeight) (by decide) rfl).2 ⟨hparse, by decide⟩⟩
  refine ⟨hsource, (ofSource_written hsource ?_).2 _
    ⟨["-9223372036854775808".toList, ['<'], ['a'], ['&', '&'], ['!'], ['b'], ['=', '='],
      "\"it's\"".toList, ['|', '|'], "true".toList], ?_, rfl⟩⟩
  · simp [terminals, joined, Segment.terminals, BinOp.terminal]
  · simp [terminals, joined, Segment.terminals, BinOp.terminal, Terminal.SpelledBy]
    decide

end Expr

end Rulebook
