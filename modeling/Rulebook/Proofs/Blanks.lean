import Rulebook.Proofs.Faults
import Rulebook.Proofs.Parsing.Places

/-!
Blanks between tokens. Whatever blanks are put in front of a token, or in front of the end, the same
tokens are read, and only their places change:

    'é'>-1           text é at 0,  gt at 4,  int -1 at 5,  the end at 7
    'é'> ␣ -1        text é at 0,  gt at 4,  int -1 at 8,  the end at 10       three bytes at 5

A lexeme asks of what is behind it only that no other visible character comes next than before, and
a blank is no visible character; what is read in front of it does not matter but for the terminal
before, which stays. So the tiles of the text can be laid out again, with a wider gap in front of
one of them. The tokens from there on are pushed back by the bytes of the blanks, and since no
production looks at places the tree is the same, or the fault is at the same token.
-/

namespace Rulebook

/-- A token in a text that got `n` bytes longer at a place. -/
def Token.pushed (place n : Nat) (t : Token) : Token :=
  ⟨t.terminal, if place ≤ t.position then t.position + n else t.position⟩

theorem Token.pushed_of_le {place n : Nat} {t : Token} (h : place ≤ t.position) :
    t.pushed place n = ⟨t.terminal, t.position + n⟩ := by
  rw [Token.pushed, if_pos h]

theorem Token.pushed_of_lt {place n : Nat} {t : Token} (h : t.position < place) :
    t.pushed place n = t := by
  rw [Token.pushed, if_neg (Nat.not_le.2 h)]

variable {position place n : Nat} {operand : Bool} {source last : List Char} {tiles : List Tile}

/-! ### Tokens -/

/-- A lexeme is still one if blanks are put in somewhere behind it. -/
theorem Terminal.Spells.widen {t : Terminal} {cs front back gap : List Char}
    (h : t.Spells operand cs (front ++ back)) (hgap : ∀ c ∈ gap, isBlank c = true) :
    t.Spells operand cs (front ++ gap ++ back) := by
  refine h.of_head fun c hc hvisible => ?_
  cases front with
  | cons d front => exact hc
  | nil =>
    cases gap with
    | nil => exact hc
    | cons d gap =>
      -- the blank comes next, and it is not visible
      obtain rfl : d = c := by simpa using hc
      have hblank := hgap d List.mem_cons_self
      rw [hvisible.isBlank_eq_false] at hblank
      cases hblank

/-- A text that begins further on has the same tokens, all of them further on. -/
theorem Tiling.scan_pushed (h : Tiling position operand source tiles last)
    (hplace : place ≤ position) :
    scan (position + n) operand source =
      .ok ((tokensOf (position + bytes source) tiles).map (Token.pushed place n)) := by
  induction tiles generalizing position operand source with
  | nil =>
    obtain ⟨rfl, hlast⟩ := tiling_nil_iff.1 h
    have hend : place ≤ position + bytes source := Nat.le_add_right_of_le hplace
    rw [scan_blanks hlast, tokensOf_nil, List.map_singleton, Token.pushed_of_le hend,
      Nat.add_right_comm]
  | cons t tiles ih =>
    obtain ⟨rest, rfl, hgap, hplaced, hspells, h⟩ := tiling_cons_iff.1 h
    have htoken : place ≤ t.token.position := hplaced ▸ Nat.le_add_right_of_le hplace
    have hrest := ih h (Nat.le_add_right_of_le hplace)
    rw [Nat.add_right_comm] at hrest
    rw [scan_spelled hgap hspells, hrest, add_bytes_append _ _ rest, tokensOf_cons, List.map_cons,
      Token.pushed_of_le htoken, hplaced, Nat.add_right_comm position n]
    rfl

/-- A wider gap in front of the first lexeme pushes back every token. -/
theorem Tiling.scan_wider {u : Tile} {back gap : List Char}
    (h : Tiling position operand (u.gap ++ back) (u :: tiles) last)
    (hgap : ∀ c ∈ gap, isBlank c = true) :
    scan position operand (u.gap ++ gap ++ back) = .ok
      ((tokensOf (position + bytes (u.gap ++ back)) (u :: tiles)).map
        (Token.pushed u.token.position (bytes gap))) := by
  obtain ⟨rest, hsource, hblank, hplaced, hspells, hrest⟩ := tiling_cons_iff.1 h
  rw [List.append_assoc] at hsource
  obtain rfl := List.append_cancel_left hsource
  have hwide : ∀ c ∈ u.gap ++ gap, isBlank c = true :=
    List.forall_mem_append.2 ⟨hblank, hgap⟩
  have hplace : u.token.position ≤ position + bytes (u.gap ++ u.lexeme) := by
    rw [hplaced, bytes_append]
    omega
  have hnext : position + bytes (u.gap ++ gap ++ u.lexeme) =
      position + bytes (u.gap ++ u.lexeme) + bytes gap := by
    simp only [bytes_append]
    omega
  rw [← List.append_assoc, ← List.append_assoc, scan_spelled hwide hspells, hnext,
    hrest.scan_pushed hplace, add_bytes_append _ _ rest, tokensOf_cons, List.map_cons,
    Token.pushed_of_le (Nat.le_refl _), hplaced, add_bytes_append position u.gap gap]
  rfl

/-- In front of every token is a place for blanks, which push back that token and the
    ones behind it. -/
theorem Tiling.exists_widened (h : Tiling position operand source tiles last) {t : Token}
    (ht : t ∈ tokensOf (position + bytes source) tiles) :
    ∃ front back, source = front ++ back ∧ t.position = position + bytes front ∧
      ∀ gap, (∀ c ∈ gap, isBlank c = true) → scan position operand (front ++ gap ++ back) =
        .ok ((tokensOf (position + bytes source) tiles).map
          (Token.pushed t.position (bytes gap))) := by
  induction tiles generalizing position operand source with
  | nil =>
    obtain ⟨rfl, hlast⟩ := tiling_nil_iff.1 h
    obtain rfl := List.mem_singleton.1 ht
    refine ⟨source, [], (List.append_nil source).symm, rfl, fun gap hgap => ?_⟩
    have hblank : ∀ c ∈ source ++ gap, isBlank c = true :=
      List.forall_mem_append.2 ⟨hlast, hgap⟩
    rw [List.append_nil, scan_blanks hblank, tokensOf_nil, List.map_singleton,
      Token.pushed_of_le (Nat.le_refl _), add_bytes_append]
  | cons u tiles ih =>
    obtain ⟨rest, rfl, hblank, hplaced, hspells, hrest⟩ := tiling_cons_iff.1 h
    rw [tokensOf_cons] at ht
    rcases List.mem_cons.1 ht with rfl | ht
    · rw [List.append_assoc] at h ⊢
      exact ⟨u.gap, u.lexeme ++ rest, rfl, hplaced, fun gap hgap => h.scan_wider hgap⟩
    · -- the first token stays, and the blanks are put in behind it
      rw [add_bytes_append _ _ rest] at ht ⊢
      obtain ⟨front, back, rfl, hposition, hscan⟩ := ih hrest ht
      refine ⟨u.gap ++ u.lexeme ++ front, back, (List.append_assoc ..).symm, ?_,
        fun gap hgap => ?_⟩
      · rw [hposition, add_bytes_append position (u.gap ++ u.lexeme)]
      have hlexeme := hspells.bytes_pos
      have hlt : u.token.position < t.position := by
        rw [hplaced, hposition, bytes_append]
        omega
      have htext : u.gap ++ u.lexeme ++ front ++ gap ++ back =
          u.gap ++ u.lexeme ++ (front ++ gap ++ back) := by
        simp only [List.append_assoc]
      rw [htext, scan_spelled hblank (hspells.widen hgap), hscan gap hgap, tokensOf_cons,
        List.map_cons, Token.pushed_of_lt hlt, ← hplaced]
      rfl

/-! ### Trees and faults -/

/-- A text with the tokens of another one at other places is the same expression, or
    has the same fault. -/
theorem Expr.ofSource_of_map {source source' : String} {tokens : List Token} {f : Token → Token}
    (hf : ∀ t, (f t).terminal = t.terminal) (h : tokenize source = .ok tokens)
    (h' : tokenize source' = .ok (tokens.map f)) :
    (∀ e, ofSource source = .ok e → ofSource source' = .ok e) ∧
      ∀ fault, ofSource source = .error (.parse fault) →
        ofSource source' = .error (.parse (fault.moved f)) := by
  obtain ⟨ts, last, rfl, hlast, -⟩ := scan_legible h
  have hmap := ofTokensWithin_map maxHeight ts hf hlast
  refine ⟨fun e he => ?_, fun fault hfault => ?_⟩
  · obtain ⟨tokens, htokens, he⟩ := ofSource_eq_ok_iff.1 he
    cases h.symm.trans htokens
    replace he : ofTokensWithin maxHeight (ts ++ [last]) = .ok e := he
    rw [he] at hmap
    exact ofSource_eq_ok_iff.2 ⟨_, h', hmap⟩
  · obtain ⟨tokens, htokens, hfault⟩ := ofSource_eq_parse_iff.1 hfault
    cases h.symm.trans htokens
    replace hfault : ofTokensWithin maxHeight (ts ++ [last]) = .error fault := hfault
    rw [hfault] at hmap
    exact ofSource_eq_parse_iff.2 ⟨_, h', hmap⟩

/-- BLANKS: in front of every token of a text, and in front of its end, is a place where blanks
    can be put. The terminals stay, and the tokens from there on are pushed back by the bytes of
    the blanks. The tree stays, too; a fault of syntax expects the same, and is at the token
    that was at fault before. -/
theorem tokenize_insert_blanks {source : String} {tokens : List Token} {t : Token}
    (h : tokenize source = .ok tokens) (ht : t ∈ tokens) :
    ∃ front back : String, source = front ++ back ∧ front.utf8ByteSize = t.position ∧
      ∀ gap : String, isBlankText gap = true →
        let push := Token.pushed t.position gap.utf8ByteSize
        tokenize (front ++ gap ++ back) = .ok (tokens.map push) ∧
        (∀ e, Expr.ofSource source = .ok e → Expr.ofSource (front ++ gap ++ back) = .ok e) ∧
        ∀ fault, Expr.ofSource source = .error (.parse fault) →
          Expr.ofSource (front ++ gap ++ back) =
            .error (.parse ⟨push fault.token, fault.expected⟩) := by
  obtain ⟨tiles, last, htiling, rfl⟩ := exists_tiling_of_scan h
  obtain ⟨front, back, hsource, hplace, hscan⟩ := htiling.exists_widened ht
  refine ⟨String.ofList front, String.ofList back, ?_, ?_, fun gap hgap => ?_⟩
  · rw [← String.ofList_append, ← hsource, String.ofList_toList]
  · rw [bytes_ofList, hplace, Nat.zero_add]
  have hbytes : bytes gap.toList = gap.utf8ByteSize := by
    rw [← bytes_ofList, String.ofList_toList]
  have htokens := hscan gap.toList (List.all_eq_true.1 hgap)
  rw [hbytes] at htokens
  have htext : (String.ofList front ++ gap ++ String.ofList back).toList =
      front ++ gap.toList ++ back := by
    simp
  rw [← htext] at htokens
  exact ⟨htokens, Expr.ofSource_of_map (fun _ => rfl) h htokens⟩

/-- An em space between a comparison and a minus sign, where the sign stays part of the number. -/
theorem tokenize_insert_blanks_sign :
    tokenize "'é'>-1" =
      .ok [⟨.literal (.str "é"), 0⟩, ⟨.gt, 4⟩, ⟨.literal (.int (-1)), 5⟩,
        ⟨.ending, 7⟩] ∧
    ∃ front back : String, "'é'>-1" = front ++ back ∧ front.utf8ByteSize = 5 ∧
      tokenize (front ++ "\u2003" ++ back) =
        .ok [⟨.literal (.str "é"), 0⟩, ⟨.gt, 4⟩, ⟨.literal (.int (-1)), 8⟩,
          ⟨.ending, 10⟩] := by
  have htokens : tokenize "'é'>-1" =
      .ok [⟨.literal (.str "é"), 0⟩, ⟨.gt, 4⟩, ⟨.literal (.int (-1)), 5⟩,
        ⟨.ending, 7⟩] := by cbv
  obtain ⟨front, back, hsource, hplace, hinsert⟩ :=
    tokenize_insert_blanks (t := ⟨.literal (.int (-1)), 5⟩) htokens (by simp)
  refine ⟨htokens, front, back, hsource, hplace, ?_⟩
  rw [(hinsert "\u2003" (by decide)).1]
  decide

end Rulebook
