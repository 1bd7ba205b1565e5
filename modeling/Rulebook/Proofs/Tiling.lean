import Rulebook.Proofs.Spelling
import Rulebook.Token.Scan

/-!
The tokens of a text and the text itself. Every character of a text that is scanned is in a lexeme
or in the blanks between lexemes, and lies in one place only:

    text      a >= -10          gap, lexeme, gap, lexeme, gap, lexeme, rest
    tiles     a   ␣>=   ␣-10    each token with its lexeme and the gap in front of it
    tokens    0    2     5      word a, ge, int -10, each at the byte where its lexeme begins

A token is at the byte where its lexeme begins, the lexeme spells it in front of all that follows,
and whether an operand is due is decided by the token before. These conditions leave no choice: a
text that can be laid out with tiles is scanned, and into these tokens.
-/

namespace Rulebook

/-- A token with the lexeme that spells it and the blanks in front of that. -/
structure Tile where
  gap : List Char
  lexeme : List Char
  token : Token

/-- The text of some tiles. -/
def tiledText (tiles : List Tile) : List Char := tiles.flatMap fun t => t.gap ++ t.lexeme

/-- Whether an operand is due behind some tiles: the last of them decides, or
    `operand` if there is none. -/
def dueBehind (operand : Bool) (tiles : List Tile) : Bool :=
  tiles.foldl (fun _ t => t.token.terminal.opensOperand) operand

/-- Tiles, and the blanks behind them, make up a text that begins at a position. -/
structure Tiling (position : Nat) (operand : Bool) (source : List Char) (tiles : List Tile)
    (last : List Char) : Prop where
  text : source = tiledText tiles ++ last
  blank_last : ∀ c ∈ last, isBlank c = true
  blank_gap : ∀ t ∈ tiles, ∀ c ∈ t.gap, isBlank c = true
  placed : ∀ front t back, tiles = front ++ t :: back →
    t.token.position = position + bytes (tiledText front ++ t.gap)
  spells : ∀ front t back, tiles = front ++ t :: back →
    t.token.terminal.Spells (dueBehind operand front) t.lexeme (tiledText back ++ last)

variable {position : Nat} {operand : Bool} {source last : List Char} {t : Tile} {tiles : List Tile}

theorem add_bytes_append (position : Nat) (cs ds : List Char) :
    position + bytes (cs ++ ds) = position + bytes cs + bytes ds := by
  rw [bytes_append, Nat.add_assoc]

/-- No lexeme is empty. -/
theorem Terminal.Spells.bytes_pos {t : Terminal} {cs rest : List Char}
    (h : t.Spells operand cs rest) :
    0 < bytes cs :=
  Nat.lt_of_lt_of_le (List.length_pos_iff.2 h.ne_nil) (length_le_bytes cs)

/-! ### One tile -/

theorem tiling_nil_iff : Tiling position operand source [] last ↔
    source = last ∧ ∀ c ∈ last, isBlank c = true := by
  constructor
  · intro h
    exact ⟨h.text, h.blank_last⟩
  · rintro ⟨rfl, hlast⟩
    refine ⟨rfl, hlast, by simp, ?_, ?_⟩ <;> simp

/-- The first tile, and the tiling of what is behind it. -/
theorem tiling_cons_iff : Tiling position operand source (t :: tiles) last ↔
    ∃ rest, source = t.gap ++ t.lexeme ++ rest ∧ (∀ c ∈ t.gap, isBlank c = true) ∧
      t.token.position = position + bytes t.gap ∧
      t.token.terminal.Spells operand t.lexeme rest ∧
      Tiling (position + bytes (t.gap ++ t.lexeme)) t.token.terminal.opensOperand rest tiles
        last := by
  constructor
  · intro h
    refine ⟨tiledText tiles ++ last, ?_, h.blank_gap t List.mem_cons_self, ?_, ?_, ?_⟩
    · rw [h.text]
      simp [tiledText]
    · rw [h.placed [] t tiles rfl]
      simp [tiledText]
    · exact h.spells [] t tiles rfl
    · refine ⟨rfl, h.blank_last, fun s hs => h.blank_gap s (List.mem_cons_of_mem _ hs), ?_, ?_⟩
      · rintro front s back rfl
        rw [h.placed (t :: front) s back rfl]
        simp [tiledText, Nat.add_assoc]
      · rintro front s back rfl
        exact h.spells (t :: front) s back rfl
  · rintro ⟨rest, rfl, hgap, hplaced, hspells, h⟩
    refine ⟨?_, h.blank_last, ?_, ?_, ?_⟩
    · rw [h.text]
      simp [tiledText]
    · intro s hs
      rcases List.mem_cons.1 hs with rfl | hs
      · exact hgap
      · exact h.blank_gap s hs
    · rintro (_ | ⟨u, front⟩) s back ⟨⟩
      · simpa [tiledText] using hplaced
      · rw [h.placed front s back rfl]
        simp [tiledText, Nat.add_assoc]
    · rintro (_ | ⟨u, front⟩) s back ⟨⟩
      · rw [h.text] at hspells
        exact hspells
      · exact h.spells front s back rfl

/-! ### Scanning -/

/-- There is no token but the end in blanks. -/
theorem scan_blanks (hlast : ∀ c ∈ last, isBlank c = true) :
    scan position operand last = .ok [⟨.ending, position + bytes last⟩] := by
  have hs : skipBlanks last = [] := List.dropWhile_eq_nil_iff.2 hlast
  have ht : last.takeWhile isBlank = last := List.takeWhile_eq_self_iff.2 hlast
  rw [scan]
  split
  · rw [ht]
  · next h => rw [hs] at h; cases h

/-- Blanks, a lexeme, and the tokens of what follows it. -/
theorem scan_lexeme {gap cs : List Char} {c : Char} {l : Lexeme}
    (hgap : ∀ d ∈ gap, isBlank d = true) (hc : isBlank c = false)
    (hl : readLexeme operand c cs = .ok l) :
    scan position operand (gap ++ c :: cs) =
      (scan (position + bytes gap + bytes l.text) l.terminal.opensOperand l.rest).map
        (⟨l.terminal, position + bytes gap⟩ :: ·) := by
  have hs : skipBlanks (gap ++ c :: cs) = c :: cs := by
    rw [skipBlanks, List.dropWhile_append_of_pos hgap, List.dropWhile_cons_of_neg (by simp [hc])]
  have ht : (gap ++ c :: cs).takeWhile isBlank = gap := by
    rw [List.takeWhile_append_of_pos hgap, List.takeWhile_cons_of_neg (by simp [hc]),
      List.append_nil]
  rw [scan]
  split
  · next h => rw [hs] at h; cases h
  next h =>
  rw [hs] at h
  cases h
  split
  · next h => rw [hl] at h; cases h
  · next h => rw [hl] at h; cases h; rw [ht]

/-- The same for a lexeme that spells its terminal. -/
theorem scan_spelled {gap lexeme rest : List Char} {x : Terminal}
    (hgap : ∀ d ∈ gap, isBlank d = true) (hspells : x.Spells operand lexeme rest) :
    scan position operand (gap ++ lexeme ++ rest) =
      (scan (position + bytes (gap ++ lexeme)) x.opensOperand rest).map
        (⟨x, position + bytes gap⟩ :: ·) := by
  obtain ⟨c, cs, rfl, hc⟩ := hspells.exists_head
  have hl := readLexeme_of_spells hspells
  rw [List.append_assoc, List.cons_append, scan_lexeme hgap hc.isBlank_eq_false hl,
    add_bytes_append]

/-- The tokens of tiles, and the end. -/
def tokensOf (ending : Nat) (tiles : List Tile) : List Token :=
  tiles.map Tile.token ++ [⟨.ending, ending⟩]

theorem tokensOf_nil (ending : Nat) : tokensOf ending [] = [⟨.ending, ending⟩] := rfl

theorem tokensOf_cons (ending : Nat) (t : Tile) (tiles : List Tile) :
    tokensOf ending (t :: tiles) = t.token :: tokensOf ending tiles :=
  rfl

theorem exists_tiling_of_scan {tokens : List Token}
    (h : scan position operand source = .ok tokens) :
    ∃ tiles last, Tiling position operand source tiles last ∧
      tokens = tokensOf (position + bytes source) tiles := by
  fun_induction scan position operand source generalizing tokens with
  | case1 position operand source start =>
    rename_i hs
    cases h
    have hlast : ∀ c ∈ source, isBlank c = true := List.dropWhile_eq_nil_iff.1 hs
    have htake : source.takeWhile isBlank = source := List.takeWhile_eq_self_iff.2 hlast
    have hstart : start = position + bytes source := congrArg (position + bytes ·) htake
    exact ⟨[], source, tiling_nil_iff.2 ⟨rfl, hlast⟩, by rw [hstart]; rfl⟩
  | case2 => cases h
  | case3 position operand source start c rest hs l hl =>
    rename_i ih
    simp only [Except.map] at h
    split at h
    · cases h
    next tokens' htokens =>
    cases h
    obtain ⟨tiles, last, htiling, rfl⟩ := ih htokens
    obtain ⟨hcs, hspells⟩ := readLexeme_iff.1 hl
    have hsource : source = source.takeWhile isBlank ++ l.text ++ l.rest := by
      rw [List.append_assoc, ← hcs, ← hs, skipBlanks, List.takeWhile_append_dropWhile]
    have hbytes : position + bytes source = start + bytes l.text + bytes l.rest := by
      have hsum := congrArg bytes hsource
      rw [bytes_append, bytes_append] at hsum
      rw [hsum, Nat.add_assoc, Nat.add_assoc, Nat.add_assoc]
    refine ⟨⟨source.takeWhile isBlank, l.text, ⟨l.terminal, start⟩⟩ :: tiles, last, ?_,
      ?_⟩
    · refine tiling_cons_iff.2
        ⟨l.rest, hsource, fun c hc => List.mem_takeWhile_imp hc, rfl, hspells, ?_⟩
      rw [bytes_append, ← Nat.add_assoc]
      exact htiling
    · rw [hbytes, tokensOf_cons]

theorem Tiling.scan_eq (h : Tiling position operand source tiles last) :
    scan position operand source = .ok (tokensOf (position + bytes source) tiles) := by
  induction tiles generalizing position operand source with
  | nil =>
    obtain ⟨rfl, hlast⟩ := tiling_nil_iff.1 h
    exact scan_blanks hlast
  | cons t tiles ih =>
    obtain ⟨rest, rfl, hgap, hplaced, hspells, h⟩ := tiling_cons_iff.1 h
    rw [add_bytes_append _ _ rest, scan_spelled hgap hspells, ih h, tokensOf_cons, ← hplaced]
    rfl

/-! ### Positions -/

/-- No token of a tiling stands in front of the text. -/
theorem Tiling.le_position (h : Tiling position operand source tiles last) {k : Nat}
    (hk : k ∈ (tokensOf (position + bytes source) tiles).map Token.position) :
    position ≤ k := by
  simp only [tokensOf, List.map_append, List.map_map, List.mem_append, List.mem_map] at hk
  rcases hk with ⟨t, ht, rfl⟩ | ⟨t, ht, rfl⟩
  · obtain ⟨front, back, rfl⟩ := List.append_of_mem ht
    have hplaced := h.placed front t back rfl
    simp only [Function.comp]
    omega
  · obtain rfl := List.mem_singleton.1 ht
    exact Nat.le_add_right position _

/-- No two tokens stand in one place, because there is a lexeme between them. -/
theorem Tiling.positions_increase (h : Tiling position operand source tiles last) :
    ((tokensOf (position + bytes source) tiles).map Token.position).Pairwise (· < ·) := by
  induction tiles generalizing position operand source with
  | nil => exact List.pairwise_singleton _ _
  | cons t tiles ih =>
    obtain ⟨rest, rfl, -, hplaced, hspells, h⟩ := tiling_cons_iff.1 h
    have hlexeme := hspells.bytes_pos
    rw [add_bytes_append _ _ rest]
    refine List.pairwise_cons.2 ⟨?_, ih h⟩
    intro k hk
    have hle := h.le_position hk
    rw [bytes_append] at hle
    omega

theorem bytes_ofList (cs : List Char) : (String.ofList cs).utf8ByteSize = bytes cs := by
  induction cs with
  | nil => rfl
  | cons c cs ih =>
    rw [String.ofList_cons, String.utf8ByteSize_append, String.utf8ByteSize_singleton, ih, bytes]

/-- TILES: a text is scanned if and only if it can be laid out with tiles, and its tokens are
    theirs, with the end at the length of the text behind them. No lexeme is empty, no other token
    is the end, and the positions strictly increase. -/
theorem tokenize_tiles (source : String) (tokens : List Token) :
    tokenize source = .ok tokens ↔
      ∃ tiles last, Tiling 0 true source.toList tiles last ∧
        tokens = tiles.map Tile.token ++ [⟨.ending, source.utf8ByteSize⟩] ∧
        (∀ t ∈ tiles, t.lexeme ≠ [] ∧ t.token.terminal ≠ .ending) ∧
        (tokens.map Token.position).Pairwise (· < ·) := by
  have hbytes : source.utf8ByteSize = 0 + bytes source.toList := by
    rw [Nat.zero_add, ← bytes_ofList, String.ofList_toList]
  rw [hbytes]
  constructor
  · intro h
    obtain ⟨tiles, last, htiling, rfl⟩ := exists_tiling_of_scan h
    refine ⟨tiles, last, htiling, rfl, ?_, htiling.positions_increase⟩
    intro t ht
    obtain ⟨front, back, rfl⟩ := List.append_of_mem ht
    have hspells := htiling.spells front t back rfl
    refine ⟨hspells.ne_nil, fun hend => ?_⟩
    rw [hend] at hspells
    exact hspells
  · rintro ⟨tiles, last, htiling, rfl, -, -⟩
    exact htiling.scan_eq

end Rulebook
