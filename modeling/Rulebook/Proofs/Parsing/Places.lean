import Rulebook.Proofs.Parsing.Stuck

/-!
The places of tokens are there to be reported. No production looks at them: if the tokens are moved
to other places, each one keeping its terminal, then the same tree is read and the moved tokens are
left, or the same fault is found, at the moved token.

    a < b c       at 0, 2, 4, 6         fault at 6     operator expected
    a  <  b c     at 0, 3, 6, 8         fault at 8     operator expected

So a run over moved tokens is the run over the tokens, moved. That is shown for each production from
the same fact about the productions it is made of.
-/

namespace Rulebook

/-- The fault at a token that was moved. -/
def ParseError.moved (f : Token → Token) (e : ParseError) : ParseError :=
  ⟨f e.token, e.expected⟩

namespace Production

variable {limit : Nat} {last : Token} {f : Token → Token} {p q : Production}

/-- What comes of moved tokens, given what comes of the tokens. -/
def movedResult {α : Type} (f : Token → Token) :
    Except ParseError (α × List Token) → Except ParseError (α × List Token)
  | .error e => .error (e.moved f)
  | .ok (x, rest) => .ok (x, rest.map f)

/-- `q` does with moved tokens what `p` does with the tokens. -/
def Moves (f : Token → Token) (p q : Production) : Prop :=
  ∀ ts, q.run (ts.map f) = movedResult f (p.run ts)

theorem peek_map (last : Token) (ts : List Token) :
    peek (f last) (ts.map f) = f (peek last ts) := by
  cases ts <;> rfl

theorem terminal_peek_map (hf : ∀ t, (f t).terminal = t.terminal) (last : Token)
    (ts : List Token) :
    (peek (f last) (ts.map f)).terminal = (peek last ts).terminal := by
  rw [peek_map, hf]

theorem build_moved (e : Expr) (n : Nat) (top : Token) :
    Subtree.build limit e n (f top) =
      match Subtree.build limit e n top with
      | .error fault => .error (fault.moved f)
      | .ok t => .ok t := by
  unfold Subtree.build
  split <;> rfl

/-- The last step of a production: the tree of an operator, and the tokens that are left. -/
theorem build_map_moved (e : Expr) (n : Nat) (top : Token) (rest : List Token) :
    (Subtree.build limit e n (f top)).map (·, rest.map f) =
      movedResult f ((Subtree.build limit e n top).map (·, rest)) := by
  rw [build_moved]
  cases Subtree.build limit e n top <;> rfl

theorem Moves.ok (h : Moves f p q) {ts rest : List Token} {t : Subtree}
    (hr : p.run ts = .ok (t, rest)) :
    q.run (ts.map f) = .ok (t, rest.map f) := by
  rw [h, hr]
  rfl

theorem Moves.error (h : Moves f p q) {ts : List Token} {e : ParseError}
    (hr : p.run ts = .error e) :
    q.run (ts.map f) = .error (e.moved f) := by
  rw [h, hr]
  rfl

theorem Moves.refuse (e : Expectation) : Moves f (refuse last e) (refuse (f last) e) := by
  intro ts
  simp only [Production.refuse, peek_map]
  rfl

/-! ### Chains -/

variable {op? : Terminal → Option BinOp}

theorem chainFrom_moves (hf : ∀ t, (f t).terminal = t.terminal) (h : Moves f p q) (left : Subtree)
    (ts : List Token) :
    chainFrom limit q op? left (ts.map f) = movedResult f (chainFrom limit p op? left ts) := by
  fun_induction chainFrom limit p op? left ts with
  | case1 left =>
    rw [List.map_nil, chainFrom]
    rfl
  | case2 left t ts hop =>
    have hop' : op? (peek (f t) ((t :: ts).map f)).terminal = none :=
      (congrArg op? (hf t)).trans hop
    rw [chainFrom_done hop']
    rfl
  | case3 left t ts op hop fault hr =>
    rw [List.map_cons, chainFrom_error ((congrArg op? (hf t)).trans hop) (h.error hr)]
    rfl
  | case4 left t ts op hop right rest hr fault hn =>
    rw [List.map_cons, chainFrom_step ((congrArg op? (hf t)).trans hop) (h.ok hr), Subtree.join,
      build_moved]
    rw [Subtree.join] at hn
    rw [hn]
    rfl
  | case5 left t ts op hop right rest hr node hn _ ih =>
    rw [List.map_cons, chainFrom_step ((congrArg op? (hf t)).trans hop) (h.ok hr), Subtree.join,
      build_moved]
    rw [Subtree.join] at hn
    rw [hn]
    exact ih

theorem Moves.chain (hf : ∀ t, (f t).terminal = t.terminal) (h : Moves f p q) :
    Moves f (chain limit op? p) (chain limit op? q) := by
  intro ts
  simp only [Production.chain]
  cases hr : p.run ts with
  | error e => simp only [h.error hr]; rfl
  | ok r => simp only [h.ok hr]; exact chainFrom_moves hf h r.1 r.2

/-! ### One operator at most -/

theorem Moves.once (hf : ∀ t, (f t).terminal = t.terminal) (h : Moves f p q) :
    Moves f (once limit last op? p) (once limit (f last) op? q) := by
  intro ts
  simp only [Production.once]
  rcases hl : p.run ts with fault | ⟨left, rest⟩
  · simp only [h.error hl]
    rfl
  simp only [h.ok hl, terminal_peek_map hf]
  rcases hop : op? (peek last rest).terminal with _ | op
  · rfl
  simp only [← List.map_tail]
  rcases hr : p.run rest.tail with fault | ⟨right, rest'⟩
  · simp only [h.error hr]
    rfl
  simp only [h.ok hr, peek_map, hf]
  split
  · rfl
  · exact build_map_moved ..

/-! ### Flat nodes -/

theorem operands_moves {sep : Terminal} (hf : ∀ t, (f t).terminal = t.terminal) (h : Moves f p q)
    (ts : List Token) : operands q sep (ts.map f) = movedResult f (operands p sep ts) := by
  fun_induction operands p sep ts with
  | case1 =>
    rw [List.map_nil, operands]
    rfl
  | case2 t ts ht fault hx =>
    rw [List.map_cons, operands_error ((hf t).trans ht) (h.error hx)]
    rfl
  | case3 t ts ht x rest hx _ fault hxs ih | case4 t ts ht x rest hx _ xs rest' hxs ih =>
    rw [List.map_cons, operands_step ((hf t).trans ht) (h.ok hx), ih, hxs]
    rfl
  | case5 t ts ht =>
    have ht' : (peek (f t) ((t :: ts).map f)).terminal ≠ sep := by rwa [terminal_peek_map hf]
    rw [operands_stop ht']
    rfl

theorem Moves.flat {sep : Terminal} {node : List Expr → Expr}
    (hf : ∀ t, (f t).terminal = t.terminal) (h : Moves f p q) :
    Moves f (flat limit last sep node p) (flat limit (f last) sep node q) := by
  intro ts
  simp only [Production.flat]
  rcases hx : p.run ts with fault | ⟨x, rest⟩
  · simp only [h.error hx]
    rfl
  simp only [h.ok hx, operands_moves hf h, peek_map]
  rcases operands p sep rest with fault | ⟨_ | ⟨y, ys⟩, rest'⟩
  · rfl
  · rfl
  · exact build_map_moved ..

/-! ### Paths -/

/-- Segments are read off moved tokens as off the tokens. -/
theorem segments_moves (hf : ∀ t, (f t).terminal = t.terminal) (hlast : last.terminal = .ending)
    (h : Moves f p q) (ts : List Token) :
    segments limit (f last) q (ts.map f) =
      match segments limit last p ts with
      | .error e => .error (e.moved f)
      | .ok (ss, n, rest) => .ok (ss, n, rest.map f) := by
  fun_induction segments limit last p ts with
  | case1 =>
    rw [List.map_nil, segments]
    rfl
  -- a call
  | case2 t ht x i j ts hc fault hs ih | case3 t ht x i j ts hc ss n rest hs ih =>
    obtain ⟨c, hts, hc⟩ := eq_cons_of_peek (by rw [hlast]; decide) hc
    rw [hs] at ih
    rw [hts]
    simp only [List.map_cons]
    rw [segments_call ((hf t).trans ht) (hf _) (hf _) ((hf c).trans hc), ih]
  | case4 t ht x i j ts hc =>
    have hc' : (peek (f last) (ts.map f)).terminal ≠ .closeCall := by rwa [terminal_peek_map hf]
    simp only [List.map_cons]
    rw [segments_call_error ((hf t).trans ht) (hf _) (hf _) hc', peek_map]
    rfl
  -- a field, or a dot with no name behind it
  | case5 t ht x i ts hno fault hs ih | case6 t ht x i ts hno ss n rest hs ih =>
    have hno' : (peek (f last) (ts.map f)).terminal ≠ .openCall := by
      rw [terminal_peek_map hf]
      exact peek_ne (fun _ => by rw [hlast]; decide) hno
    rw [hs] at ih
    simp only [List.map_cons]
    rw [segments_field ((hf t).trans ht) (hf _) hno', ih]
  | case7 t ts ht _ hno =>
    have hword : ∀ name, (peek (f last) (ts.map f)).terminal ≠ .word name := by
      intro name
      rw [terminal_peek_map hf]
      exact peek_ne (fun _ => by rw [hlast]; exact Terminal.noConfusion) (hno name)
    rw [List.map_cons, segments_member_error ((hf t).trans ht) hword, peek_map]
    rfl
  -- an index, where each of its parts may fail
  | case8 t ts ht fault hx =>
    rw [List.map_cons, segments_index_error ((hf t).trans ht) (h.error hx)]
  | case9 t ts ht x rest hx _ hc fault hb =>
    obtain ⟨c, hrest, hc⟩ := eq_cons_of_peek (by rw [hlast]; decide) hc
    rw [hrest] at hx
    rw [List.map_cons, segments_index ((hf t).trans ht) (h.ok hx) ((hf c).trans hc), build_moved,
      hb]
  | case10 t ts ht x rest hx _ hc node hb fault hs ih
  | case11 t ts ht x rest hx _ hc node hb ss n rest' hs ih =>
    obtain ⟨c, hrest, hc⟩ := eq_cons_of_peek (by rw [hlast]; decide) hc
    rw [hrest] at hx
    rw [hs] at ih
    rw [List.map_cons, segments_index ((hf t).trans ht) (h.ok hx) ((hf c).trans hc), build_moved,
      hb, ih]
  | case12 t ts ht x rest hx _ hc =>
    have hc' : (peek (f last) (rest.map f)).terminal ≠ .closeIndex := by
      rwa [terminal_peek_map hf]
    rw [List.map_cons, segments_unclosed ((hf t).trans ht) (h.ok hx) hc', peek_map]
    rfl
  | case13 t ts hdot hopen =>
    have hpeek : (peek (f last) ((t :: ts).map f)).terminal = t.terminal :=
      terminal_peek_map hf last _
    rw [segments_done (by rw [hpeek]; exact hdot) (by rw [hpeek]; exact hopen)]

/-! ### All levels -/

theorem Moves.simple {nested index nested' index' : Production}
    (hf : ∀ t, (f t).terminal = t.terminal) (hlast : last.terminal = .ending)
    (hn : Moves f nested nested') (hi : Moves f index index') :
    Moves f (simple limit last nested index) (simple limit (f last) nested' index') := by
  intro ts
  simp only [Production.simple, peek_map, hf, ← List.map_tail]
  split
  · rcases hx : nested.run ts.tail with fault | ⟨x, rest⟩
    · simp only [hn.error hx]
      rfl
    · simp only [hn.ok hx]
      exact build_map_moved ..
  · rfl
  · rw [segments_moves hf hlast hi]
    rcases segments limit last index ts.tail with fault | ⟨ss, n, rest⟩ <;> rfl
  · rfl

theorem Moves.disjunction (hf : ∀ t, (f t).terminal = t.terminal) (h : Moves f p q) :
    Moves f (disjunction limit last p) (disjunction limit (f last) q) :=
  .flat hf (.flat hf (.once hf (.once hf (.chain hf (.chain hf h)))))

theorem Moves.negation (hf : ∀ t, (f t).terminal = t.terminal) (hlast : last.terminal = .ending)
    (room : Nat) : Moves f (negation limit last room) (negation limit (f last) room) := by
  induction room with
  | zero => exact .simple hf hlast (.refuse _) (.refuse _)
  | succ room ih => exact .simple hf hlast ih (.disjunction hf ih)

end Production

open Production

variable {last : Token} {f : Token → Token}

/-- The tree that moved tokens spell is that of the tokens, and a fault is at the moved token. -/
theorem Expr.ofTokensWithin_map (limit : Nat) (ts : List Token)
    (hf : ∀ t, (f t).terminal = t.terminal) (hlast : last.terminal = .ending) :
    ofTokensWithin limit ((ts ++ [last]).map f) =
      match ofTokensWithin limit (ts ++ [last]) with
      | .error e => .error (e.moved f)
      | .ok e => .ok e := by
  have h : Moves f (disjunction limit last (negation limit last limit))
      (disjunction limit (f last) (negation limit (f last) limit)) :=
    .disjunction hf (.negation hf hlast limit)
  have hend : ((ts ++ [last]).map f).getLast?.getD ⟨.ending, 0⟩ = f last := by simp
  simp only [ofTokensWithin, hend, List.getLast?_concat, Option.getD_some]
  rcases hr : (disjunction limit last (negation limit last limit)).run (ts ++ [last]) with
    fault | ⟨t, rest⟩
  · simp only [h.error hr]
  · simp only [h.ok hr, peek_map, hf]
    split <;> rfl

end Rulebook
