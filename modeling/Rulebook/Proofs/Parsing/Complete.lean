import Rulebook.Proofs.Parsing.Sound

/-!
What is in its language is read by a production, if the text after it does not go on with the same
operand. Whether it does is a matter of the next token: each has a grip on what stands before it,

    .  [  (     *  /     +  -     <  <=  >  >=     ==  !=     &&     ||     anything else
      7           6        5            4             3         2      1          0

and a level reads its operand to the end in front of any token of a lower grip. A tree may be
refused for its height instead, and for nothing else. The proofs go through a run from the left and
keep both outcomes in one statement, `Yields`.
-/

namespace Rulebook

open Rulebook.Language

/-- Rows that agree on their terminals are cut at the same terminal. -/
theorem cut_at_terminal {ts : List Token} {v w : List Terminal} {x : Terminal}
    (h : ts.map Token.terminal = v ++ x :: w) :
    ∃ ts₁ t ts₂, ts = ts₁ ++ t :: ts₂ ∧ ts₁.map Token.terminal = v ∧
      t.terminal = x ∧
      ts₂.map Token.terminal = w := by
  obtain ⟨ts₁, ts₂, rfl, h₁, h₂⟩ := List.map_eq_append_iff.1 h
  obtain ⟨t, ts₃, rfl, h₃, h₄⟩ := List.map_eq_cons_iff.1 h₂
  exact ⟨ts₁, t, ts₃, rfl, h₁, h₃, h₄⟩

/-- How tightly a terminal holds on to the operand before it; zero, if it holds on to none. -/
def Terminal.grip : Terminal → Nat
  | .dot | .openIndex | .openCall => 7
  | .star | .slash => 6
  | .plus | .minus => 5
  | .gt | .ge | .lt | .le => 4
  | .eq | .ne => 3
  | .and => 2
  | .or => 1
  | _ => 0

theorem Terminal.grip_of_product {t : Terminal} {op : BinOp} (h : t.product? = some op) :
    t.grip = 6 := by
  cases t <;> first | rfl | cases h

theorem Terminal.grip_of_sum {t : Terminal} {op : BinOp} (h : t.sum? = some op) : t.grip = 5 := by
  cases t <;> first | rfl | cases h

theorem Terminal.grip_of_relation {t : Terminal} {op : BinOp} (h : t.relation? = some op) :
    t.grip = 4 := by
  cases t <;> first | rfl | cases h

theorem Terminal.grip_of_equality {t : Terminal} {op : BinOp} (h : t.equality? = some op) :
    t.grip = 3 := by
  cases t <;> first | rfl | cases h

/-- A tree with its height. -/
def Subtree.of (e : Expr) : Subtree := ⟨e, e.height⟩

theorem Subtree.exprs_of (es : List Expr) : (es.map Subtree.of).map Subtree.expr = es := by
  induction es with
  | nil => rfl
  | cons e es ih => rw [List.map_cons, List.map_cons, ih, Subtree.of]

namespace Production

variable {limit depth k : Nat} {last : Token} {p : Production} {L M : Language}
  {op? : Terminal → Option BinOp}

/-- A result, or a refusal for the height of a tree, which has to be `depth` or more then. -/
def Yields {α : Type} (depth height : Nat) (result : Except ParseError α) (a : α) : Prop :=
  result = .ok a ∨ depth ≤ height ∧ ∃ t, result = .error ⟨t, .shallower⟩

/-- A production that reads all of `L`, wherever the next token has less than a grip of `k`. -/
def Complete (last : Token) (p : Production) (L : Language) (depth k : Nat) : Prop :=
  ∀ ⦃ts rest e⦄, L (ts.map Token.terminal) e → (peek last rest).terminal.grip < k →
    Yields depth e.height (p.run (ts ++ rest)) (⟨e, e.height⟩, rest)

theorem build_yields (hd : depth ≤ limit + 1) (e : Expr) (n : Nat) (top : Token) :
    Yields depth n (Subtree.build limit e n top) ⟨e, n⟩ := by
  unfold Subtree.build
  split
  · exact Or.inr ⟨by omega, top, rfl⟩
  · exact Or.inl rfl

theorem op?_eq_none (hop : ∀ {t op}, op? t = some op → t.grip = k) {t : Terminal}
    (hk : t.grip < k) : op? t = none := by
  cases h : op? t with
  | none => rfl
  | some op => have := hop h; omega

/-! ### Chains -/

theorem chainFrom_done {left : Subtree} {rest : List Token}
    (h : op? (peek last rest).terminal = none) :
    chainFrom limit p op? left rest = .ok (left, rest) := by
  cases rest with
  | nil => rw [chainFrom]
  | cons t ts =>
    replace h : op? t.terminal = none := h
    rw [chainFrom]
    split
    · rfl
    · next hop => rw [h] at hop; cases hop

theorem chainFrom_stop {left : Subtree} {rest : List Token}
    (hop : ∀ {t op}, op? t = some op → t.grip = k) (hk : (peek last rest).terminal.grip < k) :
    chainFrom limit p op? left rest = .ok (left, rest) :=
  chainFrom_done (op?_eq_none hop hk)

theorem chainFrom_step {left right : Subtree} {t : Token} {ts rest : List Token} {op : BinOp}
    (hop : op? t.terminal = some op) (hr : p.run ts = .ok (right, rest)) :
    chainFrom limit p op? left (t :: ts) =
      match Subtree.join limit op left right t with
      | .error e => .error e
      | .ok node => chainFrom limit p op? node rest := by
  rw [chainFrom]
  split
  · next h => rw [hop] at h; cases h
  next op' h =>
  cases hop.symm.trans h
  split
  · next e h => rw [hr] at h; cases h
  next right' rest' h =>
  cases hr.symm.trans h
  rfl

theorem chainFrom_error {left : Subtree} {t : Token} {ts : List Token} {op : BinOp} {e : ParseError}
    (hop : op? t.terminal = some op) (hr : p.run ts = .error e) :
    chainFrom limit p op? left (t :: ts) = .error e := by
  rw [chainFrom]
  split
  · next h => rw [hop] at h; cases h
  split
  · next e' h => exact congrArg _ (Except.error.inj (h.symm.trans hr))
  · next h => rw [hr] at h; cases h

/-- What has been read of a chain is as good as its tree: the loop goes on with that. -/
theorem chain_run (hp : Complete last p L depth (k + 1)) (hd : depth ≤ limit + 1)
    (hop : ∀ {t op}, op? t = some op → t.grip = k) {w : List Terminal} {e : Expr}
    (h : Chain op? L w e) {ts rest : List Token} (hw : ts.map Token.terminal = w)
    (hk : (peek last rest).terminal.grip < k + 1) :
    (chain limit op? p).run (ts ++ rest) = chainFrom limit p op? ⟨e, e.height⟩ rest ∨
      depth ≤ e.height ∧
      ∃ t, (chain limit op? p).run (ts ++ rest) = .error ⟨t, .shallower⟩ := by
  induction h generalizing ts rest with
  | one h =>
    subst hw
    rcases hp h hk with hr | ⟨hle, t, hr⟩
    · exact Or.inl (by simp only [chain, hr])
    · exact Or.inr ⟨hle, t, by simp only [chain, hr]⟩
  | @more v w x op l r _ hx hr ih =>
    obtain ⟨ts₁, t, ts₂, rfl, hv, ht, rfl⟩ := cut_at_terminal hw
    have hop' : op? t.terminal = some op := by rw [ht]; exact hx
    have hgrip : (peek last (t :: ts₂ ++ rest)).terminal.grip < k + 1 := by
      simp only [peek, List.cons_append, List.headD_cons, hop hop']
      omega
    rw [List.append_assoc]
    simp only [Expr.height]
    rcases ih hv hgrip with hrun | ⟨hle, t', hrun⟩
    · rw [hrun, List.cons_append]
      rcases hp hr hk with hright | ⟨hle, t', hright⟩
      · rw [chainFrom_step hop' hright, Subtree.join]
        rcases build_yields hd (.binary op l r) (max l.height r.height + 1) t with
          hb | ⟨hle, t', hb⟩
        · exact Or.inl (by rw [hb])
        · exact Or.inr ⟨hle, t', by rw [hb]⟩
      · exact Or.inr ⟨by omega, t', chainFrom_error hop' hright⟩
    · exact Or.inr ⟨by omega, t', hrun⟩

theorem chain_complete (hp : Complete last p L depth (k + 1)) (hd : depth ≤ limit + 1)
    (hop : ∀ {t op}, op? t = some op → t.grip = k) :
    Complete last (chain limit op? p) (Chain op? L) depth k := by
  intro ts rest e h hk
  rcases chain_run hp hd hop h rfl (Nat.lt_succ_of_lt hk) with hr | hr
  · exact Or.inl (by rw [hr, chainFrom_stop hop hk])
  · exact Or.inr hr

/-! ### One operator at most -/

theorem once_complete (hp : Complete last p L depth (k + 1)) (hd : depth ≤ limit + 1)
    (hop : ∀ {t op}, op? t = some op → t.grip = k) :
    Complete last (once limit last op? p) (Once op? L) depth k := by
  intro ts rest e h hk
  generalize hw : ts.map Token.terminal = w at h
  cases h with
  | one h =>
    subst hw
    rcases hp h (Nat.lt_succ_of_lt hk) with hr | ⟨hle, t, hr⟩
    · exact Or.inl (by simp only [once, hr, op?_eq_none hop hk])
    · exact Or.inr ⟨hle, t, by simp only [once, hr]⟩
  | @two v w x op l r hl hx hr =>
    obtain ⟨ts₁, t, ts₂, rfl, rfl, rfl, rfl⟩ := cut_at_terminal hw
    have hgrip : (peek last (t :: ts₂ ++ rest)).terminal.grip < k + 1 := by
      simp only [peek, List.cons_append, List.headD_cons, hop hx]
      omega
    rw [List.append_assoc]
    simp only [Yields, Expr.height]
    rcases hp hl hgrip with hleft | ⟨hle, t', hleft⟩
    · have hhead : peek last (t :: ts₂ ++ rest) = t := rfl
      have htail : (t :: ts₂ ++ rest).tail = ts₂ ++ rest := rfl
      rcases hp hr (Nat.lt_succ_of_lt hk) with hright | ⟨hle, t', hright⟩
      · rcases build_yields hd (.binary op l r) (max l.height r.height + 1) t with
          hb | ⟨hle, t', hb⟩
        · refine Or.inl ?_
          simp only [once, hleft, hhead, htail, hx, hright, op?_eq_none hop hk, Subtree.join, hb]
          rfl
        · refine Or.inr ⟨hle, t', ?_⟩
          simp only [once, hleft, hhead, htail, hx, hright, op?_eq_none hop hk, Subtree.join, hb]
          rfl
      · refine Or.inr ⟨by omega, t', ?_⟩
        simp only [once, hleft, hhead, htail, hx, hright]
    · exact Or.inr ⟨by omega, t', by simp only [once, hleft]⟩

/-! ### Flat nodes -/

theorem operands_stop {sep : Terminal} {rest : List Token}
    (hsep : (peek last rest).terminal ≠ sep) :
    operands p sep rest = .ok ([], rest) := by
  cases rest with
  | nil => rw [operands]
  | cons t ts =>
    replace hsep : t.terminal ≠ sep := hsep
    rw [operands, if_neg hsep]

theorem operands_step {sep : Terminal} {x : Subtree} {t : Token} {ts rest : List Token}
    (ht : t.terminal = sep) (hx : p.run ts = .ok (x, rest)) :
    operands p sep (t :: ts) =
      match operands p sep rest with
      | .error e => .error e
      | .ok (xs, rest') => .ok (x :: xs, rest') := by
  rw [operands, if_pos ht]
  split
  · next e h => rw [hx] at h; cases h
  next x' r h =>
  cases hx.symm.trans h
  rfl

theorem operands_error {sep : Terminal} {t : Token} {ts : List Token} {e : ParseError}
    (ht : t.terminal = sep) (hx : p.run ts = .error e) : operands p sep (t :: ts) = .error e := by
  rw [operands, if_pos ht]
  split
  · next e' h => exact congrArg _ (Except.error.inj (h.symm.trans hx))
  · next h => rw [hx] at h; cases h

theorem operands_complete {sep : Terminal} (hp : Complete last p L depth (k + 1))
    (hsep : sep.grip = k) {w : List Terminal} {es : List Expr} (h : Separated sep L w es)
    {s : Token} {ts rest : List Token} (hs : s.terminal = sep) (hw : ts.map Token.terminal = w)
    (hk : (peek last rest).terminal.grip < k) :
    Yields depth (Expr.heights es) (operands p sep (s :: (ts ++ rest)))
      (es.map Subtree.of, rest) := by
  have hstop : operands p sep rest = .ok ([], rest) :=
    operands_stop fun hc => by rw [hc] at hk; omega
  induction h generalizing s ts with
  | one h =>
    subst hw
    simp only [Expr.heights]
    rcases hp h (Nat.lt_succ_of_lt hk) with hr | ⟨hle, t, hr⟩
    · exact Or.inl (by rw [operands_step hs hr, hstop]; rfl)
    · exact Or.inr ⟨by omega, t, operands_error hs hr⟩
  | @more v w e es h _ ih =>
    obtain ⟨ts₁, t, ts₂, rfl, rfl, ht, rfl⟩ := cut_at_terminal hw
    have hgrip : (peek last (t :: (ts₂ ++ rest))).terminal.grip < k + 1 := by
      simp only [peek, List.headD_cons, ht, hsep]
      omega
    rw [List.append_assoc, List.cons_append]
    simp only [Expr.heights]
    rcases hp h hgrip with hr | ⟨hle, t', hr⟩
    · rcases ih ht rfl with hrs | ⟨hle, t', hrs⟩
      · exact Or.inl (by rw [operands_step hs hr, hrs]; rfl)
      · exact Or.inr ⟨by omega, t', by rw [operands_step hs hr, hrs]⟩
    · exact Or.inr ⟨by omega, t', operands_error hs hr⟩

theorem flat_complete {sep : Terminal} {node : List Expr → Expr}
    (hp : Complete last p L depth (k + 1)) (hd : depth ≤ limit + 1) (hsep : sep.grip = k)
    (hnode : ∀ es, (node es).height = Expr.heights es + 1) :
    Complete last (flat limit last sep node p) (Flat sep node L) depth k := by
  intro ts rest e h hk
  generalize hw : ts.map Token.terminal = w at h
  cases h with
  | one h =>
    subst hw
    have hstop : operands p sep rest = .ok ([], rest) :=
      operands_stop fun hc => by rw [hc] at hk; omega
    rcases hp h (Nat.lt_succ_of_lt hk) with hr | ⟨hle, t, hr⟩
    · exact Or.inl (by simp only [flat, hr, hstop])
    · exact Or.inr ⟨hle, t, by simp only [flat, hr]⟩
  | @many w es h hlen =>
    cases h with
    | one => simp at hlen
    | @more v w e es h hs =>
      obtain ⟨ts₁, t, ts₂, rfl, rfl, ht, rfl⟩ := cut_at_terminal hw
      have hgrip : (peek last (t :: (ts₂ ++ rest))).terminal.grip < k + 1 := by
        simp only [peek, List.headD_cons, ht, hsep]
        omega
      rw [List.append_assoc, List.cons_append]
      simp only [Yields, hnode, Expr.heights]
      rcases hp h hgrip with hr | ⟨hle, t', hr⟩
      · rcases operands_complete hp hsep hs ht rfl hk with hrs | ⟨hle, t', hrs⟩
        · cases es with
          | nil => simp at hlen
          | cons f fs =>
            have hfold := foldl_max_height ((e :: f :: fs).map Subtree.of) (by simp [Subtree.of]) 0
            rw [Subtree.exprs_of, Nat.zero_max] at hfold
            have hrun : (flat limit last sep node p).run (ts₁ ++ t :: (ts₂ ++ rest)) =
                (Subtree.build limit (node (e :: f :: fs)) (Expr.heights (e :: f :: fs) + 1) t).map
                  (·, rest) := by
              simp only [flat, hr, hrs]
              change (Subtree.build limit (node (((e :: f :: fs).map Subtree.of).map Subtree.expr))
                ((((e :: f :: fs).map Subtree.of).map Subtree.height).foldl max 0 + 1) t).map _ = _
              rw [hfold, Subtree.exprs_of]
            rw [hrun]
            rcases build_yields hd (node (e :: f :: fs)) (Expr.heights (e :: f :: fs) + 1) t with
              hb | ⟨hle, t', hb⟩
            · exact Or.inl (by rw [hb]; rfl)
            · exact Or.inr ⟨hle, t', by rw [hb]; rfl⟩
        · exact Or.inr ⟨by omega, t', by simp only [flat, hr, hrs]⟩
      · exact Or.inr ⟨by omega, t', by simp only [flat, hr]⟩

/-! ### Paths -/

theorem segments_done {index : Production} {rest : List Token}
    (hdot : (peek last rest).terminal ≠ .dot)
    (hopen : (peek last rest).terminal ≠ .openIndex) :
    segments limit last index rest = .ok ([], 0, rest) := by
  rw [segments.eq_def]
  cases rest with
  | nil => rfl
  | cons t ts =>
    replace hdot : t.terminal ≠ .dot := hdot
    replace hopen : t.terminal ≠ .openIndex := hopen
    dsimp only
    split
    · next h => exact absurd h hdot
    · next h => exact absurd h hopen
    · rfl

theorem segments_stop {index : Production} {rest : List Token}
    (hk : (peek last rest).terminal.grip < 7) :
    segments limit last index rest = .ok ([], 0, rest) := by
  refine segments_done ?_ ?_
  · intro hdot
    rw [hdot] at hk
    exact absurd hk (by decide)
  · intro hopen
    rw [hopen] at hk
    exact absurd hk (by decide)

theorem segments_field {index : Production} {t x : Token} {name : String} {ts : List Token}
    (ht : t.terminal = .dot) (hx : x.terminal = .word name)
    (hts : (peek last ts).terminal ≠ .openCall) :
    segments limit last index (t :: x :: ts) =
      match segments limit last index ts with
      | .error e => .error e
      | .ok (ss, n, rest) => .ok (.field name :: ss, n, rest) := by
  obtain ⟨_, i⟩ := x
  subst hx
  rw [segments.eq_def]
  simp only [ht]
  split
  · next h => cases h; exact absurd rfl hts
  · next h => cases h; rfl
  · next h => exact absurd rfl (h _ _ _)

theorem segments_call {index : Production} {t x o c : Token} {name : String} {ts : List Token}
    (ht : t.terminal = .dot) (hx : x.terminal = .word name) (ho : o.terminal = .openCall)
    (hc : c.terminal = .closeCall) :
    segments limit last index (t :: x :: o :: c :: ts) =
      match segments limit last index ts with
      | .error e => .error e
      | .ok (ss, n, rest) => .ok (.call name :: ss, n, rest) := by
  obtain ⟨_, i⟩ := x
  obtain ⟨_, j⟩ := o
  subst hx ho
  rw [segments.eq_def]
  rcases hs : segments limit last index ts with e | ⟨ss, n, rest⟩ <;>
    simp only [ht, peek, List.headD_cons, hc, if_pos, List.tail_cons, hs]

theorem segments_index {index : Production} {t c : Token} {x : Subtree} {ts rest : List Token}
    (ht : t.terminal = .openIndex) (hx : index.run ts = .ok (x, c :: rest))
    (hc : c.terminal = .closeIndex) :
    segments limit last index (t :: ts) =
      match Subtree.build limit x.expr (x.height + 1) t with
      | .error e => .error e
      | .ok y =>
        match segments limit last index rest with
        | .error e => .error e
        | .ok (ss, n, rest') => .ok (.index x.expr :: ss, max y.height n, rest') := by
  rw [segments.eq_def]
  simp only [ht]
  split
  · next h => rw [hx] at h; cases h
  · next h =>
    cases hx.symm.trans h
    rcases hb : Subtree.build limit x.expr (x.height + 1) t with e | y
    · simp only [peek, List.headD_cons, hc, if_pos]
    · rcases hs : segments limit last index rest with e | ⟨ss, n, rest'⟩ <;>
        simp only [peek, List.headD_cons, hc, if_pos, List.tail_cons, hs]

theorem segments_index_error {index : Production} {t : Token} {ts : List Token} {e : ParseError}
    (ht : t.terminal = .openIndex) (hx : index.run ts = .error e) :
    segments limit last index (t :: ts) = .error e := by
  rw [segments.eq_def]
  simp only [ht]
  split
  · next h => exact congrArg _ (Except.error.inj (h.symm.trans hx))
  · next h => rw [hx] at h; cases h

theorem grip_of_mem_head {w : List Terminal} {ss : List Segment} (h : Segments L w ss) :
    ∀ t ∈ w.head?, t = .dot ∨ t = .openIndex := by
  cases h <;> simp

theorem segments_complete {index : Production} (hp : Complete last index L depth 1)
    (hd : depth ≤ limit) {w : List Terminal} {ss : List Segment} (h : Segments L w ss)
    {ts rest : List Token} (hw : ts.map Token.terminal = w)
    (hk : (peek last rest).terminal.grip < 7) :
    Yields (depth + 1) (Segment.heights ss) (segments limit last index (ts ++ rest))
      (ss, Segment.heights ss, rest) := by
  induction h generalizing ts with
  | nil =>
    obtain rfl := List.map_eq_nil_iff.1 hw
    exact Or.inl (segments_stop hk)
  | @field x w ss h ih =>
    obtain ⟨t, _, rfl, ht, hw⟩ := List.map_eq_cons_iff.1 hw
    obtain ⟨y, ts, rfl, hy, rfl⟩ := List.map_eq_cons_iff.1 hw
    have hno : (peek last (ts ++ rest)).terminal ≠ .openCall := by
      cases ts with
      | nil => intro hc; rw [List.nil_append] at hc; rw [hc] at hk; exact absurd hk (by decide)
      | cons z zs =>
        intro hc
        rcases grip_of_mem_head h z.terminal rfl with hz | hz
        · exact absurd (hc.symm.trans hz) (by decide)
        · exact absurd (hc.symm.trans hz) (by decide)
    rw [List.cons_append, List.cons_append, segments_field ht hy hno]
    simp only [Segment.heights, Segment.height, Nat.zero_max]
    rcases ih rfl with hr | ⟨hle, t', hr⟩
    · exact Or.inl (by rw [hr])
    · exact Or.inr ⟨hle, t', by rw [hr]⟩
  | @call x w ss h ih =>
    obtain ⟨t, _, rfl, ht, hw⟩ := List.map_eq_cons_iff.1 hw
    obtain ⟨y, _, rfl, hy, hw⟩ := List.map_eq_cons_iff.1 hw
    obtain ⟨o, _, rfl, ho, hw⟩ := List.map_eq_cons_iff.1 hw
    obtain ⟨c, ts, rfl, hc, rfl⟩ := List.map_eq_cons_iff.1 hw
    simp only [List.cons_append, segments_call ht hy ho hc, Segment.heights, Segment.height,
      Nat.zero_max]
    rcases ih rfl with hr | ⟨hle, t', hr⟩
    · exact Or.inl (by rw [hr])
    · exact Or.inr ⟨hle, t', by rw [hr]⟩
  | @index v w e ss hi h ih =>
    obtain ⟨t, _, rfl, ht, hw⟩ := List.map_eq_cons_iff.1 hw
    obtain ⟨ts₁, c, ts₂, rfl, rfl, hc, rfl⟩ := cut_at_terminal hw
    have hgrip : (peek last (c :: (ts₂ ++ rest))).terminal.grip < 1 := by
      simp only [peek, List.headD_cons, hc]; decide
    rw [List.cons_append, List.append_assoc, List.cons_append]
    simp only [Segment.heights, Segment.height]
    rcases hp hi hgrip with hr | ⟨hle, t', hr⟩
    · rw [segments_index ht hr hc]
      rcases build_yields (Nat.succ_le_succ hd) e (e.height + 1) t with hb | ⟨hle, t', hb⟩
      · rw [hb]
        rcases ih rfl with hs | ⟨hle, t', hs⟩
        · exact Or.inl (by rw [hs])
        · exact Or.inr ⟨by omega, t', by rw [hs]⟩
      · exact Or.inr ⟨by omega, t', by rw [hb]⟩
    · exact Or.inr ⟨by omega, t', segments_index_error ht hr⟩

/-! ### All levels -/

theorem simple_complete {nested index : Production} (hd : depth ≤ limit)
    (hn : Complete last nested Negation depth 7) (hi : Complete last index Disjunction depth 1) :
    Complete last (simple limit last nested index) Negation (depth + 1) 7 := by
  intro ts rest e h hk
  generalize hw : ts.map Token.terminal = w at h
  cases h with
  | @not w e h =>
    obtain ⟨t, ts, rfl, ht, rfl⟩ := List.map_eq_cons_iff.1 hw
    have hhead : peek last (t :: ts ++ rest) = t := rfl
    have htail : (t :: ts ++ rest).tail = ts ++ rest := rfl
    simp only [simple, hhead, htail, ht, Expr.height]
    rcases hn h hk with hr | ⟨hle, t', hr⟩
    · rcases build_yields (Nat.succ_le_succ hd) (.not e) (e.height + 1) t with
        hb | ⟨hle, t', hb⟩
      · exact Or.inl (by simp only [hr, hb]; rfl)
      · exact Or.inr ⟨hle, t', by simp only [hr, hb]; rfl⟩
    · exact Or.inr ⟨by omega, t', by simp only [hr]⟩
  | literal =>
    obtain ⟨t, ts, rfl, ht, hts⟩ := List.map_eq_cons_iff.1 hw
    obtain rfl := List.map_eq_nil_iff.1 hts
    have hhead : peek last ([t] ++ rest) = t := rfl
    exact Or.inl (by simp only [simple, hhead, ht]; rfl)
  | @path x w ss h =>
    obtain ⟨t, ts, rfl, ht, rfl⟩ := List.map_eq_cons_iff.1 hw
    have hhead : peek last (t :: ts ++ rest) = t := rfl
    have htail : (t :: ts ++ rest).tail = ts ++ rest := rfl
    simp only [simple, hhead, htail, ht, Expr.height]
    rcases segments_complete hi hd h rfl hk with hr | ⟨hle, t', hr⟩
    · exact Or.inl (by simp only [hr])
    · exact Or.inr ⟨by omega, t', by simp only [hr]⟩

theorem disjunction_complete {M : Language} (hd : depth ≤ limit + 1)
    (hp : Complete last p M depth 7) :
    Complete last (disjunction limit last p) (Levels M) depth 1 :=
  flat_complete (flat_complete
    (once_complete (once_complete
      (chain_complete (chain_complete hp hd Terminal.grip_of_product) hd Terminal.grip_of_sum)
      hd Terminal.grip_of_relation) hd Terminal.grip_of_equality)
    hd rfl fun _ => rfl) hd rfl fun _ => rfl

theorem refuse_complete : Complete last (refuse last .shallower) L 0 k :=
  fun _ _ _ _ _ => Or.inr ⟨Nat.zero_le _, _, rfl⟩

/-- With `room` for negations and brackets, only trees higher than `room` are refused. -/
theorem negation_complete (room : Nat) (hr : room ≤ limit) :
    Complete last (negation limit last room) Negation (room + 1) 7 := by
  induction room with
  | zero => exact simple_complete hr refuse_complete refuse_complete
  | succ room ih =>
    have hroom := ih (Nat.le_of_succ_le hr)
    exact simple_complete hr hroom (disjunction_complete (by omega) hroom)

end Production

end Rulebook
