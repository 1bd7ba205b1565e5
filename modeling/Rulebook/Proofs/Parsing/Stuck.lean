import Rulebook.Proofs.Parsing.Complete

/-!
Where a production gets stuck. What a production does is decided by the tokens that it reads and the
one behind them, so that a run can be repeated with other tokens further on:

    read            next     further on
    a && b == c     ==       …              a fault here, at the second ==
    a && b == c     ==       d || e         the same fault, whatever follows
    a && b == c     ||       …              none: what was read can go on

The repetition may have a higher limit. A fault that is not about height is the same then, since
every tree that was low enough still is. And what was read up to a fault is never in vain: it is the
beginning of something in the language.
-/

namespace Rulebook.Production

open Rulebook.Language

variable {limit limit' : Nat} {last : Token} {p q : Production} {L : Language}
  {op? : Terminal → Option BinOp}

/-- `q` reads all that `p` reads, with anything behind the next token. -/
def Tracks (last : Token) (p q : Production) : Prop :=
  ∀ ⦃ts t rest⦄, p.run ts = .ok (t, rest) → ∃ read, ts = read ++ rest ∧
    ∀ rest', peek last rest' = peek last rest → q.run (read ++ rest') = .ok (t, rest')

/-- A row that is the beginning of one in the language. -/
def Begins (L : Language) (row : List Terminal) : Prop := ∃ more e, L (row ++ more) e

/-- Where `p` gets stuck for another reason than height, `q` gets stuck for that reason, with
    anything behind the token at fault; and what is in front of it is a beginning of `L`. -/
def Sticks (last : Token) (p q : Production) (L : Language) : Prop :=
  ∀ ⦃ts e⦄, p.run ts = .error e → e.expected ≠ .shallower →
    ∃ read rest, ts = read ++ rest ∧
    peek last rest = e.token ∧ Begins L (read.map Token.terminal) ∧
    ∀ rest', peek last rest' = e.token → q.run (read ++ rest') = .error e

/-- All that is to be known of two productions, the second of which repeats what the
    first one does. -/
structure Repeats (limit : Nat) (last : Token) (p q : Production) (L : Language) : Prop where
  sound : Sound limit p L
  tracks : Tracks last p q
  sticks : Sticks last p q L

/-! ### The next token -/

theorem peek_append {rest rest' : List Token} (h : peek last rest' = peek last rest)
    (read : List Token) :
    peek last (read ++ rest') = peek last (read ++ rest) := by
  cases read with
  | nil => exact h
  | cons t read => rfl

/-- What was read, with its tree, and the run that repeats it. -/
theorem Repeats.ok (h : Repeats limit last p q L) {ts rest : List Token} {t : Subtree}
    (hr : p.run ts = .ok (t, rest)) :
    ∃ read, ts = read ++ rest ∧ L (read.map Token.terminal) t.expr ∧
      ∀ rest', peek last rest' = peek last rest → q.run (read ++ rest') = .ok (t, rest') := by
  obtain ⟨read, rfl, hq⟩ := h.tracks hr
  obtain ⟨-, -, read', hread, hL⟩ := h.sound hr
  rw [← List.append_cancel_right hread] at hL
  exact ⟨read, rfl, hL, hq⟩

theorem build_mono (hle : limit ≤ limit') {e : Expr} {n : Nat} {top : Token} {t : Subtree}
    (h : Subtree.build limit e n top = .ok t) : Subtree.build limit' e n top = .ok t := by
  obtain ⟨rfl, hn⟩ := build_ok h
  rw [Subtree.build, if_neg (by omega)]

theorem shallower_of_build {e : Expr} {n : Nat} {top : Token} {fault : ParseError}
    (h : Subtree.build limit e n top = .error fault) : fault.expected = .shallower := by
  unfold Subtree.build at h
  split at h
  · cases h; rfl
  · cases h

/-! ### Chains -/

theorem chainFrom_tracks (hle : limit ≤ limit') (hlast : op? last.terminal = none)
    (hp : Tracks last p q) {left t : Subtree} {ts rest : List Token}
    (h : chainFrom limit p op? left ts = .ok (t, rest)) :
    ∃ read, ts = read ++ rest ∧ ∀ rest', peek last rest' = peek last rest →
      chainFrom limit' q op? left (read ++ rest') = .ok (t, rest') := by
  fun_induction chainFrom limit p op? left ts with
  | case1 =>
    cases h
    refine ⟨[], rfl, fun rest' hrest => ?_⟩
    have hnone : op? (peek last rest').terminal = none := by rw [hrest]; exact hlast
    exact chainFrom_done hnone
  | case2 left x ts hop =>
    cases h
    refine ⟨[], rfl, fun rest' hrest => ?_⟩
    have hnone : op? (peek last rest').terminal = none := by rw [hrest]; exact hop
    exact chainFrom_done hnone
  | case3 | case4 => cases h
  | case5 left x ts op hop right r hr node hn _ ih =>
    obtain ⟨read, rfl, hq⟩ := hp hr
    obtain ⟨read', rfl, hrec⟩ := ih h
    refine ⟨x :: (read ++ read'), by simp, fun rest' hrest => ?_⟩
    have hright := hq (read' ++ rest') (peek_append hrest read')
    have hnode : Subtree.join limit' op left right x = .ok node := build_mono hle hn
    rw [List.cons_append, List.append_assoc, chainFrom_step hop hright, hnode]
    exact hrec rest' hrest

theorem chainFrom_sticks (hle : limit ≤ limit') (hp : Repeats limit last p q L) {left : Subtree}
    {ts : List Token} {e : ParseError} {v : List Terminal}
    (h : chainFrom limit p op? left ts = .error e) (he : e.expected ≠ .shallower)
    (hv : Chain op? L v left.expr) :
    ∃ read rest, ts = read ++ rest ∧ peek last rest = e.token ∧
      Begins (Chain op? L) (v ++ read.map Token.terminal) ∧
      ∀ rest', peek last rest' = e.token →
        chainFrom limit' q op? left (read ++ rest') = .error e := by
  fun_induction chainFrom limit p op? left ts generalizing v with
  | case1 | case2 => cases h
  | case3 left x ts op hop fault hr =>
    cases h
    obtain ⟨read, rest, rfl, hpeek, ⟨more, tree, hL⟩, hq⟩ := hp.sticks hr he
    refine ⟨x :: read, rest, rfl, hpeek, ⟨more, .binary op left.expr tree, ?_⟩,
      fun rest' hrest => ?_⟩
    · rw [List.map_cons, List.append_assoc, List.cons_append]
      exact .more hv hop hL
    · exact chainFrom_error hop (hq rest' hrest)
  | case4 left x ts op hop right r hr fault hn =>
    cases h
    exact absurd (shallower_of_build hn) he
  | case5 left x ts op hop right r hr node hn _ ih =>
    obtain ⟨read, rfl, hL, hq⟩ := hp.ok hr
    obtain ⟨rfl, -⟩ := build_ok hn
    obtain ⟨read', rest, rfl, hpeek, hbegins, hrec⟩ := ih h (Chain.more hv hop hL)
    refine ⟨x :: (read ++ read'), rest, by simp, hpeek, by simpa using hbegins,
      fun rest' hrest => ?_⟩
    have hright := hq (read' ++ rest') (peek_append (hrest.trans hpeek.symm) read')
    rw [List.cons_append, List.append_assoc, chainFrom_step hop hright, Subtree.join,
      build_mono hle hn]
    exact hrec rest' hrest

theorem chain_tracks (hle : limit ≤ limit') (hlast : op? last.terminal = none)
    (hp : Tracks last p q) :
    Tracks last (chain limit op? p) (chain limit' op? q) := by
  intro ts t rest h
  simp only [chain] at h
  split at h
  · cases h
  next left r hr =>
  obtain ⟨read, rfl, hq⟩ := hp hr
  obtain ⟨read', rfl, hrec⟩ := chainFrom_tracks hle hlast hp h
  refine ⟨read ++ read', by simp, fun rest' hrest => ?_⟩
  simp only [chain, List.append_assoc, hq _ (peek_append hrest read')]
  exact hrec rest' hrest

theorem chain_sticks (hle : limit ≤ limit') (hp : Repeats limit last p q L) :
    Sticks last (chain limit op? p) (chain limit' op? q) (Chain op? L) := by
  intro ts e h he
  simp only [chain] at h
  split at h
  · next fault hr =>
    cases h
    obtain ⟨read, rest, rfl, hpeek, ⟨more, tree, hL⟩, hq⟩ := hp.sticks hr he
    refine ⟨read, rest, rfl, hpeek, ⟨more, tree, .one hL⟩, fun rest' hrest => ?_⟩
    simp only [chain, hq rest' hrest]
  · next left r hr =>
    obtain ⟨read, rfl, hL, hq⟩ := hp.ok hr
    obtain ⟨read', rest, rfl, hpeek, hbegins, hrec⟩ := chainFrom_sticks hle hp h he (.one hL)
    refine ⟨read ++ read', rest, by simp, hpeek, by simpa using hbegins, fun rest' hrest => ?_⟩
    simp only [chain, List.append_assoc, hq _ (peek_append (hrest.trans hpeek.symm) read')]
    exact hrec rest' hrest

theorem Repeats.chain (hle : limit ≤ limit') (hlast : op? last.terminal = none)
    (hp : Repeats limit last p q L) :
    Repeats limit last (chain limit op? p) (chain limit' op? q) (Chain op? L) :=
  ⟨chain_sound hp.sound, chain_tracks hle hlast hp.tracks, chain_sticks hle hp⟩

/-! ### One operator at most -/

/-- The operator behind an operand is the next token of the list. -/
theorem exists_cons_of_op {rest : List Token} {op : BinOp} (hlast : op? last.terminal = none)
    (h : op? (peek last rest).terminal = some op) :
    ∃ x, rest = x :: rest.tail ∧ op? x.terminal = some op := by
  cases rest with
  | nil => rw [peek, List.headD_nil, hlast] at h; cases h
  | cons x rest => exact ⟨x, rfl, h⟩

theorem once_tracks (hle : limit ≤ limit') (hlast : op? last.terminal = none)
    (hp : Tracks last p q) :
    Tracks last (once limit last op? p) (once limit' last op? q) := by
  intro ts t rest h
  simp only [once] at h
  split at h
  · cases h
  next left r hl =>
  obtain ⟨read, rfl, hq⟩ := hp hl
  split at h
  · next hop =>
    cases h
    refine ⟨read, rfl, fun rest' hrest => ?_⟩
    simp only [once, hq rest' hrest, hrest, hop]
  next op hop =>
  split at h
  · cases h
  next right r' hr =>
  obtain ⟨read', hread', hq'⟩ := hp hr
  split at h
  · cases h
  next hno =>
  simp only [Except.map] at h
  split at h
  · cases h
  next node hn =>
  cases h
  obtain ⟨x, hx, hop⟩ := exists_cons_of_op hlast hop
  rw [hx] at hn hq ⊢
  rw [hread'] at hq ⊢
  refine ⟨read ++ x :: read', by simp, fun rest' hrest => ?_⟩
  have hleft := hq (x :: (read' ++ rest')) rfl
  have hnode : Subtree.join limit' op left right x = .ok t := build_mono hle hn
  have hpeek : peek last (x :: (read' ++ rest')) = x := rfl
  rw [← hrest] at hno
  simp only [once, List.append_assoc, List.cons_append, hleft, hpeek, hop, List.tail_cons,
    hq' rest' hrest, hno, hnode]
  rfl

theorem once_sticks (hlast : op? last.terminal = none) (hp : Repeats limit last p q L) :
    Sticks last (once limit last op? p) (once limit' last op? q) (Once op? L) := by
  intro ts e h he
  simp only [once] at h
  split at h
  · next fault hl =>
    cases h
    obtain ⟨read, rest, rfl, hpeek, ⟨more, tree, hL⟩, hq⟩ := hp.sticks hl he
    refine ⟨read, rest, rfl, hpeek, ⟨more, tree, .one hL⟩, fun rest' hrest => ?_⟩
    simp only [once, hq rest' hrest]
  next left r hl =>
  obtain ⟨read, rfl, hL, hq⟩ := hp.ok hl
  split at h
  · cases h
  next op hop =>
  obtain ⟨x, hx, hop⟩ := exists_cons_of_op hlast hop
  rw [hx] at h hq ⊢
  generalize r.tail = r at h hq ⊢
  have hpeek (ys : List Token) : peek last (x :: ys) = x := rfl
  rw [List.tail_cons, hpeek] at h
  split at h
  · next fault hr =>
    cases h
    obtain ⟨read', rest, rfl, hpeek', ⟨more, tree, hL'⟩, hq'⟩ := hp.sticks hr he
    refine ⟨read ++ x :: read', rest, by simp, hpeek', ⟨more, .binary op left.expr tree, ?_⟩,
      fun rest' hrest => ?_⟩
    · simpa using Once.two hL hop hL'
    · simp only [once, List.append_assoc, List.cons_append, hq (x :: (read' ++ rest')) rfl, hpeek,
        hop, List.tail_cons, hq' rest' hrest]
  next right r' hr =>
  obtain ⟨read', rfl, hL', hq'⟩ := hp.ok hr
  split at h
  · next hsecond =>
    cases h
    refine ⟨read ++ x :: read', r', by simp, rfl, ⟨[], .binary op left.expr right.expr, ?_⟩,
      fun rest' hrest => ?_⟩
    · simpa using Once.two hL hop hL'
    · replace hrest : peek last rest' = peek last r' := hrest
      simp only [once, List.append_assoc, List.cons_append, hq (x :: (read' ++ rest')) rfl, hpeek,
        hop, List.tail_cons, hq' rest' hrest, hsecond, if_true, hrest]
  · simp only [Except.map] at h
    split at h
    · next fault hn =>
      cases h
      exact absurd (shallower_of_build hn) he
    · cases h

theorem Repeats.once (hle : limit ≤ limit') (hlast : op? last.terminal = none)
    (hp : Repeats limit last p q L) :
    Repeats limit last (once limit last op? p) (once limit' last op? q) (Once op? L) :=
  ⟨once_sound hp.sound hlast, once_tracks hle hlast hp.tracks, once_sticks hlast hp⟩

/-! ### Flat nodes -/

theorem operands_tracks {sep : Terminal} (hlast : last.terminal ≠ sep) (hp : Tracks last p q)
    {ts rest : List Token} {xs : List Subtree} (h : operands p sep ts = .ok (xs, rest)) :
    ∃ read, ts = read ++ rest ∧ ∀ rest', peek last rest' = peek last rest →
      operands q sep (read ++ rest') = .ok (xs, rest') := by
  fun_induction operands p sep ts generalizing xs rest with
  | case1 =>
    cases h
    refine ⟨[], rfl, fun rest' hrest => ?_⟩
    have hstop : (peek last rest').terminal ≠ sep := by rw [hrest]; exact hlast
    exact operands_stop hstop
  | case2 | case3 => cases h
  | case4 x ts hx y r hy _ ys r' hys ih =>
    cases h
    obtain ⟨read, rfl, hq⟩ := hp hy
    obtain ⟨read', rfl, hrec⟩ := ih hys
    refine ⟨x :: (read ++ read'), by simp, fun rest' hrest => ?_⟩
    have hfirst := hq (read' ++ rest') (peek_append hrest read')
    rw [List.cons_append, List.append_assoc, operands_step hx hfirst, hrec rest' hrest]
  | case5 x ts hx =>
    cases h
    refine ⟨[], rfl, fun rest' hrest => ?_⟩
    have hstop : (peek last rest').terminal ≠ sep := by rw [hrest]; exact hx
    exact operands_stop hstop

theorem operands_sticks {sep : Terminal} (hp : Repeats limit last p q L) {ts : List Token}
    {e : ParseError} (h : operands p sep ts = .error e) (he : e.expected ≠ .shallower) :
    ∃ read rest, ts = read ++ rest ∧ peek last rest = e.token ∧
      (∀ {v f}, L v f →
        ∃ more es, Separated sep L (v ++ (read.map Token.terminal ++ more)) es ∧
        2 ≤ es.length) ∧
      ∀ rest', peek last rest' = e.token → operands q sep (read ++ rest') = .error e := by
  fun_induction operands p sep ts with
  | case1 => cases h
  | case2 x ts hx fault hy =>
    cases h
    obtain ⟨read, rest, rfl, hpeek, ⟨more, tree, hL⟩, hq⟩ := hp.sticks hy he
    refine ⟨x :: read, rest, rfl, hpeek, fun {v f} hv => ⟨more, [f, tree], ?_, Nat.le_refl 2⟩,
      fun rest' hrest => operands_error hx (hq rest' hrest)⟩
    simpa [hx] using Separated.more hv (.one hL)
  | case3 x ts hx y r hy _ fault hys ih =>
    cases h
    obtain ⟨read, rfl, hL, hq⟩ := hp.ok hy
    obtain ⟨read', rest, rfl, hpeek, hbegins, hrec⟩ := ih hys
    obtain ⟨more, es, hes, hlen⟩ := hbegins hL
    refine ⟨x :: (read ++ read'), rest, by simp, hpeek,
      fun {v f} hv => ⟨more, f :: es, ?_, ?_⟩, fun rest' hrest => ?_⟩
    · simpa [hx] using Separated.more hv hes
    · simp only [List.length_cons]
      omega
    · have hfirst := hq (read' ++ rest') (peek_append (hrest.trans hpeek.symm) read')
      rw [List.cons_append, List.append_assoc, operands_step hx hfirst, hrec rest' hrest]
  | case4 | case5 => cases h

theorem ne_sep_of_operands {sep : Terminal} {ts rest : List Token}
    (hnil : ts = [] → last.terminal ≠ sep) (h : operands p sep ts = .ok ([], rest)) :
    (peek last ts).terminal ≠ sep := by
  cases ts with
  | nil => exact hnil rfl
  | cons t ts =>
    rw [operands] at h
    split at h
    · split at h
      · cases h
      · split at h <;> cases h
    · next ht => exact ht

theorem flat_tracks {sep : Terminal} {node : List Expr → Expr} (hle : limit ≤ limit')
    (hlast : last.terminal ≠ sep) (hp : Tracks last p q) :
    Tracks last (flat limit last sep node p) (flat limit' last sep node q) := by
  intro ts t rest h
  simp only [flat] at h
  split at h
  · cases h
  next x r hx =>
  obtain ⟨read, rfl, hq⟩ := hp hx
  split at h
  · cases h
  · next hnone =>
    cases h
    refine ⟨read, rfl, fun rest' hrest => ?_⟩
    have hstop : (peek last rest').terminal ≠ sep := by
      rw [hrest]
      exact ne_sep_of_operands (fun _ => hlast) hnone
    simp only [flat, hq rest' hrest, operands_stop hstop]
  next y ys r' hys =>
  obtain ⟨read', rfl, hops⟩ := operands_tracks hlast hp hys
  simp only [Except.map] at h
  split at h
  · cases h
  next node' hn =>
  cases h
  refine ⟨read ++ read', by simp, fun rest' hrest => ?_⟩
  have hpeek := peek_append hrest read'
  rw [← hpeek] at hn
  simp only [flat, List.append_assoc, hq _ hpeek, hops rest' hrest, build_mono hle hn]
  rfl

theorem flat_sticks {sep : Terminal} {node : List Expr → Expr} (hp : Repeats limit last p q L) :
    Sticks last (flat limit last sep node p) (flat limit' last sep node q) (Flat sep node L) := by
  intro ts e h he
  simp only [flat] at h
  split at h
  · next fault hx =>
    cases h
    obtain ⟨read, rest, rfl, hpeek, ⟨more, tree, hL⟩, hq⟩ := hp.sticks hx he
    refine ⟨read, rest, rfl, hpeek, ⟨more, tree, .one hL⟩, fun rest' hrest => ?_⟩
    simp only [flat, hq rest' hrest]
  next x r hx =>
  obtain ⟨read, rfl, hL, hq⟩ := hp.ok hx
  split at h
  · next fault hys =>
    cases h
    obtain ⟨read', rest, rfl, hpeek, hbegins, hops⟩ := operands_sticks hp hys he
    obtain ⟨more, es, hes, hlen⟩ := hbegins hL
    refine ⟨read ++ read', rest, by simp, hpeek, ⟨more, node es, ?_⟩, fun rest' hrest => ?_⟩
    · simpa using Flat.many hes hlen
    · have hfirst := hq _ (peek_append (hrest.trans hpeek.symm) read')
      simp only [flat, List.append_assoc, hfirst, hops rest' hrest]
  · cases h
  · simp only [Except.map] at h
    split at h
    · next fault hn =>
      cases h
      exact absurd (shallower_of_build hn) he
    · cases h

theorem Repeats.flat {sep : Terminal} {node : List Expr → Expr} (hle : limit ≤ limit')
    (hlast : last.terminal ≠ sep) (hnode : ∀ es, (node es).height = Expr.heights es + 1)
    (hp : Repeats limit last p q L) :
    Repeats limit last (flat limit last sep node p) (flat limit' last sep node q)
      (Flat sep node L) :=
  ⟨flat_sound hp.sound hnode, flat_tracks hle hlast hp.tracks, flat_sticks hp⟩

/-! ### Paths -/

theorem segments_member_error {t : Token} {ts : List Token} (ht : t.terminal = .dot)
    (hts : ∀ name, (peek last ts).terminal ≠ .word name) :
    segments limit last p (t :: ts) = .error ⟨peek last ts, .member⟩ := by
  rw [segments.eq_def]
  simp only [ht]
  split
  · exact absurd rfl (hts _)
  · exact absurd rfl (hts _)
  · rfl

theorem segments_call_error {t x o : Token} {name : String} {ts : List Token}
    (ht : t.terminal = .dot) (hx : x.terminal = .word name) (ho : o.terminal = .openCall)
    (hts : (peek last ts).terminal ≠ .closeCall) :
    segments limit last p (t :: x :: o :: ts) = .error ⟨peek last ts, .closeCall⟩ := by
  obtain ⟨_, i⟩ := x
  obtain ⟨_, j⟩ := o
  subst hx ho
  rw [segments.eq_def]
  simp only [ht, hts, if_false]

theorem segments_unclosed {t : Token} {x : Subtree} {ts rest : List Token}
    (ht : t.terminal = .openIndex) (hx : p.run ts = .ok (x, rest))
    (hrest : (peek last rest).terminal ≠ .closeIndex) :
    segments limit last p (t :: ts) = .error ⟨peek last rest, .closeIndex⟩ := by
  rw [segments.eq_def]
  simp only [ht]
  split
  · next h => rw [hx] at h; cases h
  · next h => cases hx.symm.trans h; rw [if_neg hrest]

/-- The next token is not the one that the list does not begin with. -/
theorem peek_ne {x : Terminal} {ts : List Token} (hnil : ts = [] → last.terminal ≠ x)
    (h : ∀ position rest, ts = ⟨x, position⟩ :: rest → False) :
    (peek last ts).terminal ≠ x := by
  cases ts with
  | nil => exact hnil rfl
  | cons t ts =>
    rintro rfl
    exact h t.position ts rfl

theorem segments_tracks (hle : limit ≤ limit') (hlast : last.terminal = .ending)
    (hp : Tracks last p q) {ts rest : List Token} {ss : List Segment} {n : Nat}
    (h : segments limit last p ts = .ok (ss, n, rest)) :
    ∃ read, ts = read ++ rest ∧ ∀ rest', peek last rest' = peek last rest →
      segments limit' last q (read ++ rest') = .ok (ss, n, rest') := by
  fun_induction segments limit last p ts generalizing ss n rest with
  | case1 =>
    cases h
    refine ⟨[], rfl, fun rest' hrest => ?_⟩
    have hend : (peek last rest').terminal = .ending := by rw [hrest]; exact hlast
    exact segments_done (by simp [hend]) (by simp [hend])
  | case2 => cases h
  | case3 t ht x i j ts hc ss' n' r hs ih =>
    cases h
    obtain ⟨c, hts, hc⟩ := eq_cons_of_peek (by rw [hlast]; decide) hc
    obtain ⟨read, hread, hrec⟩ := ih hs
    refine ⟨t :: ⟨.word x, i⟩ :: ⟨.openCall, j⟩ :: c :: read, ?_, fun rest' hrest => ?_⟩
    · rw [hts, hread]; rfl
    · simp only [List.cons_append]
      refine (segments_call ht rfl rfl hc).trans ?_
      rw [hrec rest' hrest]
  | case4 | case5 => cases h
  | case6 t ht x i ts hno ss' n' r hs ih =>
    cases h
    obtain ⟨read, rfl, hrec⟩ := ih hs
    refine ⟨t :: ⟨.word x, i⟩ :: read, rfl, fun rest' hrest => ?_⟩
    have hcall : (peek last (read ++ rest')).terminal ≠ .openCall := by
      rw [peek_append hrest]
      exact peek_ne (fun _ => by rw [hlast]; decide) hno
    rw [List.cons_append, List.cons_append, segments_field ht rfl hcall, hrec rest' hrest]
  | case7 | case8 | case9 | case10 => cases h
  | case11 t ts ht x r hx _ hc node hb ss' n' r' hs ih =>
    cases h
    obtain ⟨c, hr, hc⟩ := eq_cons_of_peek (by rw [hlast]; decide) hc
    obtain ⟨read, rfl, hq⟩ := hp hx
    obtain ⟨read', hread', hrec⟩ := ih hs
    rw [hread'] at hr
    rw [hr] at hq ⊢
    refine ⟨t :: (read ++ c :: read'), by simp, fun rest' hrest => ?_⟩
    have hindex := hq (c :: (read' ++ rest')) rfl
    rw [List.cons_append, List.append_assoc, List.cons_append, segments_index ht hindex hc,
      build_mono hle hb, hrec rest' hrest]
  | case12 => cases h
  | case13 t ts hdot hopen =>
    cases h
    refine ⟨[], rfl, fun rest' hrest => ?_⟩
    have hpeek : (peek last rest').terminal = t.terminal := by rw [hrest]; rfl
    rw [List.nil_append]
    exact segments_done (by rw [hpeek]; exact hdot) (by rw [hpeek]; exact hopen)

theorem segments_sticks (hle : limit ≤ limit') (hlast : last.terminal = .ending)
    (hp : Repeats limit last p q L) {ts : List Token} {e : ParseError}
    (h : segments limit last p ts = .error e) (he : e.expected ≠ .shallower) :
    ∃ read rest, ts = read ++ rest ∧ peek last rest = e.token ∧
      (∃ more ss, Segments L (read.map Token.terminal ++ more) ss) ∧
      ∀ rest', peek last rest' = e.token →
        segments limit' last q (read ++ rest') = .error e := by
  fun_induction segments limit last p ts with
  | case1 => cases h
  | case2 t ht x i j ts hc fault hs ih =>
    cases h
    obtain ⟨c, hts, hc⟩ := eq_cons_of_peek (by rw [hlast]; decide) hc
    obtain ⟨read, rest, hread, hpeek, ⟨more, ss, hL⟩, hrec⟩ := ih hs
    refine ⟨t :: ⟨.word x, i⟩ :: ⟨.openCall, j⟩ :: c :: read, rest, ?_, hpeek,
      ⟨more, .call x :: ss, ?_⟩, fun rest' hrest => ?_⟩
    · rw [hts, hread]; rfl
    · simpa [ht, hc] using Segments.call hL
    · simp only [List.cons_append]
      refine (segments_call ht rfl rfl hc).trans ?_
      rw [hrec rest' hrest]
  | case3 => cases h
  | case4 t ht x i j ts hc =>
    cases h
    refine ⟨[t, ⟨.word x, i⟩, ⟨.openCall, j⟩], ts, rfl, rfl,
      ⟨[.closeCall], [.call x], ?_⟩, fun rest' hrest => ?_⟩
    · simpa [ht] using Segments.call Segments.nil
    · replace hrest : peek last rest' = peek last ts := hrest
      rw [← hrest] at hc ⊢
      exact segments_call_error ht rfl rfl hc
  | case5 t ht x i ts hno fault hs ih =>
    cases h
    obtain ⟨read, rest, rfl, hpeek, ⟨more, ss, hL⟩, hrec⟩ := ih hs
    refine ⟨t :: ⟨.word x, i⟩ :: read, rest, rfl, hpeek, ⟨more, .field x :: ss, ?_⟩,
      fun rest' hrest => ?_⟩
    · simpa [ht] using Segments.field hL
    · have hcall : (peek last (read ++ rest')).terminal ≠ .openCall := by
        rw [peek_append (hrest.trans hpeek.symm)]
        exact peek_ne (fun _ => by rw [hlast]; decide) hno
      rw [List.cons_append, List.cons_append, segments_field ht rfl hcall, hrec rest' hrest]
  | case6 => cases h
  | case7 t ts ht _ hno =>
    cases h
    have hword : ∀ name, (peek last ts).terminal ≠ .word name :=
      fun name => peek_ne (fun _ => by rw [hlast]; exact Terminal.noConfusion) (hno name)
    refine ⟨[t], ts, rfl, rfl, ⟨[.word "x"], [.field "x"], ?_⟩, fun rest' hrest => ?_⟩
    · simpa [ht] using Segments.field Segments.nil
    · replace hrest : peek last rest' = peek last ts := hrest
      rw [← hrest] at hword ⊢
      exact segments_member_error ht hword
  | case8 t ts ht fault hx =>
    cases h
    obtain ⟨read, rest, rfl, hpeek, ⟨more, tree, hL⟩, hq⟩ := hp.sticks hx he
    refine ⟨t :: read, rest, rfl, hpeek, ⟨more ++ [.closeIndex], [.index tree], ?_⟩,
      fun rest' hrest => segments_index_error ht (hq rest' hrest)⟩
    simpa [ht] using Segments.index hL Segments.nil
  | case9 t ts ht x r hx _ hc fault hb =>
    cases h
    exact absurd (shallower_of_build hb) he
  | case10 t ts ht x r hx _ hc node hb fault hs ih =>
    cases h
    obtain ⟨c, hr, hc⟩ := eq_cons_of_peek (by rw [hlast]; decide) hc
    obtain ⟨read, rfl, hL, hq⟩ := hp.ok hx
    obtain ⟨read', rest, hread', hpeek, ⟨more, ss, hss⟩, hrec⟩ := ih hs
    rw [hread'] at hr
    rw [hr] at hq ⊢
    refine ⟨t :: (read ++ c :: read'), rest, by simp, hpeek, ⟨more, .index x.expr :: ss, ?_⟩,
      fun rest' hrest => ?_⟩
    · simpa [ht, hc] using Segments.index hL hss
    · have hindex := hq (c :: (read' ++ rest')) rfl
      rw [List.cons_append, List.append_assoc, List.cons_append, segments_index ht hindex hc,
        build_mono hle hb, hrec rest' hrest]
  | case11 => cases h
  | case12 t ts ht x r hx _ hc =>
    cases h
    obtain ⟨read, rfl, hL, hq⟩ := hp.ok hx
    refine ⟨t :: read, r, rfl, rfl, ⟨[.closeIndex], [.index x.expr], ?_⟩,
      fun rest' hrest => ?_⟩
    · simpa [ht] using Segments.index hL Segments.nil
    · replace hrest : peek last rest' = peek last r := hrest
      have hindex := hq rest' hrest
      rw [← hrest] at hc ⊢
      exact segments_unclosed ht hindex hc
  | case13 => cases h

/-! ### All levels -/

variable {nested nested' index index' : Production}

theorem simple_tracks (hle : limit ≤ limit') (hlast : last.terminal = .ending)
    (hn : Tracks last nested nested') (hi : Tracks last index index') :
    Tracks last (simple limit last nested index) (simple limit' last nested' index') := by
  intro ts t rest h
  simp only [simple] at h
  split at h
  · next hx =>
    obtain ⟨x, hts, hx⟩ := eq_cons_of_peek (by rw [hlast]; decide) hx
    rw [hts] at h ⊢
    generalize ts.tail = ts at h ⊢
    have hpeek (ys : List Token) : peek last (x :: ys) = x := rfl
    rw [List.tail_cons, hpeek] at h
    split at h
    · cases h
    next y r hy =>
    obtain ⟨read, rfl, hq⟩ := hn hy
    simp only [Except.map] at h
    split at h
    · cases h
    next node hb =>
    cases h
    refine ⟨x :: read, rfl, fun rest' hrest => ?_⟩
    simp only [simple, List.cons_append, hpeek, hx, List.tail_cons, hq rest' hrest,
      build_mono hle hb]
    rfl
  · next l hx =>
    obtain ⟨x, hts, hx⟩ := eq_cons_of_peek (by rw [hlast]; exact Terminal.noConfusion) hx
    cases h
    refine ⟨[x], hts, fun rest' hrest => ?_⟩
    have hpeek : peek last ([x] ++ rest') = x := rfl
    simp only [simple, hpeek, hx]
    rfl
  · next root hx =>
    obtain ⟨x, hts, hx⟩ := eq_cons_of_peek (by rw [hlast]; exact Terminal.noConfusion) hx
    split at h
    · cases h
    next ss n r hs =>
    cases h
    obtain ⟨read, hread, hq⟩ := segments_tracks hle hlast hi hs
    refine ⟨x :: read, by rw [hts, hread]; rfl, fun rest' hrest => ?_⟩
    have hpeek : peek last (x :: (read ++ rest')) = x := rfl
    simp only [simple, List.cons_append, hpeek, hx, List.tail_cons, hq rest' hrest]
  · cases h

theorem simple_sticks (hle : limit ≤ limit') (hlast : last.terminal = .ending)
    (hn : Repeats limit last nested nested' Negation)
    (hi : Repeats limit last index index' Disjunction) :
    Sticks last (simple limit last nested index) (simple limit' last nested' index') Negation := by
  intro ts e h he
  simp only [simple] at h
  split at h
  · next hx =>
    obtain ⟨x, hts, hx⟩ := eq_cons_of_peek (by rw [hlast]; decide) hx
    split at h
    · next fault hy =>
      cases h
      obtain ⟨read, rest, hread, hpeek, ⟨more, tree, hL⟩, hq⟩ := hn.sticks hy he
      refine ⟨x :: read, rest, by rw [hts, hread]; rfl, hpeek, ⟨more, .not tree, ?_⟩,
        fun rest' hrest => ?_⟩
      · simpa [hx] using Negation.not hL
      · have hhead : peek last (x :: (read ++ rest')) = x := rfl
        simp only [simple, List.cons_append, hhead, hx, List.tail_cons, hq rest' hrest]
    · simp only [Except.map] at h
      split at h
      · next fault hb =>
        cases h
        exact absurd (shallower_of_build hb) he
      · cases h
  · cases h
  · next root hx =>
    obtain ⟨x, hts, hx⟩ := eq_cons_of_peek (by rw [hlast]; exact Terminal.noConfusion) hx
    split at h
    · next fault hs =>
      cases h
      obtain ⟨read, rest, hread, hpeek, ⟨more, ss, hss⟩, hq⟩ :=
        segments_sticks hle hlast hi hs he
      refine ⟨x :: read, rest, by rw [hts, hread]; rfl, hpeek, ⟨more, .path root ss, ?_⟩,
        fun rest' hrest => ?_⟩
      · simpa [hx] using Negation.path hss
      · have hhead : peek last (x :: (read ++ rest')) = x := rfl
        simp only [simple, List.cons_append, hhead, hx, List.tail_cons, hq rest' hrest]
    · cases h
  · next hnot hliteral hword =>
    cases h
    refine ⟨[], ts, rfl, rfl, ⟨[.literal (.bool true)], .literal (.bool true), .literal⟩,
      fun rest' hrest => ?_⟩
    replace hrest : peek last rest' = peek last ts := hrest
    rw [← hrest] at hnot hliteral hword ⊢
    simp only [simple, List.nil_append]

theorem Repeats.simple (hlimit : 1 ≤ limit) (hle : limit ≤ limit')
    (hlast : last.terminal = .ending) (hn : Repeats limit last nested nested' Negation)
    (hi : Repeats limit last index index' Disjunction) :
    Repeats limit last (simple limit last nested index)
      (simple limit' last nested' index') Negation :=
  ⟨simple_sound closed_negation hlimit hlast hn.sound hi.sound,
    simple_tracks hle hlast hn.tracks hi.tracks, simple_sticks hle hlast hn hi⟩

theorem Repeats.disjunction (hle : limit ≤ limit') (hlast : last.terminal = .ending)
    (hp : Repeats limit last p q Negation) :
    Repeats limit last (disjunction limit last p) (disjunction limit' last q) Disjunction := by
  have hnone (op? : Terminal → Option BinOp) (h : op? .ending = none) :
      op? last.terminal = none := by
    rw [hlast, h]
  have hproduct := hp.chain hle (hnone Terminal.product? rfl)
  have hsum := hproduct.chain hle (hnone Terminal.sum? rfl)
  have hrelation := hsum.once hle (hnone Terminal.relation? rfl)
  have hequality := hrelation.once hle (hnone Terminal.equality? rfl)
  have hand : Repeats limit last (Production.flat limit last .and .all _)
      (Production.flat limit' last .and .all _) _ :=
    hequality.flat hle (by rw [hlast]; decide) fun _ => rfl
  exact hand.flat hle (by rw [hlast]; decide) fun _ => rfl

/-- What is refused for its height at once is repeated by anything. -/
theorem Repeats.refuse : Repeats limit last (refuse last .shallower) q L := by
  refine ⟨refuse_sound, ?_, ?_⟩
  · intro ts t rest h
    cases h
  · intro ts e h he
    cases h
    exact absurd rfl he

/-- With more room and a higher limit everything is repeated. -/
theorem Repeats.negation (hlimit : 1 ≤ limit) (hle : limit ≤ limit')
    (hlast : last.terminal = .ending) (room room' : Nat) (hroom : room ≤ room') :
    Repeats limit last (negation limit last room) (negation limit' last room') Negation := by
  induction room generalizing room' with
  | zero => cases room' <;> exact Repeats.simple hlimit hle hlast Repeats.refuse Repeats.refuse
  | succ room ih =>
    obtain ⟨room', rfl⟩ := Nat.exists_eq_add_of_le' (Nat.lt_of_lt_of_le room.succ_pos hroom)
    have hp := ih room' (Nat.le_of_succ_le_succ hroom)
    exact hp.simple hlimit hle hlast (hp.disjunction hle hlast)

end Rulebook.Production
