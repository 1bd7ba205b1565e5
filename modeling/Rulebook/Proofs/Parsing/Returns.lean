import Rulebook.Proofs.Parsing.Machine
import Rulebook.Proofs.Parsing.Stuck

/-!
The machine comes back from whatever it calls, with what the production reads there:

    depth    room       called                       comes back with what is read by
    0        limit      disjunction, negation, ...   disjunction over negation limit
    1        limit - 1  behind one ! or [            disjunction over negation (limit - 1)
    limit    0          behind limit of them         negation 0, which opens no more

The counter and the room add up to the limit, and the induction is on the room. In a level the proof
goes along the recursion of the production. That the last token is seen again behind all others does
no harm: an operand never ends with an operator, so that no loop goes on there.
-/

namespace Rulebook.Machine

/-! ### What a nonterminal reads -/

section Reading

variable (limit : Nat) (last : Token)

/-- A level of operators over what `negation` reads. -/
def Folding.production (negation : Production) : Folding → Production
  | .product => .chain limit Terminal.product? negation
  | .sum => .chain limit Terminal.sum? (.chain limit Terminal.product? negation)

/-- A level of operators over what `negation` reads. -/
def Comparing.production (negation : Production) : Comparing → Production
  | .relation => .once limit last Terminal.relation? (Folding.sum.production limit negation)
  | .equality => .once limit last Terminal.equality?
      (.once limit last Terminal.relation? (Folding.sum.production limit negation))

/-- A level of operators over what `negation` reads. -/
def Junction.production (negation : Production) : Junction → Production
  | .conjunction => .flat limit last .and .all (Comparing.equality.production limit last negation)
  | .disjunction => .disjunction limit last negation

/-- What may stand behind `!`, with room for so many of `!` and `[` there. -/
def negated : Nat → Production
  | 0 => .refuse last .shallower
  | room + 1 => .negation limit last room

/-- What may stand behind `[`, with room for so many of `!` and `[` there. -/
def indexed : Nat → Production
  | 0 => .refuse last .shallower
  | room + 1 => .disjunction limit last (.negation limit last room)

/-- The path of what is known of it and the segments that are still to come. -/
def onPath (root : String) (ss : List Segment) (height : Nat) :
    Except ParseError (List Segment × Nat × List Token) →
    Except ParseError (Subtree × List Token)
  | .error e => .error e
  | .ok (more, n, rest) => .ok (⟨.path root (ss ++ more), max height n⟩, rest)

/-- What a nonterminal reads, with room for so many of `!` and `[` inside each other. -/
def Nonterminal.read (room : Nat) :
    Nonterminal → List Token → Except ParseError (Subtree × List Token)
  | .flat j => (j.production limit last (.negation limit last room)).run
  | .once c => (c.production limit last (.negation limit last room)).run
  | .chain f => (f.production limit (.negation limit last room)).run
  | .negation => (Production.negation limit last room).run
  | .primary => fun ts =>
    if (peek last ts).terminal = .not then .error ⟨peek last ts, .operand⟩
    else (Production.negation limit last room).run ts
  | .path root =>
    fun ts => onPath root [] 1 (Production.segments limit last (indexed limit last room) ts)

theorem negation_eq_simple (room : Nat) :
    Production.negation limit last room =
      .simple limit last (negated limit last room) (indexed limit last room) := by
  cases room <;> rfl

end Reading

/-! ### Runs -/

variable {limit : Nat} {last : Token} {depth : Nat} {stack : List Frame} {s s' : State}
  {r : Except ParseError (Subtree × List Token)}

theorem Within.of_cons {F : Frame} (h : Within (F :: stack) s) : Within stack s := by
  refine ⟨(List.suffix_cons F stack).trans h.1, fun _ _ hs => ?_⟩
  have hle := h.1.length_le
  rw [hs, List.length_cons] at hle
  omega

theorem Runs.of_cons {F : Frame} (h : Runs limit last (F :: stack) s s') :
    Runs limit last stack s s' :=
  Relation.ReflTransGen.mono (fun _ _ hstep => ⟨hstep.1.of_cons, hstep.2⟩) _ _ h

theorem Runs.reaches (h : Runs limit last stack s s') : Reaches limit last s s' :=
  Relation.ReflTransGen.mono (fun _ _ hstep => hstep.2) _ _ h

theorem peek_cons (t : Token) (ts : List Token) : peek last (t :: ts) = t := rfl

/-- Tokens at whose end stands the last one, if there are any. -/
def Ends (last : Token) (ts : List Token) : Prop := ∀ t ∈ ts.getLast?, t = last

theorem Ends.tail {ts : List Token} (h : Ends last ts) : Ends last ts.tail := by
  cases ts with
  | nil => exact h
  | cons t ts =>
    intro x hx
    refine h x ?_
    rw [List.getLast?_cons_of_ne_nil (by rintro rfl; cases hx)]
    exact hx

theorem Ends.terminal_eq {t : Token} {ts : List Token} (h : Ends last (t :: ts)) (hnil : ts = []) :
    last.terminal = t.terminal := by
  subst hnil
  exact congrArg Token.terminal (h t rfl).symm

/-- Tokens behind an operand: if there are none, no operator can be seen there again. -/
structure Settled (last : Token) (ts : List Token) : Prop where
  ends : Ends last ts
  still : ts = [] → last.terminal.grip = 0

/-- What stands behind a token that has no grip is settled. -/
theorem Ends.settled {ts : List Token} (h : Ends last ts) (hk : (peek last ts).terminal.grip = 0) :
    Settled last ts.tail := by
  refine ⟨h.tail, fun hnil => ?_⟩
  cases ts with
  | nil => exact hk
  | cons t ts => rwa [h.terminal_eq hnil]

/-- Behind an operand that the tokens end with, no terminal with a grip is seen. -/
theorem Settled.ne (h : Settled last []) {x : Terminal} (hx : x.grip ≠ 0) :
    last.terminal ≠ x := by
  rintro rfl
  exact hx (h.still rfl)

/-- The run from `s` comes back to `stack` with the result that it should have. -/
def Returns (limit : Nat) (last : Token) (depth : Nat) (stack : List Frame) (s : State) :
    Except ParseError (Subtree × List Token) → Prop
  | .ok (t, rest) =>
    Runs limit last stack s ⟨.give (.ok t), rest, depth, stack⟩ ∧ Settled last rest
  | .error e => ∃ rest, Runs limit last stack s ⟨.give (.error e), rest, depth, stack⟩

theorem Returns.of_runs (h : Runs limit last stack s s')
    (hr : Returns limit last depth stack s' r) :
    Returns limit last depth stack s r := by
  match r with
  | .ok (t, rest) => exact ⟨Relation.ReflTransGen.trans h hr.1, hr.2⟩
  | .error e =>
    obtain ⟨rest, hr⟩ := hr
    exact ⟨rest, Relation.ReflTransGen.trans h hr⟩

theorem Returns.of_step (hs : Within stack s) (h : step limit last s = some s')
    (hr : Returns limit last depth stack s' r) : Returns limit last depth stack s r :=
  hr.of_runs (.single ⟨hs, h⟩)

theorem Returns.call {n : Nonterminal} {ts : List Token}
    (h : Returns limit last depth stack (enter limit last ts depth stack n) r) :
    Returns limit last depth stack ⟨.call n, ts, depth, stack⟩ r :=
  h.of_step ⟨List.suffix_refl stack, fun _ hc => by cases hc⟩ rfl

theorem Returns.walk {root : String} {ss : List Segment} {height : Nat} {ts : List Token}
    (h : Returns limit last depth stack (Machine.walk limit last root ss height ts depth stack) r) :
    Returns limit last depth stack ⟨.walk root ss height, ts, depth, stack⟩ r :=
  h.of_step ⟨List.suffix_refl stack, fun _ hc => by cases hc⟩ rfl

theorem Returns.ok {t : Subtree} {rest : List Token} (h : Settled last rest) :
    Returns limit last depth stack ⟨.give (.ok t), rest, depth, stack⟩ (.ok (t, rest)) :=
  ⟨.refl, h⟩

theorem Returns.error {e : ParseError} {rest : List Token} :
    Returns limit last depth stack ⟨.give (.error e), rest, depth, stack⟩ (.error e) :=
  ⟨rest, .refl⟩

/-- A node is the last that a production makes. -/
theorem Returns.build {r : Except ParseError Subtree} {rest : List Token} (h : Settled last rest) :
    Returns limit last depth stack ⟨.give r, rest, depth, stack⟩ (r.map (·, rest)) := by
  cases r with
  | error e => exact .error
  | ok t => exact .ok h

/-- What is given to a frame is not given to the stack below it yet. -/
theorem within_give (F : Frame) (r : Except ParseError Subtree) (ts : List Token) (d : Nat) :
    Within stack ⟨.give r, ts, d, F :: stack⟩ :=
  ⟨List.suffix_cons F stack, fun _ _ => List.cons_ne_self F stack⟩

/-- A fault goes through a frame. -/
theorem Returns.raise {F : Frame} {e : ParseError} {d : Nat}
    (h : Returns limit last d (F :: stack) s (.error e)) (hF : F.leave d = depth) :
    Returns limit last depth stack s (.error e) := by
  obtain ⟨rest, h⟩ := h
  subst hF
  exact .of_runs h.of_cons (.of_step (within_give F _ rest d) rfl .error)

/-- A subtree is taken up by a frame. -/
theorem Returns.resume {F : Frame} {x : Subtree} {rest : List Token} {d : Nat}
    (h : Returns limit last d (F :: stack) s (.ok (x, rest))) (hF : F.leave d = depth)
    (hr : Settled last rest →
      Returns limit last depth stack (resume limit last x rest depth stack F) r) :
    Returns limit last depth stack s r := by
  subst hF
  exact .of_runs h.1.of_cons (.of_step (within_give F _ rest d) rfl (hr h.2))

/-- A nonterminal that comes back with what is read, wherever it is called with
    `depth` on the counter. -/
def Performs (limit : Nat) (last : Token) (depth : Nat) (n : Nonterminal)
    (read : List Token → Except ParseError (Subtree × List Token)) : Prop :=
  ∀ ⦃ts⦄ stack, Ends last ts →
    Returns limit last depth stack ⟨.call n, ts, depth, stack⟩ (read ts)

theorem Performs.of_eq {n : Nonterminal}
    {read : List Token → Except ParseError (Subtree × List Token)}
    (h : Performs limit last depth n read) {ts : List Token} (hts : Ends last ts)
    (hr : read ts = r) :
    Returns limit last depth stack ⟨.call n, ts, depth, stack⟩ r :=
  hr ▸ h stack hts

/-! ### Operators -/

variable {p : Production}

theorem Folding.grip_ne_zero {f : Folding} {t : Terminal} {op : BinOp} (h : f.op? t = some op) :
    t.grip ≠ 0 := by
  cases f with
  | sum => rw [Terminal.grip_of_sum h]; decide
  | product => rw [Terminal.grip_of_product h]; decide

theorem chainLoop_done {f : Folding} {left : Subtree} {ts : List Token}
    (h : f.op? (peek last ts).terminal = none) :
    chainLoop last f left ts depth stack = ⟨.give (.ok left), ts, depth, stack⟩ := by
  rw [chainLoop, h]

theorem chainLoop_step {f : Folding} {left : Subtree} {t : Token} {ts : List Token} {op : BinOp}
    (h : f.op? t.terminal = some op) :
    chainLoop last f left (t :: ts) depth stack =
      ⟨.call f.operand, ts, depth, .chainNext f op left t :: stack⟩ := by
  simp only [chainLoop, peek_cons, h, List.tail_cons]

theorem chainFrom_returns {f : Folding} (hp : Performs limit last depth f.operand p.run)
    {left : Subtree} {ts : List Token} (hts : Settled last ts) :
    Returns limit last depth stack (chainLoop last f left ts depth stack)
      (Production.chainFrom limit p f.op? left ts) := by
  fun_induction Production.chainFrom limit p f.op? left ts with
  | case1 left =>
    -- What is seen behind all tokens is the last one, which cannot be an operator here.
    have hnone : f.op? last.terminal = none := by
      cases hop : f.op? last.terminal with
      | none => rfl
      | some op => exact absurd rfl (hts.ne (Folding.grip_ne_zero hop))
    rw [chainLoop_done hnone]
    exact .ok hts
  | case2 left t ts hop =>
    rw [chainLoop_done hop]
    exact .ok hts
  | case3 left t ts op hop e hr =>
    rw [chainLoop_step hop]
    exact (hp.of_eq hts.ends.tail hr).raise rfl
  | case4 left t ts op hop right rest hr e hn =>
    rw [chainLoop_step hop]
    refine (hp.of_eq hts.ends.tail hr).resume rfl fun _ => ?_
    simp only [resume, hn]
    exact .error
  | case5 left t ts op hop right rest hr node hn _ ih =>
    rw [chainLoop_step hop]
    refine (hp.of_eq hts.ends.tail hr).resume rfl fun hrest => ?_
    simp only [resume, hn]
    exact ih hrest

theorem chain_performs {f : Folding} (hp : Performs limit last depth f.operand p.run) :
    Performs limit last depth (.chain f) (Production.chain limit f.op? p).run := by
  intro ts stack hts
  refine Returns.call ?_
  simp only [Production.chain]
  rcases hr : p.run ts with e | ⟨left, rest⟩
  · exact (hp.of_eq hts hr).raise rfl
  · exact (hp.of_eq hts hr).resume rfl (chainFrom_returns hp)

theorem once_performs {c : Comparing} (hp : Performs limit last depth c.operand p.run) :
    Performs limit last depth (.once c) (Production.once limit last c.op? p).run := by
  intro ts stack hts
  refine Returns.call ?_
  simp only [Production.once]
  rcases hl : p.run ts with e | ⟨left, rest⟩
  · exact (hp.of_eq hts hl).raise rfl
  refine (hp.of_eq hts hl).resume rfl fun hrest => ?_
  rcases hop : c.op? (peek last rest).terminal with _ | op
  · simp only [resume, hop]
    exact .ok hrest
  simp only [resume, hop]
  rcases hr : p.run rest.tail with e | ⟨right, rest'⟩
  · exact (hp.of_eq hrest.ends.tail hr).raise rfl
  refine (hp.of_eq hrest.ends.tail hr).resume rfl fun hrest' => ?_
  simp only [resume]
  split
  · exact .error
  · exact .build hrest'

/-! ### Flat nodes -/

theorem Junction.grip_separator (j : Junction) : j.separator.grip ≠ 0 := by
  cases j <;> decide

theorem flatLoop_done {j : Junction} {es : List Expr} {height : Nat} {top : Token} {ts : List Token}
    (h : (peek last ts).terminal ≠ j.separator) :
    flatLoop limit last j es height top ts depth stack =
      ⟨.give (Subtree.build limit (j.node es) (height + 1) top), ts, depth, stack⟩ := by
  rw [flatLoop, if_neg h]

theorem flatLoop_step {j : Junction} {es : List Expr} {height : Nat} {top t : Token}
    {ts : List Token} (h : t.terminal = j.separator) :
    flatLoop limit last j es height top (t :: ts) depth stack =
      ⟨.call j.operand, ts, depth, .flatNext j es height top :: stack⟩ := by
  simp only [flatLoop, peek_cons, h, if_true, List.tail_cons]

/-- The flat node of the operands that it has and those that are still to come. -/
def gather (limit : Nat) (j : Junction) (es : List Expr) (height : Nat) (top : Token) :
    Except ParseError (List Subtree × List Token) → Except ParseError (Subtree × List Token)
  | .error e => .error e
  | .ok (xs, rest) =>
    (Subtree.build limit (j.node (es ++ xs.map Subtree.expr))
      ((xs.map Subtree.height).foldl max height + 1) top).map (·, rest)

theorem operands_returns {j : Junction} (hp : Performs limit last depth j.operand p.run)
    {es : List Expr} {height : Nat} {top : Token} {ts : List Token} (hts : Settled last ts) :
    Returns limit last depth stack (flatLoop limit last j es height top ts depth stack)
      (gather limit j es height top (Production.operands p j.separator ts)) := by
  fun_induction Production.operands p j.separator ts generalizing es height with
  | case1 =>
    have hstop : (peek last []).terminal ≠ j.separator := hts.ne j.grip_separator
    rw [flatLoop_done hstop]
    simpa [gather] using Returns.build hts
  | case2 t ts ht e hx =>
    rw [flatLoop_step ht]
    exact (hp.of_eq hts.ends.tail hx).raise rfl
  | case3 t ts ht x rest hx _ e hxs ih =>
    rw [flatLoop_step ht]
    refine (hp.of_eq hts.ends.tail hx).resume rfl fun hrest => ?_
    have htail := @ih (es ++ [x.expr]) (max height x.height) hrest
    rw [hxs] at htail
    exact htail
  | case4 t ts ht x rest hx _ xs rest' hxs ih =>
    rw [flatLoop_step ht]
    refine (hp.of_eq hts.ends.tail hx).resume rfl fun hrest => ?_
    have htail := @ih (es ++ [x.expr]) (max height x.height) hrest
    rw [hxs] at htail
    simpa [gather, resume] using htail
  | case5 t ts ht =>
    have hstop : (peek last (t :: ts)).terminal ≠ j.separator := ht
    rw [flatLoop_done hstop]
    simpa [gather] using Returns.build hts

theorem flat_performs {j : Junction} (hp : Performs limit last depth j.operand p.run) :
    Performs limit last depth (.flat j) (Production.flat limit last j.separator j.node p).run := by
  intro ts stack hts
  refine Returns.call ?_
  simp only [Production.flat]
  rcases hx : p.run ts with e | ⟨x, rest⟩
  · exact (hp.of_eq hts hx).raise rfl
  refine (hp.of_eq hts hx).resume rfl fun hrest => ?_
  simp only [resume]
  split
  · next hsep =>
    have hloop : Returns limit last depth stack
        (flatLoop limit last j [x.expr] x.height (peek last rest) rest depth stack) _ :=
      operands_returns hp hrest
    rcases hxs : Production.operands p j.separator rest with e | ⟨_ | ⟨y, ys⟩, rest'⟩
    · simpa [hxs, gather] using hloop
    · -- Without a second operand there would have been no separator.
      have hne : (peek last rest).terminal ≠ j.separator :=
        Production.ne_sep_of_operands (fun hnil => Settled.ne (hnil ▸ hrest) j.grip_separator) hxs
      exact absurd hsep hne
    · simpa [hxs, gather] using hloop
  · next hsep =>
    rw [Production.operands_stop hsep]
    exact .ok hrest

/-! ### Behind negations and brackets -/

/-- What `p` reads is what stands behind `!` or `[`, if one of them may still be opened. -/
def Opens (limit : Nat) (last : Token) (depth : Nat) (n : Nonterminal) (p : Production) : Prop :=
  limit ≤ depth ∧ p = .refuse last .shallower ∨
    depth < limit ∧ Performs limit last (depth + 1) n p.run

theorem Opens.raise {n : Nonterminal} (h : Opens limit last depth n p) {F : Frame}
    (hF : F.leave (depth + 1) = depth) {ts : List Token} (hts : Ends last ts) {e : ParseError}
    (hr : p.run ts = .error e) :
    Returns limit last depth stack (descend limit last F n ts depth stack) (.error e) := by
  rcases h with ⟨hle, rfl⟩ | ⟨hlt, hp⟩
  · cases hr
    rw [descend, if_pos hle]
    exact .error
  · rw [descend, if_neg (Nat.not_le.2 hlt)]
    exact (hp.of_eq hts hr).raise hF

theorem Opens.resume {n : Nonterminal} (h : Opens limit last depth n p) {F : Frame}
    (hF : F.leave (depth + 1) = depth) {ts rest : List Token} (hts : Ends last ts) {x : Subtree}
    (hx : p.run ts = .ok (x, rest))
    (hr : Settled last rest →
      Returns limit last depth stack (Machine.resume limit last x rest depth stack F) r) :
    Returns limit last depth stack (descend limit last F n ts depth stack) r := by
  rcases h with ⟨-, rfl⟩ | ⟨hlt, hp⟩
  · cases hx
  · rw [descend, if_neg (Nat.not_le.2 hlt)]
    exact (hp.of_eq hts hx).resume hF hr

/-! ### Paths -/

theorem walk_done {root : String} {ss : List Segment} {height : Nat} {ts : List Token}
    (hdot : (peek last ts).terminal ≠ .dot) (hopen : (peek last ts).terminal ≠ .openIndex) :
    walk limit last root ss height ts depth stack =
      ⟨.give (.ok ⟨.path root ss, height⟩), ts, depth, stack⟩ := by
  rw [walk]
  split
  · next h => exact absurd h hdot
  · next h => exact absurd h hopen
  · rfl

theorem walk_field {root name : String} {ss : List Segment} {height : Nat} {t x : Token}
    {ts : List Token} (ht : t.terminal = .dot) (hx : x.terminal = .word name)
    (hts : (peek last ts).terminal ≠ .openCall) :
    walk limit last root ss height (t :: x :: ts) depth stack =
      ⟨.walk root (ss ++ [.field name]) height, ts, depth, stack⟩ := by
  simp only [walk, peek_cons, ht, List.tail_cons, hx, hts, if_false]

theorem walk_call {root name : String} {ss : List Segment} {height : Nat} {t x o : Token}
    {ts : List Token} (ht : t.terminal = .dot) (hx : x.terminal = .word name)
    (ho : o.terminal = .openCall) (hts : (peek last ts).terminal = .closeCall) :
    walk limit last root ss height (t :: x :: o :: ts) depth stack =
      ⟨.walk root (ss ++ [.call name]) height, ts.tail, depth, stack⟩ := by
  simp only [walk, peek_cons, ht, List.tail_cons, hx, ho, hts, if_true]

theorem walk_call_error {root name : String} {ss : List Segment} {height : Nat} {t x o : Token}
    {ts : List Token} (ht : t.terminal = .dot) (hx : x.terminal = .word name)
    (ho : o.terminal = .openCall) (hts : (peek last ts).terminal ≠ .closeCall) :
    walk limit last root ss height (t :: x :: o :: ts) depth stack =
      ⟨.give (.error ⟨peek last ts, .closeCall⟩), ts, depth, stack⟩ := by
  simp only [walk, peek_cons, ht, List.tail_cons, hx, ho, hts, if_true, if_false]

theorem walk_member_error {root : String} {ss : List Segment} {height : Nat} {t : Token}
    {ts : List Token} (ht : t.terminal = .dot)
    (hts : ∀ name, (peek last ts).terminal ≠ .word name) :
    walk limit last root ss height (t :: ts) depth stack =
      ⟨.give (.error ⟨peek last ts, .member⟩), ts, depth, stack⟩ := by
  simp only [walk, peek_cons, ht, List.tail_cons]

theorem walk_index {root : String} {ss : List Segment} {height : Nat} {t : Token} {ts : List Token}
    (ht : t.terminal = .openIndex) :
    walk limit last root ss height (t :: ts) depth stack =
      descend limit last (.indexing root ss height t) (.flat .disjunction) ts depth stack := by
  simp only [walk, peek_cons, ht, List.tail_cons]

theorem walk_returns {q : Production} (hq : Opens limit last depth (.flat .disjunction) q)
    {root : String} {ss : List Segment} {height : Nat} {ts : List Token} (hts : Settled last ts) :
    Returns limit last depth stack ⟨.walk root ss height, ts, depth, stack⟩
      (onPath root ss height (Production.segments limit last q ts)) := by
  refine Returns.walk ?_
  fun_induction Production.segments limit last q ts generalizing ss height with
  | case1 =>
    have hdot : (peek last []).terminal ≠ .dot := hts.ne (by decide)
    have hopen : (peek last []).terminal ≠ .openIndex := hts.ne (by decide)
    rw [walk_done hdot hopen]
    simpa [onPath] using Returns.ok hts
  | case2 t ht x i j ts hc e hs ih =>
    have hrest : Settled last ts.tail :=
      Ends.settled hts.ends.tail.tail.tail (by simp [hc, Terminal.grip])
    rw [walk_call ht rfl rfl hc]
    have hmore := @ih (ss ++ [.call x]) height hrest
    rw [hs] at hmore
    exact .walk hmore
  | case3 t ht x i j ts hc more n rest hs ih =>
    have hrest : Settled last ts.tail :=
      Ends.settled hts.ends.tail.tail.tail (by simp [hc, Terminal.grip])
    rw [walk_call ht rfl rfl hc]
    have hmore := @ih (ss ++ [.call x]) height hrest
    rw [hs] at hmore
    simpa [onPath] using Returns.walk hmore
  | case4 t ht x i j ts hc =>
    rw [walk_call_error ht rfl rfl hc]
    exact .error
  | case5 t ht x i ts hno e hs ih =>
    have hrest : Settled last ts := Ends.settled hts.ends.tail rfl
    have hcall : (peek last ts).terminal ≠ .openCall :=
      Production.peek_ne
        (fun hnil => by rw [hts.ends.tail.terminal_eq hnil]; exact Terminal.noConfusion) hno
    rw [walk_field ht rfl hcall]
    have hmore := @ih (ss ++ [.field x]) height hrest
    rw [hs] at hmore
    exact .walk hmore
  | case6 t ht x i ts hno more n rest hs ih =>
    have hrest : Settled last ts := Ends.settled hts.ends.tail rfl
    have hcall : (peek last ts).terminal ≠ .openCall :=
      Production.peek_ne
        (fun hnil => by rw [hts.ends.tail.terminal_eq hnil]; exact Terminal.noConfusion) hno
    rw [walk_field ht rfl hcall]
    have hmore := @ih (ss ++ [.field x]) height hrest
    rw [hs] at hmore
    simpa [onPath] using Returns.walk hmore
  | case7 t ts ht _ hno =>
    -- If the dot is the last token, then it is a dot that is seen behind it.
    have hword : ∀ name, (peek last ts).terminal ≠ .word name := fun name =>
      Production.peek_ne
        (fun hnil => by rw [hts.ends.terminal_eq hnil, ht]; exact Terminal.noConfusion)
        (hno name)
    rw [walk_member_error ht hword]
    exact .error
  | case8 t ts ht e hx =>
    rw [walk_index ht]
    exact hq.raise rfl hts.ends.tail hx
  | case9 t ts ht x rest hx _ hc e hb =>
    rw [walk_index ht]
    refine hq.resume rfl hts.ends.tail hx fun hrest => ?_
    simp only [resume, hb]
    rw [if_pos hc]
    exact .error
  | case10 t ts ht x rest hx _ hc y hb e hs ih =>
    rw [walk_index ht]
    refine hq.resume rfl hts.ends.tail hx fun hrest => ?_
    simp only [resume, hb]
    rw [if_pos hc]
    have hmore := @ih (ss ++ [.index y.expr]) (max height y.height)
      (hrest.ends.settled (by simp [hc, Terminal.grip]))
    rw [hs] at hmore
    exact .walk hmore
  | case11 t ts ht x rest hx _ hc y hb more n rest' hs ih =>
    rw [walk_index ht]
    refine hq.resume rfl hts.ends.tail hx fun hrest => ?_
    simp only [resume, hb]
    rw [if_pos hc]
    obtain ⟨rfl, -⟩ := Production.build_ok hb
    have hmore := @ih (ss ++ [.index x.expr]) (max height (x.height + 1))
      (hrest.ends.settled (by simp [hc, Terminal.grip]))
    rw [hs] at hmore
    simpa [onPath, Nat.max_assoc] using Returns.walk hmore
  | case12 t ts ht x rest hx _ hc =>
    rw [walk_index ht]
    refine hq.resume rfl hts.ends.tail hx fun hrest => ?_
    simp only [resume]
    rw [if_neg hc]
    exact .error
  | case13 t ts hdot hopen =>
    replace hdot : (peek last (t :: ts)).terminal ≠ .dot := hdot
    replace hopen : (peek last (t :: ts)).terminal ≠ .openIndex := hopen
    rw [walk_done hdot hopen]
    simpa [onPath] using Returns.ok hts

/-! ### All nonterminals -/

theorem primary_performs {nested q : Production}
    (hq : Opens limit last depth (.flat .disjunction) q) :
    Performs limit last depth .primary fun ts =>
      if (peek last ts).terminal = .not then .error ⟨peek last ts, .operand⟩
      else (Production.simple limit last nested q).run ts := by
  intro ts stack hts
  refine Returns.call ?_
  simp only [enter]
  split
  · next l hl =>
    have hrest : Settled last ts.tail := hts.settled (by rw [hl]; rfl)
    simp only [Production.simple, hl]
    exact .ok hrest
  · next root hroot =>
    have hrest : Settled last ts.tail := hts.settled (by rw [hroot]; rfl)
    simp only [Production.simple, hroot]
    have hpath : Returns limit last depth stack ⟨.walk root [] 1, ts.tail, depth, stack⟩ _ :=
      walk_returns hq hrest
    rcases hs : Production.segments limit last q ts.tail with e | ⟨ss, n, rest⟩
    · rw [hs] at hpath
      exact .call hpath
    · rw [hs] at hpath
      exact .call hpath
  · next hliteral hword =>
    split
    · exact .error
    · simp only [Production.simple]
      exact .error

theorem simple_performs {nested q : Production} (hn : Opens limit last depth .negation nested)
    (hq : Opens limit last depth (.flat .disjunction) q) :
    Performs limit last depth .negation (Production.simple limit last nested q).run := by
  intro ts stack hts
  refine Returns.call ?_
  simp only [enter]
  split
  · next hnot =>
    simp only [Production.simple, hnot]
    rcases hx : nested.run ts.tail with e | ⟨x, rest⟩
    · exact hn.raise rfl hts.tail hx
    · exact hn.resume rfl hts.tail hx Returns.build
  · next hnot =>
    exact (primary_performs hq).of_eq hts (if_neg hnot)

theorem Folding.performs (hp : Performs limit last depth .negation p.run) (f : Folding) :
    Performs limit last depth (.chain f) (f.production limit p).run := by
  have hproduct :
      Performs limit last depth (.chain .product) (Folding.product.production limit p).run :=
    chain_performs hp
  cases f with
  | sum => exact chain_performs hproduct
  | product => exact hproduct

theorem Comparing.performs (hp : Performs limit last depth .negation p.run) (c : Comparing) :
    Performs limit last depth (.once c) (c.production limit last p).run := by
  have hrelation : Performs limit last depth (.once .relation)
      (Comparing.relation.production limit last p).run :=
    once_performs (Folding.performs hp .sum)
  cases c with
  | equality => exact once_performs hrelation
  | relation => exact hrelation

theorem Junction.performs (hp : Performs limit last depth .negation p.run) (j : Junction) :
    Performs limit last depth (.flat j) (j.production limit last p).run := by
  have hconjunction :
      Performs limit last depth (.flat .conjunction)
        (Junction.conjunction.production limit last p).run :=
    flat_performs (Comparing.performs hp .equality)
  cases j with
  | disjunction => exact flat_performs hconjunction
  | conjunction => exact hconjunction

/-- With `depth` on the counter there is room for the rest of the limit. -/
theorem negation_performs (room : Nat) (h : depth + room = limit) :
    Performs limit last depth .negation (Production.negation limit last room).run := by
  induction room generalizing depth with
  | zero => exact simple_performs (Or.inl ⟨by omega, rfl⟩) (Or.inl ⟨by omega, rfl⟩)
  | succ room ih =>
    have hroom := @ih (depth + 1) (by omega)
    exact simple_performs (Or.inr ⟨by omega, hroom⟩)
      (Or.inr ⟨by omega, Junction.performs hroom .disjunction⟩)

theorem opens_indexed (room : Nat) (h : depth + room = limit) :
    Opens limit last depth (.flat .disjunction) (indexed limit last room) := by
  cases room with
  | zero => exact Or.inl ⟨by omega, rfl⟩
  | succ room =>
    exact Or.inr ⟨by omega, Junction.performs (negation_performs room (by omega)) .disjunction⟩

/-- Tokens on which a nonterminal can be called. A path is read behind its root. -/
def Nonterminal.Ready (last : Token) (ts : List Token) : Nonterminal → Prop
  | .path _ => Settled last ts
  | _ => Ends last ts

/-- Whatever is called comes back, with what is read there. -/
theorem Nonterminal.returns (room : Nat) (h : depth + room = limit) {n : Nonterminal}
    {ts : List Token} (hts : n.Ready last ts) :
    Returns limit last depth stack ⟨.call n, ts, depth, stack⟩ (n.read limit last room ts) := by
  have hp : Performs limit last depth .negation _ := negation_performs room h
  have hq : Opens limit last depth (.flat .disjunction) _ := opens_indexed room h
  cases n with
  | flat j => exact Junction.performs hp j stack hts
  | once c => exact Comparing.performs hp c stack hts
  | chain f => exact Folding.performs hp f stack hts
  | negation => exact hp stack hts
  | primary =>
    simp only [Nonterminal.read, negation_eq_simple]
    exact primary_performs hq stack hts
  | path root => exact .call (walk_returns hq hts)

theorem ends_lastOf (tokens : List Token) : Ends (lastOf tokens) tokens := by
  intro t ht
  rw [lastOf, Option.mem_def.1 ht, Option.getD_some]

theorem ofTokensWithin_eq (limit : Nat) (tokens : List Token) :
    Expr.ofTokensWithin limit tokens =
      match Nonterminal.read limit (lastOf tokens) limit (.flat .disjunction) tokens with
      | .error e => Except.error e
      | .ok (t, rest) => finish (lastOf tokens) rest (.ok t) := rfl

/-- The machine comes to its end with what is read of the tokens. -/
theorem start_reaches (limit : Nat) (tokens : List Token) :
    ∃ r rest, Reaches limit (lastOf tokens) (start tokens) ⟨.give r, rest, 0, []⟩ ∧
      finish (lastOf tokens) rest r = Expr.ofTokensWithin limit tokens := by
  have hstart : Returns limit (lastOf tokens) 0 [] (start tokens)
      (Nonterminal.read limit (lastOf tokens) limit (.flat .disjunction) tokens) :=
    Nonterminal.returns limit (Nat.zero_add limit) (ends_lastOf tokens)
  rw [ofTokensWithin_eq]
  rcases hr : Nonterminal.read limit (lastOf tokens) limit (.flat .disjunction) tokens with
    e | ⟨t, rest⟩
  · rw [hr] at hstart
    obtain ⟨rest, hrun⟩ := hstart
    exact ⟨.error e, rest, hrun.reaches, rfl⟩
  · rw [hr] at hstart
    exact ⟨.ok t, rest, hstart.1.reaches, rfl⟩

end Rulebook.Machine
