import Rulebook.Token

/-!
From tokens to a tree, one production for each level of precedence:

    disjunction    conjunction ( "||" conjunction )*
    conjunction    equality ( "&&" equality )*
    equality       relation ( ( "==" | "!=" ) relation )?
    relation       sum ( ( ">" | ">=" | "<" | "<=" ) sum )?
    sum            product ( ( "+" | "-" ) product )*
    product        negation ( ( "*" | "/" ) negation )*
    negation       "!" negation | literal | path
    path           word ( "." word ( "(" ")" )? | "[" disjunction "]" )*

A production is a function on the tokens ahead that never gives back more than it got; the loops end
for that reason. Only `!` and `[` lead back up the list, and the number of them that may still be
opened is the argument of the one recursion, `negation`. A tree higher than the limit is refused as
soon as its top operator has both its operands. The limit of expressions is `maxHeight`; the
productions take any.
-/

namespace Rulebook

/-- What a production was looking for. -/
inductive Expectation where
  | operator | junction | operand | member | closeCall | closeIndex | shallower
  deriving DecidableEq, Repr

/-- What was looked for, as messages show it. -/
def Expectation.text : Expectation → String
  | .operator => "an operator or end of input"
  | .junction => "'&&' or '||' between comparisons"
  | .operand => "expression"
  | .member => "field or method name"
  | .closeCall => "')' (calls take no arguments)"
  | .closeIndex => "']'"
  | .shallower => "at most 64 levels of nesting"

/-- The token at which no tree can be built, and what was looked for there. -/
structure ParseError where
  token : Token
  expected : Expectation
  deriving DecidableEq

/-- The message of a fault, with its place. -/
def ParseError.message (e : ParseError) : String :=
  "parse error at " ++ toString e.token.position ++ ": expected " ++ e.expected.text ++
    ", found " ++ e.token.terminal.text

/-- The height of the tallest tree, and the number of `!` and `[` that may be open at a time. -/
def maxHeight : Nat := 64

/-- A tree and its height. -/
structure Subtree where
  expr : Expr
  height : Nat

/-- An operator's tree, refused at the operator if it is too high. -/
def Subtree.build (limit : Nat) (e : Expr) (height : Nat) (top : Token) :
    Except ParseError Subtree :=
  if limit < height then .error ⟨top, .shallower⟩ else .ok ⟨e, height⟩

/-- The tree of an operator between two others. -/
def Subtree.join (limit : Nat) (op : BinOp) (l r : Subtree) (top : Token) :
    Except ParseError Subtree :=
  Subtree.build limit (.binary op l.expr r.expr) (max l.height r.height + 1) top

/-- The next token; past the end of the list that is the last one, again and again. -/
def peek (last : Token) (ts : List Token) : Token := ts.headD last

/-- A function that reads a tree off the tokens ahead and gives back the rest. -/
structure Production where
  run : List Token → Except ParseError (Subtree × List Token)
  shorter : ∀ {ts t rest}, run ts = .ok (t, rest) → rest.length ≤ ts.length

namespace Production

/-- The production that never succeeds. -/
def refuse (last : Token) (e : Expectation) : Production where
  run ts := .error ⟨peek last ts, e⟩
  shorter h := by cases h

/-- Go on with operators and operands after a first operand, from the left. -/
def chainFrom (limit : Nat) (operand : Production) (op? : Terminal → Option BinOp)
    (left : Subtree) : List Token → Except ParseError (Subtree × List Token)
  | [] => .ok (left, [])
  | t :: ts =>
    match op? t.terminal with
    | none => .ok (left, t :: ts)
    | some op =>
      match h : operand.run ts with
      | .error e => .error e
      | .ok (right, rest) =>
        match Subtree.join limit op left right t with
        | .error e => .error e
        | .ok node =>
          have := operand.shorter h
          chainFrom limit operand op? node rest
termination_by ts => ts.length

theorem chainFrom_shorter {limit : Nat} {operand : Production} {op? : Terminal → Option BinOp}
    {left t : Subtree} {ts rest : List Token}
    (h : chainFrom limit operand op? left ts = .ok (t, rest)) : rest.length ≤ ts.length := by
  fun_induction chainFrom limit operand op? left ts with
  | case1 => cases h; simp
  | case2 => cases h; simp
  | case3 => cases h
  | case4 => cases h
  | case5 left t' ts op _ right r hr node _ hle ih =>
    have := ih h
    simp only [List.length_cons]
    omega

/-- `operand ( op operand )*`, with the left operators below the right ones. -/
def chain (limit : Nat) (op? : Terminal → Option BinOp) (operand : Production) : Production where
  run ts :=
    match operand.run ts with
    | .error e => .error e
    | .ok (left, rest) => chainFrom limit operand op? left rest
  shorter h := by
    split at h
    · cases h
    · next hl => exact Nat.le_trans (chainFrom_shorter h) (operand.shorter hl)

/-- `operand ( op operand )?`, where a second operator is a fault. -/
def once (limit : Nat) (last : Token) (op? : Terminal → Option BinOp) (operand : Production) :
    Production where
  run ts :=
    match operand.run ts with
    | .error e => .error e
    | .ok (left, rest) =>
      match op? (peek last rest).terminal with
      | none => .ok (left, rest)
      | some op =>
        match operand.run rest.tail with
        | .error e => .error e
        | .ok (right, rest') =>
          if (op? (peek last rest').terminal).isSome then .error ⟨peek last rest', .junction⟩
          else (Subtree.join limit op left right (peek last rest)).map (·, rest')
  shorter {ts t r} h := by
    split at h
    · cases h
    next left rest hl =>
    have h₁ := operand.shorter hl
    split at h
    · cases h; exact h₁
    split at h
    · cases h
    next right rest' hr =>
    have h₂ := operand.shorter hr
    split at h
    · cases h
    · simp only [Except.map] at h
      split at h
      · cases h
      · cases h
        rw [List.length_tail] at h₂
        omega

/-- The operands after a separator, one for each. -/
def operands (operand : Production) (separator : Terminal) :
    List Token → Except ParseError (List Subtree × List Token)
  | [] => .ok ([], [])
  | t :: ts =>
    if t.terminal = separator then
      match h : operand.run ts with
      | .error e => .error e
      | .ok (x, rest) =>
        have := operand.shorter h
        match operands operand separator rest with
        | .error e => .error e
        | .ok (xs, rest') => .ok (x :: xs, rest')
    else .ok ([], t :: ts)
termination_by ts => ts.length

theorem operands_shorter {operand : Production} {separator : Terminal} {xs : List Subtree}
    {ts rest : List Token} (h : operands operand separator ts = .ok (xs, rest)) :
    rest.length ≤ ts.length := by
  fun_induction operands operand separator ts generalizing xs rest with
  | case1 => cases h; simp
  | case2 => cases h
  | case3 => cases h
  | case4 t ts _ x r hr hle xs' r' hx ih =>
    cases h
    have := ih hx
    simp only [List.length_cons]
    omega
  | case5 => cases h; simp

/-- `operand ( separator operand )*` as one flat node; a single operand stays as it is. -/
def flat (limit : Nat) (last : Token) (separator : Terminal) (node : List Expr → Expr)
    (operand : Production) : Production where
  run ts :=
    match operand.run ts with
    | .error e => .error e
    | .ok (x, rest) =>
      match operands operand separator rest with
      | .error e => .error e
      | .ok ([], _) => .ok (x, rest)
      | .ok (y :: ys, rest') =>
        let all := x :: y :: ys
        let height := (all.map Subtree.height).foldl max 0
        (Subtree.build limit (node (all.map Subtree.expr)) (height + 1) (peek last rest)).map
          (·, rest')
  shorter {ts t r} h := by
    split at h
    · cases h
    next x rest hx =>
    have h₁ := operand.shorter hx
    split at h
    · cases h
    · cases h; exact h₁
    next y ys rest' hy =>
    have h₂ := operands_shorter hy
    simp only [Except.map] at h
    split at h
    · cases h
    · cases h; omega

/-- The segments of a path, with the height of the tallest index. -/
def segments (limit : Nat) (last : Token) (index : Production) :
    List Token → Except ParseError (List Segment × Nat × List Token)
  | [] => .ok ([], 0, [])
  | t :: ts =>
    match t.terminal with
    | .dot =>
      match ts with
      | ⟨.word name, _⟩ :: ⟨.openCall, _⟩ :: rest =>
        if (peek last rest).terminal = .closeCall then
          match segments limit last index rest.tail with
          | .error e => .error e
          | .ok (ss, n, rest') => .ok (.call name :: ss, n, rest')
        else .error ⟨peek last rest, .closeCall⟩
      | ⟨.word name, _⟩ :: rest =>
        match segments limit last index rest with
        | .error e => .error e
        | .ok (ss, n, rest') => .ok (.field name :: ss, n, rest')
      | _ => .error ⟨peek last ts, .member⟩
    | .openIndex =>
      match h : index.run ts with
      | .error e => .error e
      | .ok (x, rest) =>
        have := index.shorter h
        if (peek last rest).terminal = .closeIndex then
          match Subtree.build limit x.expr (x.height + 1) t with
          | .error e => .error e
          | .ok y =>
            match segments limit last index rest.tail with
            | .error e => .error e
            | .ok (ss, n, rest') => .ok (.index x.expr :: ss, max y.height n, rest')
        else .error ⟨peek last rest, .closeIndex⟩
    | _ => .ok ([], 0, t :: ts)
termination_by ts => ts.length
decreasing_by all_goals simp_all <;> omega

theorem segments_shorter {limit : Nat} {last : Token} {index : Production} {ts rest : List Token}
    {ss : List Segment} {n : Nat} (h : segments limit last index ts = .ok (ss, n, rest)) :
    rest.length ≤ ts.length := by
  fun_induction segments limit last index ts generalizing ss n rest <;> cases h <;> simp_all <;>
    omega

/-- `"!" negation | literal | path`, where `nested` reads what `!` is applied to and `index` what
    stands between brackets. -/
def simple (limit : Nat) (last : Token) (nested index : Production) : Production where
  run ts :=
    match (peek last ts).terminal with
    | .not =>
      match nested.run ts.tail with
      | .error e => .error e
      | .ok (x, rest) =>
        (Subtree.build limit (.not x.expr) (x.height + 1) (peek last ts)).map (·, rest)
    | .literal l => .ok (⟨.literal l, 1⟩, ts.tail)
    | .word root =>
      match segments limit last index ts.tail with
      | .error e => .error e
      | .ok (ss, n, rest) => .ok (⟨.path root ss, max 1 n⟩, rest)
    | _ => .error ⟨peek last ts, .operand⟩
  shorter {ts t r} h := by
    have ht : ts.tail.length ≤ ts.length := by simp
    split at h
    · split at h
      · cases h
      next x rest hx =>
      have hn := nested.shorter hx
      simp only [Except.map] at h
      split at h
      · cases h
      · cases h; omega
    · cases h; exact ht
    · split at h
      · cases h
      next hs =>
      have hn := segments_shorter hs
      cases h; omega
    · cases h

/-- All levels from `&&` and `||` down to the products of what `negation` reads. -/
def disjunction (limit : Nat) (last : Token) (negation : Production) : Production :=
  flat limit last .or .any <|
  flat limit last .and .all <|
  once limit last Terminal.equality? <|
  once limit last Terminal.relation? <|
  chain limit Terminal.sum? <|
  chain limit Terminal.product? negation

/-- `"!" negation | literal | path`, with at most `room` of `!` and `[` opened inside each other. -/
def negation (limit : Nat) (last : Token) : Nat → Production
  | 0 => simple limit last (refuse last .shallower) (refuse last .shallower)
  | room + 1 =>
    simple limit last (negation limit last room) (disjunction limit last (negation limit last room))

end Production

/-- The tree that a list of tokens spells, up to its end, if it is no higher than the limit. -/
def Expr.ofTokensWithin (limit : Nat) (tokens : List Token) : Except ParseError Expr :=
  let last := tokens.getLast?.getD ⟨.ending, 0⟩
  match (Production.disjunction limit last (Production.negation limit last limit)).run tokens with
  | .error e => .error e
  | .ok (t, rest) =>
    if (peek last rest).terminal = .ending then .ok t.expr
    else .error ⟨peek last rest, .operator⟩

/-- The tree of an expression's tokens. -/
def Expr.ofTokens (tokens : List Token) : Except ParseError Expr :=
  Expr.ofTokensWithin maxHeight tokens

end Rulebook
