import Mathlib.Logic.Relation
import Rulebook.Expr.Grammar

/-!
The productions step by step. A production that waits for another one is a frame on a stack, and
beside the stack runs the counter that is held against the limit, up where `!` or `[` is gone
through and down where it is left again. On the tokens of `a[!b]`, with the frames that count:

    next                ahead    counter    frames
    call path a         [!b]     0
    call disjunction    !b]      1          [
    call negation       b]       2          [ !
    give b              ]        2          [ !
    give !b             ]        1          [
    give a[!b]                   0

A fault takes the frames off one by one, the counter included. Behind the last token the machine
sees that token again and again, so that no loop of it is sure to end by itself.
-/

namespace Rulebook.Machine

/-- The levels whose operands stand side by side in one node. -/
inductive Junction where | disjunction | conjunction
  deriving DecidableEq

/-- The levels with one operator at most. -/
inductive Comparing where | equality | relation
  deriving DecidableEq

/-- The levels whose operators are taken from the left. -/
inductive Folding where | sum | product
  deriving DecidableEq

/-- The productions. That of a path begins behind the root. -/
inductive Nonterminal where
  | flat (j : Junction)
  | once (c : Comparing)
  | chain (f : Folding)
  | negation
  | primary
  | path (root : String)
  deriving DecidableEq

/-- What stands between the operands. -/
def Junction.separator : Junction → Terminal
  | .disjunction => .or
  | .conjunction => .and

/-- The node that the operands are put into. -/
def Junction.node : Junction → List Expr → Expr
  | .disjunction => .any
  | .conjunction => .all

/-- The level below. -/
def Junction.operand : Junction → Nonterminal
  | .disjunction => .flat .conjunction
  | .conjunction => .once .equality

/-- The operators of a level. -/
def Comparing.op? : Comparing → Terminal → Option BinOp
  | .equality => Terminal.equality?
  | .relation => Terminal.relation?

/-- The level below. -/
def Comparing.operand : Comparing → Nonterminal
  | .equality => .once .relation
  | .relation => .chain .sum

/-- The operators of a level. -/
def Folding.op? : Folding → Terminal → Option BinOp
  | .sum => Terminal.sum?
  | .product => Terminal.product?

/-- The level below. -/
def Folding.operand : Folding → Nonterminal
  | .sum => .chain .product
  | .product => .negation

/-- A production that waits for the subtree of another one, with what it has read so far: for its
    first operand, for a next one, for what `!` is applied to, or for an index. -/
inductive Frame where
  | flatFirst (j : Junction)
  | flatNext (j : Junction) (operands : List Expr) (height : Nat) (top : Token)
  | onceFirst (c : Comparing)
  | onceSecond (c : Comparing) (op : BinOp) (left : Subtree) (top : Token)
  | chainFirst (f : Folding)
  | chainNext (f : Folding) (op : BinOp) (left : Subtree) (top : Token)
  | negated (top : Token)
  | indexing (root : String) (segments : List Segment) (height : Nat) (top : Token)

/-- Whether a production waits behind `!` or `[`. -/
def Frame.opens : Frame → Bool
  | .negated _ | .indexing .. => true
  | _ => false

/-- The counter when what a production waited for has come. -/
def Frame.leave : Frame → Nat → Nat
  | .negated _, depth | .indexing .., depth => depth - 1
  | _, depth => depth

/-- The number of `!` and `[` that are open inside each other. -/
def opened (stack : List Frame) : Nat := stack.countP Frame.opens

/-- What is to be done next: begin a production, go on with a path, or come back from
    a production. -/
inductive Control where
  | call (n : Nonterminal)
  | walk (root : String) (segments : List Segment) (height : Nat)
  | give (r : Except ParseError Subtree)

/-- What is to be done, the tokens ahead, the counter, and the productions that wait. -/
structure State where
  control : Control
  ahead : List Token
  depth : Nat
  stack : List Frame

section Step

variable (limit : Nat) (last : Token)

/-- Begin a production behind `!` or `[`, unless as many as allowed are open. -/
def descend (F : Frame) (n : Nonterminal) (ts : List Token) (depth : Nat)
    (stack : List Frame) : State :=
  if limit ≤ depth then ⟨.give (.error ⟨peek last ts, .shallower⟩), ts, depth, stack⟩
  else ⟨.call n, ts, depth + 1, F :: stack⟩

/-- Read one more operand of a flat node, or put the operands into it. -/
def flatLoop (j : Junction) (es : List Expr) (height : Nat) (top : Token) (ts : List Token)
    (depth : Nat) (stack : List Frame) : State :=
  if (peek last ts).terminal = j.separator then
    ⟨.call j.operand, ts.tail, depth, .flatNext j es height top :: stack⟩
  else ⟨.give (Subtree.build limit (j.node es) (height + 1) top), ts, depth, stack⟩

/-- Read one more operator and its operand, or be done with the chain. -/
def chainLoop (f : Folding) (left : Subtree) (ts : List Token) (depth : Nat)
    (stack : List Frame) : State :=
  match f.op? (peek last ts).terminal with
  | none => ⟨.give (.ok left), ts, depth, stack⟩
  | some op => ⟨.call f.operand, ts.tail, depth, .chainNext f op left (peek last ts) :: stack⟩

/-- Begin a production. -/
def enter (ts : List Token) (depth : Nat) (stack : List Frame) : Nonterminal → State
  | .flat j => ⟨.call j.operand, ts, depth, .flatFirst j :: stack⟩
  | .once c => ⟨.call c.operand, ts, depth, .onceFirst c :: stack⟩
  | .chain f => ⟨.call f.operand, ts, depth, .chainFirst f :: stack⟩
  | .negation =>
    if (peek last ts).terminal = .not then
      descend limit last (.negated (peek last ts)) .negation ts.tail depth stack
    else ⟨.call .primary, ts, depth, stack⟩
  | .primary =>
    match (peek last ts).terminal with
    | .literal l => ⟨.give (.ok ⟨.literal l, 1⟩), ts.tail, depth, stack⟩
    | .word root => ⟨.call (.path root), ts.tail, depth, stack⟩
    | _ => ⟨.give (.error ⟨peek last ts, .operand⟩), ts, depth, stack⟩
  | .path root => ⟨.walk root [] 1, ts, depth, stack⟩

/-- Read one more segment of a path, up to the index of a bracket, or be done with the path. -/
def walk (root : String) (ss : List Segment) (height : Nat) (ts : List Token) (depth : Nat)
    (stack : List Frame) : State :=
  match (peek last ts).terminal with
  | .dot =>
    match (peek last ts.tail).terminal with
    | .word name =>
      if (peek last ts.tail.tail).terminal = .openCall then
        if (peek last ts.tail.tail.tail).terminal = .closeCall then
          ⟨.walk root (ss ++ [.call name]) height, ts.tail.tail.tail.tail, depth, stack⟩
        else
          ⟨.give (.error ⟨peek last ts.tail.tail.tail, .closeCall⟩), ts.tail.tail.tail,
            depth, stack⟩
      else ⟨.walk root (ss ++ [.field name]) height, ts.tail.tail, depth, stack⟩
    | _ => ⟨.give (.error ⟨peek last ts.tail, .member⟩), ts.tail, depth, stack⟩
  | .openIndex =>
    descend limit last (.indexing root ss height (peek last ts))
      (.flat .disjunction) ts.tail depth stack
  | _ => ⟨.give (.ok ⟨.path root ss, height⟩), ts, depth, stack⟩

/-- Go on with a production that waited for a subtree. -/
def resume (x : Subtree) (ts : List Token) (depth : Nat) (stack : List Frame) : Frame → State
  | .flatFirst j =>
    if (peek last ts).terminal = j.separator then
      flatLoop limit last j [x.expr] x.height (peek last ts) ts depth stack
    else ⟨.give (.ok x), ts, depth, stack⟩
  | .flatNext j es height top =>
    flatLoop limit last j (es ++ [x.expr]) (max height x.height) top ts depth stack
  | .onceFirst c =>
    match c.op? (peek last ts).terminal with
    | none => ⟨.give (.ok x), ts, depth, stack⟩
    | some op => ⟨.call c.operand, ts.tail, depth, .onceSecond c op x (peek last ts) :: stack⟩
  | .onceSecond c op left top =>
    if (c.op? (peek last ts).terminal).isSome then
      ⟨.give (.error ⟨peek last ts, .junction⟩), ts, depth, stack⟩
    else ⟨.give (Subtree.join limit op left x top), ts, depth, stack⟩
  | .chainFirst f => chainLoop last f x ts depth stack
  | .chainNext f op left top =>
    match Subtree.join limit op left x top with
    | .error e => ⟨.give (.error e), ts, depth, stack⟩
    | .ok node => chainLoop last f node ts depth stack
  | .negated top =>
    ⟨.give (Subtree.build limit (.not x.expr) (x.height + 1) top), ts, depth, stack⟩
  | .indexing root ss height top =>
    if (peek last ts).terminal = .closeIndex then
      match Subtree.build limit x.expr (x.height + 1) top with
      | .error e => ⟨.give (.error e), ts.tail, depth, stack⟩
      | .ok y =>
        ⟨.walk root (ss ++ [.index y.expr]) (max height y.height), ts.tail, depth, stack⟩
    else ⟨.give (.error ⟨peek last ts, .closeIndex⟩), ts, depth, stack⟩

/-- One step, if the outermost production has not come back yet. -/
def step : State → Option State
  | ⟨.call n, ts, depth, stack⟩ => some (enter limit last ts depth stack n)
  | ⟨.walk root ss height, ts, depth, stack⟩ =>
    some (walk limit last root ss height ts depth stack)
  | ⟨.give _, _, _, []⟩ => none
  | ⟨.give (.error e), ts, depth, F :: stack⟩ =>
    some ⟨.give (.error e), ts, F.leave depth, stack⟩
  | ⟨.give (.ok x), ts, depth, F :: stack⟩ =>
    some (resume limit last x ts (F.leave depth) stack F)

/-- From one state to another in any number of steps. -/
def Reaches : State → State → Prop :=
  Relation.ReflTransGen fun s s' => step limit last s = some s'

/-- Whether the frames of `stack` are all in place, and nothing is given back to them yet. -/
def Within (stack : List Frame) (s : State) : Prop :=
  stack <:+ s.stack ∧ ∀ r, s.control = .give r → s.stack ≠ stack

/-- From one state to another in any number of steps, with the frames of `stack` in place all the
    way and nothing given back to them before the end. -/
def Runs (stack : List Frame) : State → State → Prop :=
  Relation.ReflTransGen fun s s' => Within stack s ∧ step limit last s = some s'

end Step

/-- The token that is seen behind all tokens. -/
def lastOf (tokens : List Token) : Token := tokens.getLast?.getD ⟨.ending, 0⟩

/-- The outermost production, with all tokens ahead and nothing open. -/
def start (tokens : List Token) : State := ⟨.call (.flat .disjunction), tokens, 0, []⟩

/-- The tree that was read, if nothing is left behind it but the end. -/
def finish (last : Token) (rest : List Token) : Except ParseError Subtree → Except ParseError Expr
  | .error e => .error e
  | .ok t =>
    if (peek last rest).terminal = .ending then .ok t.expr
    else .error ⟨peek last rest, .operator⟩

end Rulebook.Machine
