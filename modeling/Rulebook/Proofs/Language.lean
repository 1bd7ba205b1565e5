import Rulebook.Expr.Grammar

/-!
The language of expressions, without regard to how it is read: which terminals in a row spell which
tree. There is one operator on languages for each shape of rule,

    Chain op? L         L ( op L )*        the left operator below the right one
    Once op? L          L ( op L )?
    Flat sep node L     L ( sep L )*       two or more operands as one node
    Segments L          ( "." word ( "(" ")" )? | "[" L "]" )*

and the levels of precedence are these operators one inside the other. There are no parentheses for
grouping, so that `Negation`, the tightest level, leads back to the loosest one only between
brackets.
-/

namespace Rulebook

/-- Rows of terminals with the trees that they spell. -/
abbrev Language := List Terminal → Expr → Prop

namespace Language

/-- `L ( op L )*`, associated to the left. -/
inductive Chain (op? : Terminal → Option BinOp) (L : Language) : Language
  | one {w e} : L w e → Chain op? L w e
  | more {v w t op l r} : Chain op? L v l → op? t = some op → L w r →
      Chain op? L (v ++ t :: w) (.binary op l r)

/-- `L ( op L )?`. -/
inductive Once (op? : Terminal → Option BinOp) (L : Language) : Language
  | one {w e} : L w e → Once op? L w e
  | two {v w t op l r} : L v l → op? t = some op → L w r →
      Once op? L (v ++ t :: w) (.binary op l r)

/-- `L ( sep L )*` with the trees in a row. -/
inductive Separated (sep : Terminal) (L : Language) : List Terminal → List Expr → Prop
  | one {w e} : L w e → Separated sep L w [e]
  | more {v w e es} : L v e → Separated sep L w es → Separated sep L (v ++ sep :: w) (e :: es)

/-- `L ( sep L )*`, where two operands or more make one node. -/
inductive Flat (sep : Terminal) (node : List Expr → Expr) (L : Language) : Language
  | one {w e} : L w e → Flat sep node L w e
  | many {w es} : Separated sep L w es → 2 ≤ es.length → Flat sep node L w (node es)

/-- The segments of a path, where `L` stands between brackets. -/
inductive Segments (L : Language) : List Terminal → List Segment → Prop
  | nil : Segments L [] []
  | field {x w ss} : Segments L w ss → Segments L (.dot :: .word x :: w) (.field x :: ss)
  | call {x w ss} : Segments L w ss →
      Segments L (.dot :: .word x :: .openCall :: .closeCall :: w) (.call x :: ss)
  | index {v w e ss} : L v e → Segments L w ss →
      Segments L (.openIndex :: (v ++ .closeIndex :: w)) (.index e :: ss)

/-- `"!" negation | literal | word segments`, where any expression stands between brackets. -/
inductive Negation : Language
  | not {w e} : Negation w e → Negation (.not :: w) (.not e)
  | literal {l} : Negation [.literal l] (.literal l)
  | path {x w ss} :
      Segments (Flat .or .any <| Flat .and .all <| Once Terminal.equality? <|
        Once Terminal.relation? <| Chain Terminal.sum? <| Chain Terminal.product? Negation) w ss →
      Negation (.word x :: w) (.path x ss)

/-- The levels above `N`: products, sums, one relation, one equality, `&&` and at last `||`. -/
def Levels (N : Language) : Language :=
  Flat .or .any <| Flat .and .all <| Once Terminal.equality? <|
    Once Terminal.relation? <| Chain Terminal.sum? <| Chain Terminal.product? N

/-- The whole language: an expression is read from `||` down. -/
def Disjunction : Language := Levels Negation

/-- What has no operator is on every level all the same. -/
theorem Negation.relation {w : List Terminal} {e : Expr} (h : Negation w e) :
    (Once Terminal.relation? <| Chain Terminal.sum? <| Chain Terminal.product? Negation) w e :=
  .one (.one (.one h))

theorem Negation.equality {w : List Terminal} {e : Expr} (h : Negation w e) :
    (Once Terminal.equality? <| Once Terminal.relation? <| Chain Terminal.sum? <|
      Chain Terminal.product? Negation) w e :=
  .one h.relation

theorem Negation.disjunction {w : List Terminal} {e : Expr} (h : Negation w e) : Disjunction w e :=
  Flat.one (Flat.one h.equality)

/-- A language that is closed under the rules of `Negation`. -/
structure Closed (M : Language) : Prop where
  not : ∀ {w e}, M w e → M (.not :: w) (.not e)
  literal : ∀ {l}, M [.literal l] (.literal l)
  path : ∀ {x w ss}, Segments (Levels M) w ss → M (.word x :: w) (.path x ss)

theorem closed_negation : Closed Negation := ⟨.not, .literal, .path⟩

end Language

/-! ### The row of a tree -/

/-- The terminal that stands for an operator. -/
def BinOp.terminal : BinOp → Terminal
  | .compare .eq => .eq
  | .compare .ne => .ne
  | .compare .gt => .gt
  | .compare .ge => .ge
  | .compare .lt => .lt
  | .compare .le => .le
  | .arith .add => .plus
  | .arith .sub => .minus
  | .arith .mul => .star
  | .arith .div => .slash

mutual

/-- The terminals of a tree in order, without any grouping. -/
def Expr.terminals : Expr → List Terminal
  | .literal l => [.literal l]
  | .path root ss => .word root :: Segment.terminals ss
  | .binary op l r => l.terminals ++ op.terminal :: r.terminals
  | .not e => .not :: e.terminals
  | .all es => Expr.joined .and es
  | .any es => Expr.joined .or es

/-- The terminals of some trees with a separator between them. -/
def Expr.joined (sep : Terminal) : List Expr → List Terminal
  | [] => []
  | [e] => e.terminals
  | e :: f :: es => e.terminals ++ sep :: Expr.joined sep (f :: es)

/-- The terminals of the segments of a path. -/
def Segment.terminals : List Segment → List Terminal
  | [] => []
  | .field x :: ss => .dot :: .word x :: Segment.terminals ss
  | .call x :: ss => .dot :: .word x :: .openCall :: .closeCall :: Segment.terminals ss
  | .index e :: ss => .openIndex :: (e.terminals ++ .closeIndex :: Segment.terminals ss)

end

mutual

/-- The end of the text is in no row. -/
theorem Expr.ending_not_mem : ∀ e : Expr, .ending ∉ e.terminals
  | .literal _ => by simp [Expr.terminals]
  | .path _ ss => by simp [Expr.terminals, Segment.ending_not_mem ss]
  | .binary op l r => by
    have hop : .ending ≠ op.terminal := by
      rcases op with (_ | _ | _ | _ | _ | _) | (_ | _ | _ | _) <;> simp [BinOp.terminal]
    simp [Expr.terminals, Expr.ending_not_mem l, Expr.ending_not_mem r, hop]
  | .not e => by simp [Expr.terminals, Expr.ending_not_mem e]
  | .all es => by
    rw [Expr.terminals]
    exact Expr.ending_not_mem_joined (by decide) es
  | .any es => by
    rw [Expr.terminals]
    exact Expr.ending_not_mem_joined (by decide) es

theorem Expr.ending_not_mem_joined {sep : Terminal} (hs : .ending ≠ sep) :
    ∀ es : List Expr, .ending ∉ Expr.joined sep es
  | [] => by simp [Expr.joined]
  | [e] => by simp [Expr.joined, Expr.ending_not_mem e]
  | e :: f :: es => by
    simp [Expr.joined, Expr.ending_not_mem e, hs, Expr.ending_not_mem_joined hs (f :: es)]

theorem Segment.ending_not_mem : ∀ ss : List Segment, .ending ∉ Segment.terminals ss
  | [] => by simp [Segment.terminals]
  | .field _ :: ss => by simp [Segment.terminals, Segment.ending_not_mem ss]
  | .call _ :: ss => by simp [Segment.terminals, Segment.ending_not_mem ss]
  | .index e :: ss => by
    simp [Segment.terminals, Expr.ending_not_mem e, Segment.ending_not_mem ss]

end

/-! ### The language spells trees in order -/

namespace Language

variable {L : Language} {op? : Terminal → Option BinOp}

/-- A language in which a tree is spelled by its own row only. -/
def InOrder (L : Language) : Prop := ∀ ⦃w e⦄, L w e → w = e.terminals

theorem InOrder.chain (hL : InOrder L) (hop : ∀ {t op}, op? t = some op → t = op.terminal) :
    InOrder (Chain op? L) := by
  intro w e h
  induction h with
  | one h => exact hL h
  | more _ ht hr ih => rw [ih, hL hr, hop ht, Expr.terminals]

theorem InOrder.once (hL : InOrder L) (hop : ∀ {t op}, op? t = some op → t = op.terminal) :
    InOrder (Once op? L) := by
  intro w e h
  cases h with
  | one h => exact hL h
  | two hl ht hr => rw [hL hl, hL hr, hop ht, Expr.terminals]

theorem InOrder.separated (hL : InOrder L) {sep : Terminal} {w : List Terminal} {es : List Expr}
    (h : Separated sep L w es) : w = Expr.joined sep es := by
  induction h with
  | one h => rw [hL h, Expr.joined]
  | @more v w e es h hs ih =>
    cases es with
    | nil => cases hs
    | cons f es => rw [hL h, ih, Expr.joined]

theorem InOrder.flat (hL : InOrder L) {sep : Terminal} {node : List Expr → Expr}
    (hnode : ∀ es, (node es).terminals = Expr.joined sep es) : InOrder (Flat sep node L) := by
  intro w e h
  cases h with
  | one h => exact hL h
  | many h => rw [hL.separated h, hnode]

theorem InOrder.segments (hL : InOrder L) {w : List Terminal} {ss : List Segment}
    (h : Segments L w ss) : w = Segment.terminals ss := by
  induction h with
  | nil => rw [Segment.terminals]
  | field _ ih => rw [ih, Segment.terminals]
  | call _ ih => rw [ih, Segment.terminals]
  | index h _ ih => rw [ih, hL h, Segment.terminals]

theorem terminal_of_product {t : Terminal} {op : BinOp} (h : t.product? = some op) :
    t = op.terminal := by
  cases t <;> cases h <;> rfl

theorem terminal_of_sum {t : Terminal} {op : BinOp} (h : t.sum? = some op) : t = op.terminal := by
  cases t <;> cases h <;> rfl

theorem terminal_of_relation {t : Terminal} {op : BinOp} (h : t.relation? = some op) :
    t = op.terminal := by
  cases t <;> cases h <;> rfl

theorem terminal_of_equality {t : Terminal} {op : BinOp} (h : t.equality? = some op) :
    t = op.terminal := by
  cases t <;> cases h <;> rfl

theorem InOrder.levels (hL : InOrder L) : InOrder (Levels L) :=
  InOrder.flat (InOrder.flat (InOrder.once (InOrder.once (InOrder.chain (InOrder.chain hL
    terminal_of_product) terminal_of_sum) terminal_of_relation) terminal_of_equality)
    fun es => by rw [Expr.terminals]) fun es => by rw [Expr.terminals]

/-- A comparison of two operands without operators, whichever of the two levels it is on. -/
theorem Negation.compare (c : Comparison) {v w : List Terminal} {l r : Expr} (hl : Negation v l)
    (hr : Negation w r) :
    Disjunction (v ++ (BinOp.compare c).terminal :: w) (.binary (.compare c) l r) := by
  cases c with
  | eq | ne => exact Flat.one (Flat.one (Once.two hl.relation rfl hr.relation))
  | gt | ge | lt | le =>
    exact Flat.one (Flat.one (Once.one
      (Once.two (Chain.one (Chain.one hl)) rfl (Chain.one (Chain.one hr)))))

/-- The rows of all trees are a closed language. -/
theorem closed_terminals : Closed fun w e => w = e.terminals where
  not h := by rw [h, Expr.terminals]
  literal := by simp [Expr.terminals]
  path h := by rw [InOrder.segments (InOrder.levels fun _ _ h => h) h, Expr.terminals]

end Language

end Rulebook
