import Rulebook.Proofs.Evaluation

/-!
Arithmetic on integers. An operation is done on sixty-four bits, but its result is the exact one or
none at all, and so is that of a whole tree of `+`, `-`, `*` and `/`, whatever stands at its leaves.
Operations are done in the order of a walk that comes to the operands first, the left one before the
right one, and the first that cannot be done is the failure of the tree:

    (low / -1) * (1 / 0)

    1    low / -1       9223372036854775808 does not fit       the failure
    2    1 / 0          a divisor that is zero                 not looked at
    3    the product                                           not looked at

The other side of the comparison is a tree that has integers for leaves and is computed without
bounds.
-/

namespace Rulebook

variable {c : Context} {e : Expr} {op : Arith} {m n : Int64} {cause : EvalError}

/-- Arithmetic on integers, laid out as a tree. -/
inductive Reckoning where
  | leaf (n : Int64)
  | node (op : Arith) (left right : Reckoning)

namespace Reckoning

variable {l r s t : Reckoning} {ops : List Reckoning}

/-! ### Without bounds -/

/-- The value over integers without bounds; a quotient is cut off toward zero. -/
def exact : Reckoning → Int
  | leaf n => n.toInt
  | node .add l r => l.exact + r.exact
  | node .sub l r => l.exact - r.exact
  | node .mul l r => l.exact * r.exact
  | node .div l r => l.exact.tdiv r.exact

/-- The operations in the order in which they are done, each with its operands below it. -/
def operations : Reckoning → List Reckoning
  | leaf _ => []
  | node op l r => l.operations ++ r.operations ++ [node op l r]

/-- The operation at the top is a division by zero. -/
def DividesByZero : Reckoning → Prop
  | node .div _ r => r.exact = 0
  | _ => False

/-- The operation at the top can be done: its divisor, if it has one, is not zero, and
    its result fits. -/
def Sound (t : Reckoning) : Prop := ¬ t.DividesByZero ∧ Fits t.exact

/-- Why the operation at the top cannot be done. -/
inductive Offends : Reckoning → EvalError → Prop
  | zero {l r : Reckoning} : r.exact = 0 → Offends (node .div l r) .divisionByZero
  | range {op : Arith} {l r : Reckoning} : ¬ Fits (node op l r).exact →
    Offends (node op l r) (.overflow op)

/-- The first operation that cannot be done has this cause. -/
def FailsFirst (ops : List Reckoning) (cause : EvalError) : Prop :=
  ∃ before s after, ops = before ++ s :: after ∧ (∀ p ∈ before, p.Sound) ∧ s.Offends cause

theorem exact_node : (node op l r).exact = op.onInt l.exact r.exact := by
  cases op <;> rfl

theorem dividesByZero_node : (node op l r).DividesByZero ↔ op = .div ∧ r.exact = 0 := by
  cases op <;> simp [DividesByZero]

theorem Offends.not_sound (h : s.Offends cause) : ¬ s.Sound := by
  cases h with
  | zero hzero => exact fun hs => hs.1 hzero
  | range hrange => exact fun hs => hrange hs.2

theorem FailsFirst.not_sound (h : FailsFirst ops cause) : ¬ ∀ s ∈ ops, s.Sound := by
  obtain ⟨before, s, after, rfl, -, hs⟩ := h
  exact fun hall => hs.not_sound (hall s (by simp))

theorem FailsFirst.append (h : FailsFirst ops cause) (more : List Reckoning) :
    FailsFirst (ops ++ more) cause := by
  obtain ⟨before, s, after, rfl, hbefore, hs⟩ := h
  exact ⟨before, s, after ++ more, by simp, hbefore, hs⟩

theorem FailsFirst.prepend {front : List Reckoning} (hfront : ∀ s ∈ front, s.Sound)
    (h : FailsFirst ops cause) : FailsFirst (front ++ ops) cause := by
  obtain ⟨before, s, after, rfl, hbefore, hs⟩ := h
  refine ⟨front ++ before, s, after, by simp, ?_, hs⟩
  intro p hp
  rcases List.mem_append.1 hp with hp | hp
  · exact hfront p hp
  · exact hbefore p hp

/-! ### One operation -/

/-- On operands that are exact an operation is done exactly, or fails as it has to. -/
theorem apply_node (op : Arith) (hm : m.toInt = l.exact) (hn : n.toInt = r.exact) :
    (node op l r).Sound ∧
    (∃ k, op.apply (.int m) (.int n) = .ok (.int k) ∧ k.toInt = (node op l r).exact) ∨
      ∃ cause, (node op l r).Offends cause ∧ op.apply (.int m) (.int n) = .error cause := by
  have hzero : n = 0 ↔ r.exact = 0 := by
    rw [← hn, ← Int64.toInt_zero, Int64.toInt_inj]
  rw [Arith.apply]
  by_cases hdiv : op = .div ∧ n = 0
  · obtain ⟨rfl, hn0⟩ := hdiv
    exact .inr ⟨_, .zero (hzero.1 hn0), if_pos ⟨rfl, hn0⟩⟩
  rw [if_neg hdiv, hm, hn, ← exact_node]
  cases hfit : fit? (node op l r).exact with
  | some k =>
    have hk : k.toInt = (node op l r).exact := fit?_eq_some_iff.1 hfit
    have hdivisor : ¬ (node op l r).DividesByZero := by
      rw [dividesByZero_node, ← hzero]
      exact hdiv
    exact .inl ⟨⟨hdivisor, hk ▸ fits_toInt k⟩, k, rfl, hk⟩
  | none => exact .inr ⟨_, .range (fit?_eq_none_iff.1 hfit), rfl⟩

end Reckoning

/-! ### Trees -/

open Reckoning

/-- A tree of arithmetic over leaves that are integers in a context, and what is reckoned there. A
    leaf is any tree at all. -/
inductive Expr.Reckons (c : Context) : Expr → Reckoning → Prop
  | leaf {e : Expr} {n : Int64} : e.eval c = .ok (.int n) → Reckons c e (.leaf n)
  | node {op : Arith} {l r : Expr} {a b : Reckoning} :
      Reckons c l a → Reckons c r b → Reckons c (.binary (.arith op) l r) (.node op a b)

namespace Expr

variable {t : Reckoning}

/-- Either every operation can be done and the tree has its exact value, or the tree fails as the
    first operation that cannot be done. -/
theorem Reckons.settles (h : e.Reckons c t) :
    (∀ s ∈ t.operations, s.Sound) ∧ (∃ n, e.eval c = .ok (.int n) ∧ n.toInt = t.exact) ∨
      ∃ cause, FailsFirst t.operations cause ∧ e.eval c = .error cause := by
  induction h with
  | @leaf e n h => exact .inl ⟨by simp [operations], n, h, rfl⟩
  | @node op l r a b hl hr ihl ihr =>
    rw [eval_binary, operations]
    rcases ihl with ⟨hsl, m, hm, hma⟩ | ⟨cause, hfirst, hl⟩
    case inr =>
      rw [hl, error_bind]
      exact .inr ⟨cause, (hfirst.append _).append _, rfl⟩
    rw [hm, ok_bind]
    rcases ihr with ⟨hsr, n, hn, hnb⟩ | ⟨cause, hfirst, hr⟩
    case inr =>
      rw [hr, error_bind]
      exact .inr ⟨cause, (hfirst.prepend hsl).append _, rfl⟩
    rw [hn, ok_bind, BinOp.apply]
    have hoperands : ∀ s ∈ a.operations ++ b.operations, s.Sound :=
      List.forall_mem_append.2 ⟨hsl, hsr⟩
    rcases apply_node op hma hnb with ⟨hs, k, hk, hexact⟩ | ⟨cause, hoffends, hcause⟩
    · refine .inl ⟨List.forall_mem_append.2 ⟨hoperands, ?_⟩, k, hk, hexact⟩
      exact List.forall_mem_singleton.2 hs
    · have htop : FailsFirst [Reckoning.node op a b] cause :=
        ⟨[], _, [], rfl, fun _ h => absurd h List.not_mem_nil, hoffends⟩
      exact .inr ⟨cause, htop.prepend hoperands, hcause⟩

/-- EXACT OR REFUSED: arithmetic over leaves that are integers comes to an integer if and only if no
    divisor is zero and every result on the way fits, and then to the exact one. Otherwise the first
    operation that cannot be done is the failure: a division by zero, or an overflow in its name. -/
theorem eval_reckoning (h : e.Reckons c t) :
    ((∃ n, e.eval c = .ok (.int n)) ↔
      ∀ s ∈ t.operations, ¬ s.DividesByZero ∧ Fits s.exact) ∧
    (∀ n, e.eval c = .ok (.int n) → n.toInt = t.exact) ∧
    ((¬ ∀ s ∈ t.operations, ¬ s.DividesByZero ∧ Fits s.exact) →
      ∃ before s after cause, t.operations = before ++ s :: after ∧
        (∀ p ∈ before, ¬ p.DividesByZero ∧ Fits p.exact) ∧ s.Offends cause ∧
        e.eval c = .error cause) := by
  rcases h.settles with ⟨hsound, n, hn, hexact⟩ | ⟨cause, hfirst, hcause⟩
  · refine ⟨⟨fun _ => hsound, fun _ => ⟨n, hn⟩⟩, ?_, fun hnot => absurd hsound hnot⟩
    intro k hk
    rw [hn] at hk
    cases hk
    exact hexact
  · have hnone : ∀ n, e.eval c ≠ .ok (.int n) := by
      intro n hn
      rw [hcause] at hn
      cases hn
    refine ⟨⟨fun ⟨n, hn⟩ => absurd hn (hnone n),
      fun hsound => absurd hsound hfirst.not_sound⟩, fun n hn => absurd hn (hnone n),
      fun _ => ?_⟩
    obtain ⟨before, s, after, hops, hbefore, hoffends⟩ := hfirst
    exact ⟨before, s, after, cause, hops, hbefore, hoffends, hcause⟩

/-- The tree drawn above, which overflows before it divides by zero, and a quotient of the least
    integer and seven more that is cut off toward zero. -/
theorem eval_reckoning_least :
    let low : Int64 := -9223372036854775808
    let c : Context := ⟨[("low", .int low)]⟩
    let quotient (l r : Expr) : Expr := .binary (.arith .div) l r
    let e : Expr := .binary (.arith .mul) (quotient (.path "low" []) (.literal (.int (-1))))
      (quotient (.literal (.int 1)) (.literal (.int 0)))
    let t : Reckoning :=
      .node .mul (.node .div (.leaf low) (.leaf (-1))) (.node .div (.leaf 1) (.leaf 0))
    let f :=
      quotient (.binary (.arith .add) (.path "low" []) (.literal (.int 7))) (.literal (.int (-2)))
    let u : Reckoning := .node .div (.node .add (.leaf low) (.leaf 7)) (.leaf (-2))
    e.Reckons c t ∧ e.eval c = .error (.overflow .div) ∧
      f.Reckons c u ∧ f.eval c = .ok (.int 4611686018427387900) := by
  intro low c quotient e t f u
  have he : e.Reckons c t := .node (.node (.leaf rfl) (.leaf rfl)) (.node (.leaf rfl) (.leaf rfl))
  have hf : f.Reckons c u := .node (.node (.leaf rfl) (.leaf rfl)) (.leaf rfl)
  refine ⟨he, ?_, hf, ?_⟩
  · have hrange : ¬ Fits (Reckoning.node .div (.leaf low) (.leaf (-1))).exact := by decide
    have hfails : ¬ ∀ s ∈ t.operations, ¬ s.DividesByZero ∧ Fits s.exact := by
      intro hall
      exact hrange (hall (.node .div (.leaf low) (.leaf (-1))) (by simp [t, operations])).2
    obtain ⟨before, s, after, cause, hops, hbefore, hoffends, heval⟩ :=
      (eval_reckoning he).2.2 hfails
    -- nothing comes before the quotient that overflows
    cases before with
    | nil =>
      obtain ⟨rfl, -⟩ := List.cons.inj hops
      cases hoffends with
      | zero hzero => exact absurd hzero (by decide)
      | range => exact heval
    | cons p before =>
      obtain ⟨rfl, -⟩ := List.cons.inj hops
      exact absurd (hbefore _ List.mem_cons_self).2 hrange
  · have hsound : ∀ s ∈ u.operations, ¬ s.DividesByZero ∧ Fits s.exact := by
      simp only [u, operations, List.nil_append, List.cons_append, List.forall_mem_cons,
        dividesByZero_node]
      exact ⟨by decide, by decide, List.forall_mem_nil _⟩
    obtain ⟨n, hn⟩ := (eval_reckoning hf).1.2 hsound
    have hexact : n.toInt = (4611686018427387900 : Int64).toInt := (eval_reckoning hf).2.1 n hn
    rw [hn, Int64.toInt_inj.1 hexact]

end Expr

end Rulebook
