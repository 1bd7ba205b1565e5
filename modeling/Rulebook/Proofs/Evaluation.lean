import Rulebook.Expression

/-!
Evaluation as steps in a row, each of which may fail. The step behind a failure is not taken:

    l op r         l, then r, then op
    !e             the truth value of e, then its negation
    e && es        the truth value of e, then es unless it is false
    v.name ss      the field of v, then ss
    v[e] ss        e, then the element of v, then ss

So what holds of every step, and is passed on from step to step, holds of evaluation.
-/

namespace Rulebook

variable {c : Context}

section Steps

variable {α β : Type}

@[simp] theorem ok_bind (a : α) (f : α → Except EvalError β) : (Except.ok a >>= f) = f a := rfl

@[simp] theorem error_bind (cause : EvalError) (f : α → Except EvalError β) :
    (Except.error cause >>= f) = .error cause := rfl

variable {cause : EvalError} {r : Except EvalError α}

theorem bind_eq_error {f : α → Except EvalError β} (h : r >>= f = .error cause) :
    r = .error cause ∨ ∃ a, r = .ok a ∧ f a = .error cause := by
  cases r with
  | error e =>
    rw [error_bind] at h
    cases h
    exact .inl rfl
  | ok a => exact .inr ⟨a, rfl, h⟩

theorem map_eq_error {f : α → β} (h : r.map f = .error cause) : r = .error cause := by
  cases r with
  | error e =>
    cases h
    rfl
  | ok a => cases h

end Steps

namespace Expr

/-- The truth value of a tree as the operand of an operator. -/
def truth (c : Context) (operator : String) (e : Expr) : Except EvalError Bool :=
  e.eval c >>= Value.truth operator

theorem eval_binary (op : BinOp) (l r : Expr) :
    (binary op l r).eval c = l.eval c >>= fun a => r.eval c >>= fun b => op.apply a b := by
  rw [eval]
  cases l.eval c with
  | error e => rfl
  | ok a => cases r.eval c <;> rfl

theorem eval_not (e : Expr) : (not e).eval c = (e.truth c "!").map fun b => .bool !b := by
  rw [eval, truth]
  cases e.eval c <;> rfl

theorem settle_cons (operator : String) (stop : Bool) (e : Expr) (es : List Expr) :
    settle c operator stop (e :: es) =
      e.truth c operator >>= fun b => if b = stop then .ok stop else settle c operator stop es := by
  rw [settle, truth]
  cases e.eval c with
  | error e => rfl
  | ok v =>
    rw [ok_bind]
    dsimp only
    cases v.truth operator <;> rfl

end Expr

namespace Segment

theorem walk_cons (s : Segment) (ss : List Segment) (v : Value) :
    walk c (s :: ss) v = s.step c v >>= walk c ss := by
  rw [walk]
  cases s.step c v <;> rfl

theorem step_index (e : Expr) (items : List Value) :
    (index e).step c (.list items) = e.eval c >>= Value.element items := by
  rw [step]
  cases e.eval c <;> rfl

end Segment

/-- A condition needs the truth value of its tree, as an operator does. -/
theorem Expression.test_eq (e : Expression) : e.test c = e.tree.truth c "condition" := by
  rw [test, eval, Expr.truth]
  cases e.tree.eval c <;> rfl

end Rulebook
