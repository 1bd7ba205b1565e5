import Rulebook.Proofs.Evaluation

/-!
Contexts that are added to. A context extends another one if it has every name of that one with the
same value, and it may have more names:

    a = 1                    a + b      unbound variable b
    a = 1, b = 2             a + b      3
    a = 1, b = 2             a + c      unbound variable c

A result is settled unless it is that of a name which is missing in the one context and bound in the
other. Which names a tree mentions is not the matter, since `a || b` is settled where `a` is true,
whether there is a `b` or not. So the proof goes along the evaluation: two evaluations in step give
one result up to the first name that only the second one finds, and there the first one ends.
-/

namespace Rulebook

variable {α β : Type} {c d : Context}

/-- Every name of `c` has the same value in `d`. -/
def Context.Extends (d c : Context) : Prop := ∀ k v, c.lookup k = some v → d.lookup k = some v

/-- One result, or the failure to find in `c` a name that there is in `d`. -/
def SettledBetween (c d : Context) (r s : Except EvalError α) : Prop :=
  r = s ∨ ∃ k, r = .error (.unboundVariable k) ∧ c.lookup k = none ∧
    (d.lookup k).isSome = true

namespace SettledBetween

variable {r s : Except EvalError α} {f g : α → Except EvalError β}

theorem refl (r : Except EvalError α) : SettledBetween c d r r := .inl rfl

/-- A step that is settled, and steps behind it that are. -/
theorem bind (h : SettledBetween c d r s) (hf : ∀ a, SettledBetween c d (f a) (g a)) :
    SettledBetween c d (r >>= f) (s >>= g) := by
  rcases h with rfl | ⟨k, rfl, hmissing, hbound⟩
  · cases r with
    | error cause => exact refl _
    | ok a => exact hf a
  · exact .inr ⟨k, rfl, hmissing, hbound⟩

theorem map (h : SettledBetween c d r s) (f : α → β) :
    SettledBetween c d (r.map f) (s.map f) := by
  rcases h with rfl | ⟨k, rfl, hmissing, hbound⟩
  · exact refl _
  · exact .inr ⟨k, rfl, hmissing, hbound⟩

end SettledBetween

mutual

/-- Evaluation is settled between a context and one that extends it. -/
theorem Expr.eval_settled (h : d.Extends c) : ∀ e : Expr, SettledBetween c d (e.eval c) (e.eval d)
  | .literal l => by
    rw [Expr.eval, Expr.eval]
    exact .refl _
  | .path root ss => by
    rw [Expr.eval, Expr.eval]
    cases hc : c.lookup root with
    | some v =>
      rw [h root v hc]
      exact Segment.walk_settled h ss v
    | none =>
      cases hd : d.lookup root with
      | none => exact .refl _
      | some v => exact .inr ⟨root, rfl, hc, by rw [hd]; rfl⟩
  | .binary op l r => by
    rw [Expr.eval_binary, Expr.eval_binary]
    exact (l.eval_settled h).bind fun a => (r.eval_settled h).bind fun b => .refl _
  | .not e => by
    rw [Expr.eval_not, Expr.eval_not]
    exact ((e.eval_settled h).bind fun v => .refl _).map _
  | .all es => by
    rw [Expr.eval, Expr.eval]
    exact (Expr.settle_settled h "&&" false es).map _
  | .any es => by
    rw [Expr.eval, Expr.eval]
    exact (Expr.settle_settled h "||" true es).map _

theorem Expr.settle_settled (h : d.Extends c) (operator : String) (stop : Bool) :
    ∀ es : List Expr,
      SettledBetween c d (Expr.settle c operator stop es) (Expr.settle d operator stop es)
  | [] => by
    rw [Expr.settle, Expr.settle]
    exact .refl _
  | e :: es => by
    rw [Expr.settle_cons, Expr.settle_cons]
    refine ((e.eval_settled h).bind fun v => .refl _).bind fun b => ?_
    split
    · exact .refl _
    · exact Expr.settle_settled h operator stop es

theorem Segment.walk_settled (h : d.Extends c) : ∀ (ss : List Segment) (v : Value),
    SettledBetween c d (Segment.walk c ss v) (Segment.walk d ss v)
  | [], v => by
    rw [Segment.walk, Segment.walk]
    exact .refl _
  | s :: ss, v => by
    rw [Segment.walk_cons, Segment.walk_cons]
    exact (s.step_settled h v).bind fun w => Segment.walk_settled h ss w

theorem Segment.step_settled (h : d.Extends c) : ∀ (s : Segment) (v : Value),
    SettledBetween c d (s.step c v) (s.step d v)
  | .field _, v => by
    rw [Segment.step, Segment.step]
    exact .refl _
  | .call _, v => by
    rw [Segment.step, Segment.step]
    exact .refl _
  | .index e, v => by
    cases v with
    | list items =>
      rw [Segment.step_index, Segment.step_index]
      exact (e.eval_settled h).bind fun i => .refl _
    | _ => exact .refl _

end

/-- ADDED DATA: a tree that has a value in a context has the same one in every context that extends
    it, and a failure stays the same failure, unless it is about a name that the extension binds. So
    where the results differ, the first one is that of such a name. -/
theorem Expr.eval_extended (h : d.Extends c) (e : Expr) :
    (∀ v, e.eval c = .ok v → e.eval d = .ok v) ∧
    (∀ cause, e.eval c = .error cause →
      (∀ k, cause = .unboundVariable k → d.lookup k = none) →
      e.eval d = .error cause) ∧
    (e.eval c ≠ e.eval d →
      ∃ k, e.eval c = .error (.unboundVariable k) ∧ c.lookup k = none ∧
        ∃ v, d.lookup k = some v) := by
  have hsettled := e.eval_settled h
  refine ⟨?_, ?_, ?_⟩
  · intro v hv
    rcases hsettled with heq | ⟨k, hk, -, -⟩
    · rw [← heq, hv]
    · rw [hv] at hk
      cases hk
  · intro cause hcause hbound
    rcases hsettled with heq | ⟨k, hk, -, hsome⟩
    · rw [← heq, hcause]
    · have hsame : cause = .unboundVariable k := Except.error.inj (hcause.symm.trans hk)
      rw [hbound k hsame] at hsome
      cases hsome
  · intro hne
    rcases hsettled with heq | ⟨k, hk, hmissing, hsome⟩
    · exact absurd heq hne
    · exact ⟨k, hk, hmissing, Option.isSome_iff_exists.1 hsome⟩

/-- A name that is bound later: behind an operand that decides, beside one that stays
    unbound, and alone. -/
theorem Expr.eval_extended_total :
    let c : Context := ⟨[("vip", .bool true)]⟩
    let d : Context := ⟨[("total", .int 3), ("vip", .bool true)]⟩
    let total : Expr := .path "total" []
    d.Extends c ∧ (Expr.any [.path "vip" [], total]).eval d = .ok (.bool true) ∧
      (Expr.binary (.arith .add) (.path "tax" []) total).eval d =
        .error (.unboundVariable "tax") ∧
      ∃ k, total.eval c = .error (.unboundVariable k) ∧ ∃ v, d.lookup k = some v := by
  intro c d total
  have h : d.Extends c := by
    intro k v hk
    have hvip : k = "vip" ∧ Value.bool true = v := by
      simpa [c, Context.lookup, Fields.find?] using hk
    rw [hvip.1, ← hvip.2]
    rfl
  refine ⟨h, ?_, ?_, ?_⟩
  · exact (Expr.eval_extended h _).1 _ rfl
  · refine (Expr.eval_extended h _).2.1 _ rfl ?_
    rintro k ⟨⟩
    rfl
  · have hne : total.eval c ≠ total.eval d := by
      intro heq
      cases heq
    obtain ⟨k, hk, -, hbound⟩ := (Expr.eval_extended h total).2.2 hne
    exact ⟨k, hk, hbound⟩

end Rulebook
