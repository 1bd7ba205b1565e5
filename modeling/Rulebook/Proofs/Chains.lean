import Rulebook.Proofs.Evaluation

/-!
Chains of `&&` and `||`. A chain is evaluated from the left, up to the first operand that decides it
or fails, and on what is behind that one nothing depends:

    true && true && FALSE && …             false
    true && 'gold' && …                    a mismatch
    true && (true && FALSE) && …           false, as without the parentheses

A negation goes to the operands. The chain of the negated operands is decided, or fails, at the same
place as the chain of the operands; only a mismatch there is put down to `!` and not to the chain.

    !(a && b)        !a || !b
    !(a || b)        !a && !b
-/

namespace Rulebook

variable {c : Context} {operator : String} {stop : Bool} {es fs gs : List Expr} {e : Expr}

/-! ### Results -/

/-- Two results are alike: one value, or failures that differ in no more than the operator to which
    a mismatch is put down. -/
inductive Alike {α : Type} : Except EvalError α → Except EvalError α → Prop
  | value (a : α) : Alike (.ok a) (.ok a)
  | failure (cause : EvalError) : Alike (.error cause) (.error cause)
  | mismatch (operator operator' : String) (expected : Expected) (found : Kind) :
      Alike (.error (.typeMismatch operator expected found))
        (.error (.typeMismatch operator' expected found))

theorem Alike.map {α β : Type} {r s : Except EvalError α} (h : Alike r s) (f : α → β) :
    Alike (r.map f) (s.map f) := by
  cases h with
  | value a => exact .value (f a)
  | failure cause => exact .failure cause
  | mismatch operator operator' expected found => exact .mismatch operator operator' expected found

namespace Expr

/-! ### Operands -/

theorem truth_eq_ok_iff {b : Bool} : e.truth c operator = .ok b ↔ e.eval c = .ok (.bool b) := by
  rw [truth]
  cases e.eval c with
  | error cause => simp
  | ok v => cases v <;> simp [Value.truth, Value.bool?]

theorem truth_all : (all fs).truth c operator = settle c "&&" false fs := by
  rw [truth, eval]
  cases settle c "&&" false fs <;> rfl

theorem truth_any : (any fs).truth c operator = settle c "||" true fs := by
  rw [truth, eval]
  cases settle c "||" true fs <;> rfl

theorem truth_not : (not e).truth c operator = (e.truth c "!").map (!·) := by
  rw [truth, eval_not]
  cases e.truth c "!" <;> rfl

/-- The operator that needs a truth value is named in a mismatch and makes no other difference. -/
theorem truth_alike (operator operator' : String) :
    Alike (e.truth c operator) (e.truth c operator') := by
  rw [truth, truth]
  cases e.eval c with
  | error cause => exact .failure cause
  | ok v =>
    cases v with
    | bool b => exact .value b
    | _ => exact .mismatch operator operator' .bool _

/-! ### Chains in a row -/

/-- Of two chains in a row, the second one counts if the first one leaves the matter open. -/
theorem settle_append (es fs : List Expr) :
    settle c operator stop (es ++ fs) = settle c operator stop es >>= fun b =>
      if b = stop then .ok stop else settle c operator stop fs := by
  induction es with
  | nil =>
    have hopen : (!stop) ≠ stop := by simp
    rw [List.nil_append, settle, ok_bind, if_neg hopen]
  | cons e es ih =>
    rw [List.cons_append, settle_cons, settle_cons, ih, bind_assoc]
    refine congrArg _ (funext fun b => ?_)
    split
    · rw [ok_bind, if_pos rfl]
    · rfl

/-- An operand that is as good as a chain can be replaced by the operands of that chain. -/
theorem settle_nested (he : e.truth c operator = settle c operator stop fs) :
    settle c operator stop (es ++ e :: gs) = settle c operator stop (es ++ fs ++ gs) := by
  rw [List.append_assoc, settle_append es, settle_append es, settle_append fs, settle_cons, he]

/-- Behind an operand that decides a chain or fails, nothing counts. -/
theorem settle_decided (he : e.eval c ≠ .ok (.bool !stop)) :
    settle c operator stop (es ++ e :: fs) = settle c operator stop (es ++ [e]) := by
  rw [settle_append, settle_append es [e], settle_cons, settle_cons]
  cases ht : e.truth c operator with
  | error cause => simp
  | ok b =>
    have hb : b = stop := by
      rw [truth_eq_ok_iff] at ht
      rw [ht] at he
      simpa using he
    simp [hb]

/-! ### Negation -/

/-- A chain and the dual chain of the negated operands go on together, and stop together. -/
theorem settle_not (operator operator' : String) (stop : Bool) (es : List Expr) :
    Alike ((settle c operator stop es).map (!·)) (settle c operator' (!stop) (es.map .not)) := by
  induction es with
  | nil =>
    rw [List.map_nil, settle, settle]
    exact .value (!!stop)
  | cons e es ih =>
    rw [List.map_cons, settle_cons, settle_cons, truth_not]
    have hoperand : Alike (e.truth c operator) (e.truth c "!") := truth_alike operator "!"
    generalize e.truth c operator = r at hoperand
    generalize e.truth c "!" = s at hoperand
    cases hoperand with
    | value b =>
      by_cases hb : b = stop
      · simp only [hb, ok_bind, Except.map, if_pos]
        exact .value (!stop)
      · simpa [hb, Except.map] using ih
    | failure cause => exact .failure cause
    | mismatch operator operator' expected found =>
      exact .mismatch operator operator' expected found

theorem eval_not_of_truth {r : Except EvalError Bool} (h : e.truth c "!" = r) :
    (not e).eval c = (r.map (!·)).map .bool := by
  rw [eval_not, h]
  cases r <;> rfl

/-- CHAINS: operands in a row can be put together to a chain of their own; the negation of a chain
    is the dual chain of the negated operands, up to the operator that a mismatch names; and behind
    an operand that decides the chain, or fails, nothing counts. -/
theorem eval_chain (c : Context) (es fs gs : List Expr) :
    (all (es ++ all fs :: gs)).eval c = (all (es ++ fs ++ gs)).eval c ∧
    (any (es ++ any fs :: gs)).eval c = (any (es ++ fs ++ gs)).eval c ∧
    Alike ((not (all es)).eval c) ((any (es.map not)).eval c) ∧
    Alike ((not (any es)).eval c) ((all (es.map not)).eval c) ∧
    (∀ e, e.eval c ≠ .ok (.bool true) →
      (all (es ++ e :: fs)).eval c = (all (es ++ [e])).eval c) ∧
    ∀ e, e.eval c ≠ .ok (.bool false) →
      (any (es ++ e :: fs)).eval c = (any (es ++ [e])).eval c := by
  refine ⟨?_, ?_, ?_, ?_, ?_, ?_⟩
  · rw [eval, eval, settle_nested truth_all]
  · rw [eval, eval, settle_nested truth_any]
  · rw [eval_not_of_truth truth_all, eval]
    exact (settle_not "&&" "||" false es).map Value.bool
  · rw [eval_not_of_truth truth_any, eval]
    exact (settle_not "||" "&&" true es).map Value.bool
  · intro e he
    have hstop : e.eval c ≠ .ok (.bool !false) := he
    rw [eval, eval, settle_decided hstop]
  · intro e he
    have hstop : e.eval c ≠ .ok (.bool !true) := he
    rw [eval, eval, settle_decided hstop]

/-- An operand that is no truth value, in front of a name that is missing. -/
theorem eval_chain_mismatch :
    let c : Context := ⟨[]⟩
    let gold : Expr := .literal (.str "gold")
    gold.eval c ≠ .ok (.bool true) ∧ gold.eval c ≠ .ok (.bool false) ∧
      (all [gold, .path "missing" []]).eval c = .error (.typeMismatch "&&" .bool .str) ∧
      (any [gold, .path "missing" []]).eval c = .error (.typeMismatch "||" .bool .str) := by
  intro c gold
  obtain ⟨-, -, -, -, hall, hany⟩ := eval_chain c [] [.path "missing" []] []
  have htrue : gold.eval c ≠ .ok (.bool true) := by simp [gold, eval, Literal.value]
  have hfalse : gold.eval c ≠ .ok (.bool false) := by simp [gold, eval, Literal.value]
  exact ⟨htrue, hfalse, hall gold htrue, hany gold hfalse⟩

end Expr

end Rulebook
