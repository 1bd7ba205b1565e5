import Rulebook.Condition
import Rulebook.Proofs.Dotted

/-!
Field tests and the texts that show them. The text of a comparison with an integer, a truth value or
a text without a single quote is an expression, and as conditions the two agree:

    shown           in a context where    test     expression
    total >= 100    total is 150          true     true
                    total is 'much'       false    false         with the same diagnostic
                    total is missing      false    false         with a diagnostic there alone
    total != 100    total is null         false    true

The last line is the only way to two answers: a field that is null stands in no relation to a
constant that is not, while as a value null is different from every other.
-/

namespace Rulebook

/-- The constants that are shown as literals: integers, truth values and texts without
    a single quote. -/
def Value.IsPlain : Value → Prop
  | .int _ | .bool _ => True
  | .str s => '\x27' ∉ s.toList
  | _ => False

variable {t : FieldTest} {ctx : Context} {path : String} {op : Comparison} {v : Value}

/-! ### The text of a test -/

/-- A plain literal is shown as it is spelled, whatever follows that does not go on with it. -/
theorem Literal.spells {l : Literal} {rest : List Char} (hl : l.value.IsPlain)
    (hrest : Stops isNumberTail rest) : (Terminal.literal l).Spells true l.text.toList rest := by
  cases l with
  | int n => exact spells_integerText (fun _ => rfl) hrest
  | float x => exact hl.elim
  | str s => exact ⟨'\x27', rfl, hl, by simp [Literal.text]⟩
  | bool b => cases b <;> exact ⟨rfl, hrest.mono fun _ => isNumberTail_of_isWordPart⟩

/-- A plain constant is shown as the literal that it is the value of. -/
theorem FieldTest.exists_literal (hc : t.constant.IsPlain) :
    ∃ l : Literal, t.constant = l.value ∧
      t.text = t.path ++ " " ++ t.op.text ++ " " ++ l.text ∧
      (Terminal.literal l).Spells true l.text.toList [] := by
  obtain ⟨path, op, constant⟩ := t
  have hend : Stops isNumberTail [] := by simp [Stops]
  cases constant with
  | int n => exact ⟨.int n, rfl, rfl, Literal.spells hc hend⟩
  | bool b => exact ⟨.bool b, rfl, rfl, Literal.spells hc hend⟩
  | str s => exact ⟨.str s, rfl, rfl, Literal.spells hc hend⟩
  | _ => exact hc.elim

theorem Comparison.spells (op : Comparison) (operand : Bool) (rest : List Char) :
    (BinOp.compare op).terminal.Spells operand op.text.toList (' ' :: rest) := by
  cases op with
  | gt | lt => exact ⟨rfl, by rintro _ ⟨⟩; rfl⟩
  | _ => rfl

theorem Comparison.opensOperand (op : Comparison) :
    (BinOp.compare op).terminal.opensOperand = true := by
  cases op <;> rfl

/-- The text of a comparison is an expression, which compares the path with the constant. -/
theorem FieldTest.ofSource_text (hpath : IsDotted t.path) (hop : t.op = .compare op)
    (hc : t.constant.IsPlain) :
    ∃ l : Literal, t.constant = l.value ∧
      Expr.ofSource t.text =
        .ok (.binary (.compare op) (Path.ofString t.path).expr (.literal l)) := by
  obtain ⟨l, hl, htext, hspells⟩ := exists_literal hc
  refine ⟨l, hl, ?_⟩
  have hgap : ∀ c ∈ [' '], isBlank c = true := List.all_eq_true.1 rfl
  -- the row from its end: the literal, the operator, the path
  have hliteral : LaidOut (BinOp.compare op).terminal.opensOperand ([' '] ++ l.text.toList ++ [])
      [.literal l] := by
    rw [op.opensOperand]
    exact .cons [' '] hgap hspells .nil
  have hoperator := LaidOut.cons [' '] hgap (op.spells false _) hliteral
  have hrow : LaidOut true _ _ := LaidOut.dotted hpath (by rintro _ ⟨⟩; rfl) hoperator
  have hL := Language.Negation.compare op (Path.negation_expr (Path.ofString t.path))
    (Language.Negation.literal (l := l))
  refine LaidOut.ofSource ?_ hL ?_
  · rw [htext, hop]
    simpa [FieldOp.text, Expr.terminals] using hrow
  · rw [Expr.height, Path.height_expr, Expr.height]
    decide

/-! ### Three kinds of field -/

theorem Value.field_error {name : String} {e : EvalError} (h : v.field name = .error e) :
    e = .noSuchField name v.owner := by
  unfold field at h
  extract_lets found at h
  clear_value found
  split at h
  · cases h
  · cases h
    rfl

/-- Where following names fails, a field is missing. -/
theorem Segment.walk_fields_error {xs : List String} {e : EvalError}
    (h : walk ctx (xs.map .field) v = .error e) : ∃ x owner, e = .noSuchField x owner := by
  induction xs generalizing v with
  | nil => cases h
  | cons x xs ih =>
    rw [List.map_cons, walk, step] at h
    cases hx : v.field x with
    | error e' =>
      rw [hx] at h
      cases h
      exact ⟨x, v.owner, Value.field_error hx⟩
    | ok w =>
      rw [hx] at h
      exact ih h

/-- Where a path fails, its root or a field is missing. -/
theorem Context.resolve_error {e : EvalError} (h : ctx.resolve path = .error e) :
    (∃ x, e = .unboundVariable x) ∨ ∃ x owner, e = .noSuchField x owner := by
  rw [resolve, Path.expr, Expr.eval] at h
  cases hroot : ctx.lookup (Path.ofString path).root with
  | none =>
    rw [hroot] at h
    cases h
    exact .inl ⟨_, rfl⟩
  | some v =>
    rw [hroot] at h
    exact .inr (Segment.walk_fields_error h)

/-- A field that is missing or null only equals null. -/
theorem FieldTest.test_of_null (h : ∀ v, ctx.resolve t.path = .ok v → v = .null) :
    t.test ctx = .ok t.onMissing := by
  cases hr : ctx.resolve t.path with
  | error e =>
    rw [test, ← Context.resolve, hr]
    rcases Context.resolve_error hr with ⟨x, rfl⟩ | ⟨x, owner, rfl⟩ <;> rfl
  | ok v =>
    obtain rfl := h v hr
    rw [test, ← Context.resolve, hr]

/-- A field with a value is compared. -/
theorem FieldTest.test_of_value (h : ctx.resolve t.path = .ok v) (hv : v ≠ .null) :
    t.test ctx = t.onValue v := by
  rw [Context.resolve] at h
  rw [test, h]
  cases v with
  | null => exact absurd rfl hv
  | _ => rfl

/-- Null differs from a plain constant and stands in no order with it. -/
theorem Comparison.apply_null {constant : Value} (hc : constant.IsPlain) :
    op.apply .null constant = match op with
      | .eq => .ok false
      | .ne => .ok true
      | op => .error (.typeMismatch op.text .number .null) := by
  cases constant with
  | int | bool | str => cases op <;> rfl
  | _ => exact hc.elim

theorem Expression.test_compare {e : Expression} {l : Literal}
    (h : e.tree = .binary (.compare op) (Path.ofString path).expr (.literal l)) :
    e.test ctx = match ctx.resolve path with
      | .error cause => .error cause
      | .ok v => op.apply v l.value := by
  rw [test, eval, h, Expr.eval, Context.resolve]
  cases (Path.ofString path).expr.eval ctx with
  | error cause => rfl
  | ok v =>
    simp only [Expr.eval, BinOp.apply]
    cases op.apply v l.value <;> rfl

/-- An expression with the text of a test that compares what the path of the test leads to. -/
structure Expression.Shows (e : Expression) (op : Comparison) (t : FieldTest) : Prop where
  source : e.source = t.text
  test_eq : ∀ ctx, e.test ctx = match ctx.resolve t.path with
    | .error cause => .error cause
    | .ok v => op.apply v t.constant

/-- A comparison is shown as such an expression. -/
theorem FieldTest.exists_shows (hpath : IsDotted t.path) (hop : t.op = .compare op)
    (hc : t.constant.IsPlain) : ∃ e, Expression.ofSource t.text = .ok e ∧ e.Shows op t := by
  obtain ⟨l, hl, hsource⟩ := ofSource_text hpath hop hc
  refine ⟨_, Expression.ofSource_eq hsource, rfl, fun ctx => ?_⟩
  rw [hl]
  exact Expression.test_compare rfl

theorem FieldTest.onMissing_iff :
    t.onMissing = true ↔ t.op = .compare .eq ∧ t.constant = .null := by
  rw [onMissing, Bool.and_eq_true, beq_iff_eq, Value.isNull_iff]

/-- A field that is missing or null is tested without a diagnostic. -/
theorem FieldTest.check_of_missing (h : ∀ v, ctx.resolve t.path = .ok v → v = .null)
    (ds : List Diagnostic) :
    (Condition.field t).check ctx ds = (t.onMissing, ds) := by
  rw [Condition.check, test_of_null h, downgrade]

/-- A test against a plain constant is false of a field that is missing or null. -/
theorem FieldTest.check_of_null (hc : t.constant.IsPlain)
    (h : ∀ v, ctx.resolve t.path = .ok v → v = .null) (ds : List Diagnostic) :
    (Condition.field t).check ctx ds = (false, ds) := by
  have hmissing : t.onMissing = false := by
    rw [Bool.eq_false_iff, ne_eq, onMissing_iff]
    rintro ⟨-, hconstant⟩
    rw [hconstant] at hc
    exact hc
  rw [check_of_missing h, hmissing]

namespace Expression.Shows

variable {e : Expression}

theorem check_of_value (he : e.Shows op t) (hop : t.op = .compare op)
    (h : ctx.resolve t.path = .ok v) (hv : v ≠ .null) (ds : List Diagnostic) :
    (Condition.field t).check ctx ds = (Condition.expr e).check ctx ds := by
  rw [Condition.check, Condition.check, he.test_eq, h, FieldTest.test_of_value h hv, he.source,
    FieldTest.onValue, hop]

theorem holds_of_null (he : e.Shows op t) (hc : t.constant.IsPlain)
    (h : ctx.resolve t.path = .ok .null) :
    (Condition.expr e).holds ctx = decide (op = .ne) := by
  rw [Condition.holds, Condition.check, he.test_eq, h]
  simp only [Comparison.apply_null hc]
  cases op <;> rfl

theorem holds_of_error (he : e.Shows op t) {cause : EvalError}
    (h : ctx.resolve t.path = .error cause) :
    (Condition.expr e).holds ctx = false := by
  rw [Condition.holds, Condition.check, he.test_eq, h]
  rfl

end Expression.Shows

/-- AGREE: the text of a comparison of a path with a plain constant is an expression. As
    conditions the test and the expression have one truth value, unless the path leads to null
    and the comparison is `!=`: then the test is false and the expression true. Where the path
    leads to another value, they also leave the same diagnostics; where it leads to null or
    nowhere, the test leaves none. -/
theorem FieldTest.agrees_with_text (hpath : IsDotted t.path) (hop : t.op = .compare op)
    (hc : t.constant.IsPlain) :
    ∃ written, Condition.ofSource (Condition.field t).text = .ok written ∧ ∀ ctx,
      (¬ (ctx.resolve t.path = .ok .null ∧ op = .ne) →
        (Condition.field t).holds ctx = written.holds ctx) ∧
      (ctx.resolve t.path = .ok .null ∧ op = .ne →
        (Condition.field t).holds ctx = false ∧ written.holds ctx = true) ∧
      (∀ v, ctx.resolve t.path = .ok v → v ≠ .null →
        ∀ ds, (Condition.field t).check ctx ds = written.check ctx ds) ∧
      ((∀ v, ctx.resolve t.path = .ok v → v = .null) →
        ∀ ds, ((Condition.field t).check ctx ds).2 = ds) := by
  obtain ⟨e, hsource, he⟩ := exists_shows hpath hop hc
  have hfalse {ctx : Context} (h : ∀ v, ctx.resolve t.path = .ok v → v = .null) :
      (Condition.field t).holds ctx = false := by
    rw [Condition.holds, check_of_null hc h]
  refine ⟨.expr e, ?_, fun ctx => ⟨fun hne => ?_, ?_, ?_, ?_⟩⟩
  · rw [Condition.ofSource, Condition.text, hsource]
    rfl
  · cases hr : ctx.resolve t.path with
    | error cause => rw [he.holds_of_error hr, hfalse (by rw [hr]; rintro _ ⟨⟩)]
    | ok v =>
      by_cases hv : v = .null
      · subst hv
        have hop' : op ≠ .ne := fun hop' => hne ⟨hr, hop'⟩
        rw [he.holds_of_null hc hr, hfalse (by rw [hr]; rintro _ ⟨⟩; rfl), decide_eq_false hop']
      · rw [Condition.holds, he.check_of_value hop hr hv, Condition.holds]
  · rintro ⟨hr, rfl⟩
    exact ⟨hfalse (by rw [hr]; rintro _ ⟨⟩; rfl), he.holds_of_null hc hr⟩
  · intro v hr hv
    exact he.check_of_value hop hr hv
  · intro h ds
    rw [check_of_null hc h]

/-- The least integer is a constant like any other. -/
theorem FieldTest.agrees_with_text_least :
    let t : FieldTest := ⟨"user.age", .compare .ge, .int (-9223372036854775808)⟩
    IsDotted t.path ∧ t.constant.IsPlain ∧ ∃ written,
      Condition.ofSource "user.age >= -9223372036854775808" = .ok written ∧
        ∀ ctx v, ctx.resolve "user.age" = .ok v → v ≠ .null →
          ∀ ds, (Condition.field t).check ctx ds = written.check ctx ds := by
  intro t
  have hparts : partsOf "user.age" = ["user", "age"] := by cbv
  have huser : IsName "user" :=
    ⟨⟨⟨'u', rfl, rfl⟩, List.all_eq_true.1 rfl⟩, by decide, by decide⟩
  have hage : IsName "age" :=
    ⟨⟨⟨'a', rfl, rfl⟩, List.all_eq_true.1 rfl⟩, by decide, by decide⟩
  have hpath : IsDotted t.path := by
    rw [IsDotted, hparts]
    simp [huser, hage]
  have hshown : (Condition.field t).text = "user.age >= -9223372036854775808" := by cbv
  have hconstant : t.constant.IsPlain := trivial
  obtain ⟨written, hwritten, hagree⟩ := FieldTest.agrees_with_text hpath rfl hconstant
  refine ⟨hpath, hconstant, written, hshown ▸ hwritten, fun ctx => ?_⟩
  exact (hagree ctx).2.2.1

end Rulebook
