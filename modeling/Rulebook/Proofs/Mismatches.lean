import Rulebook.Proofs.Conditions
import Rulebook.Proofs.Cuts
import Rulebook.Proofs.FieldTests
import Rulebook.Proofs.Origins

/-!
Whom a mismatch blames. An operation that is given a value of the wrong kind says what it expects
and which kind it found instead. The blame is fair if the kind that was found is none of those
expected:

    1 + 'a'            expects number, found string             fair
    'a' + 1            expects number, found string             fair
    tags contains 5    expects string or list, found int        fair, where tags is an integer
    name contains 5    expects string or list, found string     unfair, where name is a text

Every operation of an expression blames fairly, and so does every field test but one: to look in a
text for something that is no text. There the constant is at fault, and the text is blamed.
-/

namespace Rulebook

/-! ### Fair blame -/

/-- The kinds that are expected. -/
def Expected.admits : Expected → Kind → Bool
  | .number, k => k == .int || k == .float
  | .bool, k => k == .bool
  | .int, k => k == .int
  | .stringOrList, k => k == .str || k == .list

/-- An error that, if it is a mismatch, has found a kind that was not expected. -/
def EvalError.Fair : EvalError → Prop
  | typeMismatch _ expected found => expected.admits found = false
  | _ => True

variable {a b v : Value} {error : EvalError}

theorem Expected.admits_number_iff {k : Kind} :
    number.admits k = true ↔ k = .int ∨ k = .float := by
  simp [admits]

/-- Where an operation on two numbers is refused, the one that is blamed is no number. -/
theorem admits_blame (h : a.float? = none ∨ b.float? = none) :
    Expected.number.admits (blame a b) = false := by
  rw [Bool.eq_false_iff, ne_eq, Expected.admits_number_iff, blame]
  cases ha : a.isNumeric with
  | false =>
    rw [if_neg (by decide), ← Value.isNumeric_iff, ha]
    decide
  | true =>
    have hb : b.isNumeric = false := by
      rcases h with h | h
      · rw [Value.float?_eq_none_iff, ha] at h
        cases h
      · exact Value.float?_eq_none_iff.1 h
    rw [if_pos rfl, ← Value.isNumeric_iff, hb]
    decide

/-! ### Operations -/

theorem Value.float?_of_numericOrder (h : numericOrder a b = none) :
    a.float? = none ∨ b.float? = none := by
  unfold numericOrder at h
  split at h
  · cases h
  · cases ha : a.float? with
    | none => exact .inl rfl
    | some x =>
      cases hb : b.float? with
      | none => exact .inr rfl
      | some y => simp [ha, hb] at h

theorem Value.float?_of_compares {c : Comparison} (h : a.compares c b = none) :
    a.float? = none ∨ b.float? = none := by
  cases c with
  | eq | ne => cases h
  | gt | ge | lt | le => exact float?_of_numericOrder (Option.map_eq_none_iff.1 h)

theorem Comparison.apply_error {c : Comparison} (h : c.apply a b = .error error) :
    error = .typeMismatch c.text .number (blame a b) ∧ (a.float? = none ∨ b.float? = none) := by
  unfold apply at h
  split at h
  · cases h
  · next hcompares =>
    cases h
    exact ⟨rfl, Value.float?_of_compares hcompares⟩

/-- An arithmetic operator is refused for an operand that is no number, or fails in its own name. -/
theorem Arith.apply_error {op : Arith} (h : op.apply a b = .error error) :
    error = .typeMismatch op.text .number (blame a b) ∧ (a.float? = none ∨ b.float? = none) ∨
      op = .div ∧ error = .divisionByZero ∨ error = .overflow op := by
  unfold apply at h
  split at h
  · split at h
    · next hdiv => cases h; exact .inr (.inl ⟨hdiv.1, rfl⟩)
    split at h
    · cases h
    · cases h; exact .inr (.inr rfl)
  · split at h
    · split at h
      · next hdiv => cases h; exact .inr (.inl ⟨hdiv.1, rfl⟩)
      · cases h
    · next hfloats =>
      cases h
      refine .inl ⟨rfl, ?_⟩
      cases ha : a.float? with
      | none => exact .inl rfl
      | some x =>
        cases hb : b.float? with
        | none => exact .inr rfl
        | some y => exact absurd hb (hfloats x y ha)

theorem BinOp.apply_error {op : BinOp} (h : op.apply a b = .error error) :
    error = .typeMismatch op.text .number (blame a b) ∧ (a.float? = none ∨ b.float? = none) ∨
      op = .arith .div ∧ error = .divisionByZero ∨
      ∃ o, op = .arith o ∧ error = .overflow o := by
  cases op with
  | compare c => exact .inl (Comparison.apply_error (map_eq_error h))
  | arith o =>
    rcases Arith.apply_error h with hmismatch | ⟨rfl, hzero⟩ | hoverflow
    · exact .inl hmismatch
    · exact .inr (.inl ⟨rfl, hzero⟩)
    · exact .inr (.inr ⟨o, rfl, hoverflow⟩)

theorem Comparison.apply_fair {c : Comparison} (h : c.apply a b = .error error) : error.Fair := by
  obtain ⟨rfl, hfloats⟩ := apply_error h
  exact admits_blame hfloats

theorem BinOp.apply_fair {op : BinOp} (h : op.apply a b = .error error) : error.Fair := by
  rcases apply_error h with ⟨rfl, hfloats⟩ | ⟨-, rfl⟩ | ⟨o, -, rfl⟩
  · exact admits_blame hfloats
  · exact trivial
  · exact trivial

theorem Value.truth_fair {operator : String} (h : v.truth operator = .error error) :
    error.Fair := by
  unfold truth at h
  split at h
  · cases h
  · next hbool =>
    cases h
    simpa [EvalError.Fair, Expected.admits] using bool?_eq_none_iff.1 hbool

theorem Value.element_error {items : List Value} (h : element items v = .error error) :
    error = .typeMismatch "[]" .int v.kind ∧ v.kind ≠ .int ∨
      ∃ n, error = .indexOutOfBounds n items.length ∧
        (n.toInt < 0 ∨ items.length ≤ n.toInt) := by
  rw [element_eq, place] at h
  cases hint : v.int? with
  | none =>
    rw [hint] at h
    cases h
    exact .inl ⟨rfl, int?_eq_none_iff.1 hint⟩
  | some n =>
    rw [hint] at h
    dsimp only at h
    split at h
    · cases h
    · next hout =>
      cases h
      exact .inr ⟨n, rfl, by omega⟩

theorem Value.element_fair {items : List Value} (h : element items v = .error error) :
    error.Fair := by
  rcases element_error h with ⟨rfl, hkind⟩ | ⟨n, rfl, -⟩
  · exact beq_eq_false_iff_ne.2 hkind
  · exact trivial

theorem Value.field_fair {name : String} (h : v.field name = .error error) : error.Fair := by
  rw [field_error h]
  exact trivial

theorem Value.call_error {name : String} (h : v.call name = .error error) :
    error = .noSuchMethod name v.owner := by
  unfold call at h
  extract_lets found at h
  clear_value found
  split at h
  · cases h
  · cases h
    rfl

theorem Value.call_fair {name : String} (h : v.call name = .error error) : error.Fair := by
  rw [call_error h]
  exact trivial

/-! ### Expressions -/

variable {ctx : Context}

theorem Segment.Refused.fair {s : Segment} (h : s.Refused error) : error.Fair := by
  cases h with
  | field h => exact Value.field_fair h
  | call h => exact Value.call_fair h
  | element h => exact Value.element_fair h
  | whole => exact trivial

theorem Expr.Fails.fair {e : Expr} (h : e.Fails ctx error) : error.Fair := by
  obtain ⟨x, -, hx⟩ := h
  cases hx with
  | root => exact trivial
  | segment _ h => exact h.fair
  | operator _ _ h => exact BinOp.apply_fair h
  | operand _ h => exact Value.truth_fair h

theorem Expression.test_fair {e : Expression} (h : e.test ctx = .error error) : error.Fair :=
  (e.fails_of_test h).fair

/-! ### Field tests -/

/-- A test that looks in a text for what is no text. -/
def FieldTest.SeeksNoText (ctx : Context) (t : FieldTest) : Prop :=
  t.op = .contains ∧ (∃ s, ctx.resolve t.path = .ok (.str s)) ∧ t.constant.kind ≠ .str

theorem containment_fair_iff {needle : Value} (h : containment v needle = .error error) :
    error.Fair ↔ ¬ ((∃ s, v = .str s) ∧ needle.kind ≠ .str) := by
  unfold containment at h
  split at h
  · cases h
  · cases h
  · next hlist htext =>
    cases h
    cases v with
    | list vs => exact absurd rfl (hlist vs)
    | str s =>
      have hneedle : needle.kind ≠ .str := by
        cases needle with
        | str t => exact absurd rfl (htext s t rfl)
        | _ => simp [Value.kind]
      have hunfair : Expected.stringOrList.admits (Value.str s).kind = true := rfl
      simp [EvalError.Fair, hunfair, hneedle]
    | _ => simp [EvalError.Fair, Expected.admits, Value.kind]

theorem FieldTest.test_fair_iff {t : FieldTest} (h : t.test ctx = .error error) :
    error.Fair ↔ ¬ t.SeeksNoText ctx := by
  by_cases hnull : ∀ v, ctx.resolve t.path = .ok v → v = .null
  · rw [test_of_null hnull] at h
    cases h
  push Not at hnull
  obtain ⟨v, hv, hne⟩ := hnull
  rw [test_of_value hv hne, onValue] at h
  rw [SeeksNoText, hv]
  split at h
  · next hop =>
    have hfair := Comparison.apply_fair h
    simp [hop, hfair]
  · next hop =>
    rw [containment_fair_iff h]
    simp [hop]

/-! ### Conditions -/

/-- A leaf that looks in a text for what is no text. -/
def Leaf.SeeksNoText (ctx : Context) : Leaf → Prop
  | .expr _ => False
  | .field t => t.SeeksNoText ctx

theorem Leaf.fair_iff {l : Leaf} {d : Diagnostic} (h : l.fault? ctx = some d) :
    d.error.Fair ↔ ¬ l.SeeksNoText ctx := by
  unfold fault? at h
  split at h
  · cases h
  · next error herror =>
    cases h
    cases l with
    | expr e => simp [SeeksNoText, Expression.test_fair herror]
    | field t => exact FieldTest.test_fair_iff herror

/-- FAIR: the diagnostics that a check adds are those of leaves that fail, and the error of a leaf
    blames fairly unless the leaf looks in a text for what is no text. -/
theorem Condition.check_fair (ctx : Context) (c : Condition) (ds : List Diagnostic) :
    ∃ added, (c.check ctx ds).2 = ds ++ added ∧
      ∀ d ∈ added, ∃ l ∈ c.reached ctx, l.fault? ctx = some d ∧
        (d.error.Fair ↔ ¬ l.SeeksNoText ctx) := by
  refine ⟨c.faults ctx, by rw [check_eq_truth], fun d hd => ?_⟩
  obtain ⟨l, hl, hfault⟩ := List.mem_filterMap.1 hd
  exact ⟨l, hl, hfault, Leaf.fair_iff hfault⟩

/-- A text is blamed for not being a text or a list. -/
theorem Condition.check_unfair :
    let t : FieldTest := ⟨"name", .contains, .int 5⟩
    let d : Diagnostic := ⟨none, "name contains 5", .typeMismatch "contains" .stringOrList .str⟩
    (Condition.field t).check ⟨[("name", .str "abc")]⟩ [] = (false, [d]) ∧
    ¬ d.error.Fair := by
  intro t d
  refine ⟨?_, ?_⟩
  · unfold t d
    cbv
  · unfold d
    simp [EvalError.Fair, Expected.admits]

end Rulebook
