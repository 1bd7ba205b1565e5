import Mathlib.Order.Defs.LinearOrder
import Rulebook.Condition

/-!
What a condition says, and what it leaves in the diagnostics. Its truth is that of its leaves, put
together by the connectives; a leaf is true if it evaluates to true, so that one that fails is
false, and true again under a negation. Which leaves are looked at is another matter:

    all    true  true  FALSE  -             up to the first false child
    any    false  TRUE  -  -                up to the first true child
    not    the leaves of its child

Each leaf that is reached and fails leaves one diagnostic, in the order in which they are reached.
Both are told here without diagnostics being passed along, and `check` is the two of them together.
-/

namespace Rulebook

/-! ### Leaves -/

/-- A part of a condition that is evaluated. -/
inductive Leaf where
  | expr (e : Expression)
  | field (t : FieldTest)

namespace Leaf

/-- The text of a leaf. -/
def text : Leaf → String
  | expr e => e.source
  | field t => t.text

/-- What a leaf evaluates to. -/
def test (ctx : Context) : Leaf → Except EvalError Bool
  | expr e => e.test ctx
  | field t => t.test ctx

/-- Whether a leaf evaluates to true. -/
def holds (ctx : Context) (l : Leaf) : Bool :=
  match l.test ctx with
  | .ok true => true
  | _ => false

/-- The diagnostic of a leaf, if it fails to evaluate. -/
def fault? (ctx : Context) (l : Leaf) : Option Diagnostic :=
  match l.test ctx with
  | .ok _ => none
  | .error e => some ⟨none, l.text, e⟩

end Leaf

namespace Condition

variable {ctx : Context}

/-! ### Meaning -/

mutual

/-- The truth of a condition, from that of its leaves. -/
def truth (ctx : Context) : Condition → Bool
  | .expr e => (Leaf.expr e).holds ctx
  | .field t => (Leaf.field t).holds ctx
  | .all cs => (truths ctx cs).all id
  | .any cs => cs.isEmpty || (truths ctx cs).any id
  | .not c => !truth ctx c

/-- Children, one by one. -/
def truths (ctx : Context) : List Condition → List Bool
  | [] => []
  | c :: cs => truth ctx c :: truths ctx cs

end

mutual

/-- The leaves that are looked at, in order. -/
def reached (ctx : Context) : Condition → List Leaf
  | .expr e => [.expr e]
  | .field t => [.field t]
  | .all cs => reachedUpTo ctx false cs
  | .any cs => reachedUpTo ctx true cs
  | .not c => reached ctx c

/-- The leaves of children up to the first whose truth is `stop`. -/
def reachedUpTo (ctx : Context) (stop : Bool) : List Condition → List Leaf
  | [] => []
  | c :: cs => reached ctx c ++ if truth ctx c = stop then [] else reachedUpTo ctx stop cs

end

/-- The diagnostics of the leaves that are looked at. -/
def faults (ctx : Context) (c : Condition) : List Diagnostic :=
  (c.reached ctx).filterMap (·.fault? ctx)

/-- The connective of a condition that is no leaf, and its children. -/
def node? : Condition → Option (Connective × List Condition)
  | .all cs => some (.and, cs)
  | .any cs => some (.or, cs)
  | .not c => some (.not, [c])
  | _ => none

/-! ### Checking -/

theorem downgrade_leaf (l : Leaf) (ds : List Diagnostic) :
    downgrade l.text (l.test ctx) ds = (l.holds ctx, ds ++ [l].filterMap (·.fault? ctx)) := by
  cases ht : l.test ctx with
  | ok b => cases b <;> simp [downgrade, Leaf.holds, Leaf.fault?, ht]
  | error e => simp [downgrade, Leaf.holds, Leaf.fault?, ht]

mutual

/-- The answer is the truth of the condition, and the diagnostics of its leaves are added. -/
theorem check_eq_truth : ∀ (c : Condition) (ds : List Diagnostic),
    check ctx c ds = (c.truth ctx, ds ++ c.faults ctx)
  | .expr e, ds => by rw [check]; exact downgrade_leaf (.expr e) ds
  | .field t, ds => by rw [check]; exact downgrade_leaf (.field t) ds
  | .all cs, ds => by rw [check, checkAll_eq_truths, truth, faults, reached]
  | .any [], ds => by simp [check, truth, faults, reached, reachedUpTo]
  | .any (c :: cs), ds => by
    rw [check, checkAny_eq_truths, truth, faults, reached, List.isEmpty_cons, Bool.false_or]
  | .not c, ds => by rw [check, check_eq_truth c ds, truth, faults, faults, reached]

theorem checkAll_eq_truths : ∀ (cs : List Condition) (ds : List Diagnostic),
    checkAll ctx cs ds = ((truths ctx cs).all id,
      ds ++ (reachedUpTo ctx false cs).filterMap (·.fault? ctx))
  | [], ds => by simp [checkAll, truths, reachedUpTo]
  | c :: cs, ds => by
    rw [checkAll, check_eq_truth c ds, truths, reachedUpTo, faults, List.filterMap_append]
    cases hc : c.truth ctx with
    | true => simp [checkAll_eq_truths cs]
    | false => simp

theorem checkAny_eq_truths : ∀ (cs : List Condition) (ds : List Diagnostic),
    checkAny ctx cs ds = ((truths ctx cs).any id,
      ds ++ (reachedUpTo ctx true cs).filterMap (·.fault? ctx))
  | [], ds => by simp [checkAny, truths, reachedUpTo]
  | c :: cs, ds => by
    rw [checkAny, check_eq_truth c ds, truths, reachedUpTo, faults, List.filterMap_append]
    cases hc : c.truth ctx with
    | true => simp
    | false => simp [checkAny_eq_truths cs]

end

/-! ### Building -/

/-- A condition is made of a connective and children if and only if these can be put together. -/
theorem composite_eq_ok_iff {op : Connective} {cs : List Condition} {c : Condition} :
    composite op cs = .ok c ↔ c.node? = some (op, cs) := by
  constructor
  · intro h
    unfold composite at h
    split at h
    · cases h; rfl
    · cases h; rfl
    · cases h; rfl
    · cases h
  · intro h
    unfold node? at h
    split at h
    · cases h; rfl
    · cases h; rfl
    · cases h; rfl
    · cases h

theorem composite_eq_error_iff {op : Connective} {cs : List Condition} {e : ConfigError} :
    composite op cs = .error e ↔ op = .not ∧ cs.length ≠ 1 ∧ e = .notArity cs.length := by
  cases op with
  | and => simp [composite]
  | or => simp [composite]
  | not =>
    rcases cs with _ | ⟨c, _ | ⟨d, cs⟩⟩
    · simp [composite, eq_comm]
    · simp [composite]
    · simp [composite, eq_comm]

/-- EXACT: a check answers with the truth of the condition and leaves the diagnostics that are
    there, with those of the leaves that are reached and fail behind them; without diagnostics the
    answer is the same. Connectives and children make up a condition unless a negation has not just
    one child, and so there is none that has not. -/
theorem check_exact (ctx : Context) (c : Condition) (ds : List Diagnostic) :
    c.check ctx ds = (c.truth ctx, ds ++ (c.reached ctx).filterMap (·.fault? ctx)) ∧
    c.holds ctx = c.truth ctx ∧
    (∀ op cs, composite op cs = .ok c ↔ c.node? = some (op, cs)) ∧
    (∀ cs, c.node? = some (.not, cs) → cs.length = 1) ∧
    ∀ op cs e, composite op cs = .error e ↔
      op = .not ∧ cs.length ≠ 1 ∧ e = .notArity cs.length := by
  refine ⟨check_eq_truth c ds, ?_, fun _ _ => composite_eq_ok_iff, ?_,
    fun _ _ _ => composite_eq_error_iff⟩
  · rw [holds, check_eq_truth]
  · intro cs hc
    cases c with
    | not c => cases hc; rfl
    | _ => cases hc

/-- A leaf that fails, between one that is true and one that is not reached, makes a conjunction
    false and its negation true. -/
theorem check_exact_negated (d : Diagnostic) :
    let low : FieldTest := ⟨"total", .compare .lt, .int 5⟩
    let odd : FieldTest := ⟨"total", .contains, .int 5⟩
    let ctx : Context := ⟨[("total", .int 3)]⟩
    let c : Condition := .all [.field low, .field odd, .field odd]
    (Condition.not c).check ctx [d] =
        (true, [d, ⟨none, "total contains 5", .typeMismatch "contains" .stringOrList .int⟩]) ∧
      (Condition.not c).node? = some (.not, [c]) ∧ [c].length = 1 := by
  intro low odd ctx c
  obtain ⟨hcheck, -, -, hnot, -⟩ := check_exact ctx (.not c) [d]
  have hlow : low.test ctx = .ok true := by unfold low ctx; cbv
  have hodd : odd.test ctx = .error (.typeMismatch "contains" .stringOrList .int) := by
    unfold odd ctx; cbv
  have htext : odd.text = "total contains 5" := by unfold odd; cbv
  refine ⟨?_, rfl, hnot [c] rfl⟩
  rw [hcheck]
  simp [c, truth, truths, reached, reachedUpTo, Leaf.holds, Leaf.fault?, Leaf.test, Leaf.text, hlow,
    hodd, htext]

end Condition

end Rulebook
