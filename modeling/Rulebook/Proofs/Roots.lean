import Rulebook.Condition
import Rulebook.Proofs.Context

/-!
The names that an expression or a condition looks at, and nothing else of a context matters to it:

    total * 2 >= user.limits[i + 1]        total, user, i
    owner.name == null                     owner

The names of a tree are closed over every constructor, also where evaluation may not get to: behind
an operand that decides a chain, and in the index of something that is no list.
-/

namespace Rulebook

mutual

/-- The names at which the paths of a tree begin, also of those inside an index. -/
def Expr.roots : Expr → List String
  | .literal _ => []
  | .path root ss => root :: Segment.allRoots ss
  | .binary _ l r => l.roots ++ r.roots
  | .not e => e.roots
  | .all es => Expr.allRoots es
  | .any es => Expr.allRoots es

/-- The names of some trees. -/
def Expr.allRoots : List Expr → List String
  | [] => []
  | e :: es => e.roots ++ Expr.allRoots es

/-- The names of a segment: those of its index, if it has one. -/
def Segment.roots : Segment → List String
  | .index e => e.roots
  | _ => []

/-- The names of some segments. -/
def Segment.allRoots : List Segment → List String
  | [] => []
  | s :: ss => s.roots ++ Segment.allRoots ss

end

mutual

/-- The names of a condition: those of its expressions, and the first part of each field's path. -/
def Condition.roots : Condition → List String
  | .expr e => e.tree.roots
  | .field t => [rootOf t.path]
  | .all cs => Condition.allRoots cs
  | .any cs => Condition.allRoots cs
  | .not c => c.roots

/-- The names of some conditions. -/
def Condition.allRoots : List Condition → List String
  | [] => []
  | c :: cs => c.roots ++ Condition.allRoots cs

end

variable {c d : Context}

/-! ### Expressions -/

mutual

/-- A tree has one value, or one failure, in contexts that agree on its names. -/
theorem Expr.eval_congr : ∀ (e : Expr), c.Agree e.roots d → e.eval c = e.eval d
  | .literal _, _ => by rw [Expr.eval, Expr.eval]
  | .path root ss, h => by
    rw [Expr.eval, Expr.eval, h.head]
    cases d.lookup root with
    | none => rfl
    | some v => exact Segment.walk_congr ss v h.tail
  | .binary op l r, h => by rw [Expr.eval, Expr.eval, l.eval_congr h.left, r.eval_congr h.right]
  | .not e, h => by rw [Expr.eval, Expr.eval, e.eval_congr h]
  | .all es, h => by rw [Expr.eval, Expr.eval, Expr.settle_congr "&&" false es h]
  | .any es, h => by rw [Expr.eval, Expr.eval, Expr.settle_congr "||" true es h]

theorem Expr.settle_congr (operator : String) (stop : Bool) : ∀ (es : List Expr),
    c.Agree (Expr.allRoots es) d → Expr.settle c operator stop es = Expr.settle d operator stop es
  | [], _ => by rw [Expr.settle, Expr.settle]
  | e :: es, h => by
    rw [Expr.settle, Expr.settle, e.eval_congr h.left, Expr.settle_congr operator stop es h.right]

theorem Segment.walk_congr : ∀ (ss : List Segment) (v : Value),
    c.Agree (Segment.allRoots ss) d → Segment.walk c ss v = Segment.walk d ss v
  | [], _, _ => by rw [Segment.walk, Segment.walk]
  | s :: ss, v, h => by
    rw [Segment.walk, Segment.walk, s.step_congr v h.left]
    cases s.step d v with
    | error e => rfl
    | ok w => exact Segment.walk_congr ss w h.right

theorem Segment.step_congr : ∀ (s : Segment) (v : Value),
    c.Agree s.roots d → s.step c v = s.step d v
  | .field _, _, _ => by rw [Segment.step, Segment.step]
  | .call _, _, _ => by rw [Segment.step, Segment.step]
  | .index e, v, h => by
    cases v with
    | list items => rw [Segment.step, Segment.step, e.eval_congr h]
    | _ => rfl

end

theorem Expression.eval_congr {e : Expression} (h : c.Agree e.tree.roots d) : e.eval c = e.eval d :=
  e.tree.eval_congr h

/-! ### Conditions -/

theorem Segment.allRoots_fields (names : List String) :
    Segment.allRoots (names.map Segment.field) = [] := by
  induction names with
  | nil => rfl
  | cons name names ih => exact ih

theorem FieldTest.test_congr {t : FieldTest} (h : c.Agree [rootOf t.path] d) :
    t.test c = t.test d := by
  have hroots : (Path.ofString t.path).expr.roots = [rootOf t.path] :=
    congrArg (rootOf t.path :: ·) (Segment.allRoots_fields _)
  rw [test, test, Expr.eval_congr _ (hroots ▸ h)]

namespace Condition

mutual

/-- A condition gives one answer and one list of diagnostics in contexts that agree on its names. -/
theorem check_congr : ∀ (x : Condition) (ds : List Diagnostic), c.Agree x.roots d →
    check c x ds = check d x ds
  | .expr e, ds, h => by
    rw [check, check, Expression.test, Expression.test, Expression.eval_congr h]
  | .field t, ds, h => by rw [check, check, FieldTest.test_congr h]
  | .all xs, ds, h => by rw [check, check, checkAll_congr xs ds h]
  | .any [], ds, h => by rw [check, check]
  | .any (x :: xs), ds, h => by rw [check, check, checkAny_congr (x :: xs) ds h]
  | .not x, ds, h => by rw [check, check, check_congr x ds h]

theorem checkAll_congr :
    ∀ (xs : List Condition) (ds : List Diagnostic), c.Agree (allRoots xs) d →
    checkAll c xs ds = checkAll d xs ds
  | [], ds, _ => by rw [checkAll, checkAll]
  | x :: xs, ds, h => by
    have hrest := fun ds => checkAll_congr xs ds h.right
    rw [checkAll, checkAll, check_congr x ds h.left]
    simp only [hrest]

theorem checkAny_congr :
    ∀ (xs : List Condition) (ds : List Diagnostic), c.Agree (allRoots xs) d →
    checkAny c xs ds = checkAny d xs ds
  | [], ds, _ => by rw [checkAny, checkAny]
  | x :: xs, ds, h => by
    have hrest := fun ds => checkAny_congr xs ds h.right
    rw [checkAny, checkAny, check_congr x ds h.left]
    simp only [hrest]

end

end Condition

end Rulebook
