import Rulebook.Condition.FieldTest
import Rulebook.Expression

/-!
Conditions decide whether a rule fires. Their leaves are expressions and field tests; a leaf that
fails to evaluate counts as false and leaves a diagnostic. Children are tried from the left, and the
rest of them is passed over once the answer is known:

    all    until the first false child          all []  is true
    any    until the first true child           any []  is true
    not    its one child
-/

namespace Rulebook

/-! ### Faults and failures -/

/-- Why a condition, a rule or a registry cannot be built. All of it shows while they are built,
    none of it while rules fire. -/
inductive ConfigError where
  | missingId
  | notArity (found : Nat)
  | invalidExpression (rule source : String) (cause : SourceError)
  | invalidWindow (rule : String)
  | duplicateRule (id : String)
  deriving DecidableEq

/-- The message of a cause. -/
def ConfigError.message : ConfigError → String
  | missingId => "rule id is required"
  | notArity found => "NOT takes exactly one condition, got " ++ toString found
  | invalidExpression rule source cause =>
    "invalid expression '" ++ source ++ "' in rule '" ++ rule ++ "': " ++ cause.message
  | invalidWindow rule => "rule '" ++ rule ++ "' has effective_from after effective_until"
  | duplicateRule id => "duplicate rule id '" ++ id ++ "'"

/-- A failure that was counted as false: what failed, why, and in which rule. -/
structure Diagnostic where
  rule : Option String
  subject : String
  error : EvalError
  deriving DecidableEq, Repr

/-- A diagnostic as it is shown, behind its rule if it has one. -/
def Diagnostic.text (d : Diagnostic) : String :=
  let rule := match d.rule with
    | some r => "rule '" ++ r ++ "': "
    | none => ""
  rule ++ d.subject ++ " => " ++ d.error.message

/-- The same diagnostic with the rule that it belongs to. -/
def Diagnostic.tag (rule : String) (d : Diagnostic) : Diagnostic := { d with rule := some rule }

/-! ### Conditions -/

/-- A condition: an expression or a field test, or conditions combined. -/
inductive Condition where
  | expr (e : Expression)
  | field (t : FieldTest)
  | all (cs : List Condition)
  | any (cs : List Condition)
  | not (c : Condition)

/-- How children are combined. -/
inductive Connective where | and | or | not
  deriving DecidableEq, Repr

/-- The truth value of a leaf, and the diagnostics with its own one behind them. -/
def downgrade (subject : String) (result : Except EvalError Bool) (ds : List Diagnostic) :
    Bool × List Diagnostic :=
  match result with
  | .ok b => (b, ds)
  | .error e => (false, ds ++ [⟨none, subject, e⟩])

namespace Condition

/-- The condition that the text of an expression is. -/
def ofSource (source : String) : Except SourceError Condition :=
  (Expression.ofSource source).map expr

/-- Children under a connective; only one can be negated. -/
def composite : Connective → List Condition → Except ConfigError Condition
  | .and, cs => .ok (all cs)
  | .or, cs => .ok (any cs)
  | .not, [c] => .ok (not c)
  | .not, cs => .error (.notArity cs.length)

mutual

/-- The truth value of a condition, with its diagnostics added to those that are there. -/
def check (ctx : Context) : Condition → List Diagnostic → Bool × List Diagnostic
  | expr e, ds => downgrade e.source (e.test ctx) ds
  | field t, ds => downgrade t.text (t.test ctx) ds
  | all cs, ds => checkAll ctx cs ds
  | any [], ds => (true, ds)
  | any (c :: cs), ds => checkAny ctx (c :: cs) ds
  | not c, ds =>
    let (b, ds) := check ctx c ds
    (!b, ds)

/-- Children up to the first false one. -/
def checkAll (ctx : Context) : List Condition → List Diagnostic → Bool × List Diagnostic
  | [], ds => (true, ds)
  | c :: cs, ds =>
    let (b, ds) := check ctx c ds
    if b then checkAll ctx cs ds else (false, ds)

/-- Children up to the first true one. -/
def checkAny (ctx : Context) : List Condition → List Diagnostic → Bool × List Diagnostic
  | [], ds => (false, ds)
  | c :: cs, ds =>
    let (b, ds) := check ctx c ds
    if b then (true, ds) else checkAny ctx cs ds

end

/-- The truth value alone. -/
def holds (ctx : Context) (c : Condition) : Bool := (check ctx c []).1

mutual

/-- A condition as it is shown. -/
def text : Condition → String
  | expr e => e.source
  | field t => t.text
  | all [] => "and()"
  | all (c :: cs) => "(" ++ " AND ".intercalate (texts (c :: cs)) ++ ")"
  | any [] => "or()"
  | any (c :: cs) => "(" ++ " OR ".intercalate (texts (c :: cs)) ++ ")"
  | not c => "(NOT " ++ text c ++ ")"

/-- Children, one by one. -/
def texts : List Condition → List String
  | [] => []
  | c :: cs => text c :: texts cs

end

end Condition

end Rulebook
