import Rulebook.Action
import Rulebook.Condition
import Rulebook.Text

/-!
A rule is a condition with actions. It has a priority, it may be valid only from one instant to
another, both included, and it may be exclusive, which ends a pass when it fires.

    vip (priority 10, exclusive): total > 100 => [set price, log]

A draft is a rule that has not been checked. Texts of expressions stand in it as they were given and
are read when the draft is finished. Of several faults the first of this list is reported:

    1  the id is missing or blank
    2  the validity ends before it begins
    3  the condition's text is no expression
    4  an action's text is no expression, from the left
-/

namespace Rulebook

/-- A rule that has been checked. -/
structure Rule where
  id : String
  name : String
  description : Option String
  priority : Int
  exclusive : Bool
  validFrom : Option Instant
  validUntil : Option Instant
  condition : Condition
  actions : List Action

namespace Rule

/-- Whether an instant lies in the validity of a rule; a bound that is missing is open. -/
def activeAt (now : Instant) (r : Rule) : Bool :=
  r.validFrom.all (· ≤ now) && r.validUntil.all (now ≤ ·)

/-- Whether the condition holds, with its own diagnostics, tagged, behind those that are there. -/
def check (ctx : Context) (r : Rule) (ds : List Diagnostic) : Bool × List Diagnostic :=
  let (b, ds') := r.condition.check ctx ds
  (b, ds'.take ds.length ++ (ds'.drop ds.length).map (·.tag r.id))

/-- A rule as it is shown. -/
def text (r : Rule) : String :=
  r.id ++ " (priority " ++ toString r.priority ++ (if r.exclusive then ", exclusive" else "") ++
    "): " ++ r.condition.text ++ " => [" ++ ", ".intercalate (r.actions.map Action.name) ++ "]"

end Rule

/-! ### Drafts -/

/-- A condition, or the text of one. -/
inductive DraftCondition where
  | ready (c : Condition)
  | source (s : String)

/-- An action, or the path and the expression's text of one that writes. -/
inductive DraftAction where
  | ready (a : Action)
  | set (key source : String)

/-- What is known of a rule so far. -/
structure Draft where
  id : Option String := none
  name : Option String := none
  description : Option String := none
  priority : Int := 0
  exclusive : Bool := false
  validFrom : Option Instant := none
  validUntil : Option Instant := none
  condition : Option DraftCondition := none
  actions : List DraftAction := []

namespace Draft

/-- The expression that a text in rule `id` spells. -/
def readIn (id source : String) : Except ConfigError Expression :=
  match Expression.ofSource source with
  | .ok e => .ok e
  | .error cause => .error (.invalidExpression id source cause)

/-- A draft without a condition always fires. -/
def finishCondition (id : String) : Option DraftCondition → Except ConfigError Condition
  | none => .ok (.all [])
  | some (.ready c) => .ok c
  | some (.source s) => (readIn id s).map .expr

/-- An action, once its text is read. -/
def finishAction (id : String) : DraftAction → Except ConfigError Action
  | .ready a => .ok a
  | .set key s => (readIn id s).map (.set key)

/-- Actions from the left, up to the first fault. -/
def finishActions (id : String) : List DraftAction → Except ConfigError (List Action)
  | [] => .ok []
  | a :: as =>
    match finishAction id a with
    | .error e => .error e
    | .ok b => (finishActions id as).map (b :: ·)

/-- Whether the validity ends before it begins. -/
def inverted (d : Draft) : Bool :=
  match d.validFrom, d.validUntil with
  | some a, some b => !(a ≤ b : Bool)
  | _, _ => false

/-- The rule of a draft; its name is its id unless it has one. -/
def finish (d : Draft) : Except ConfigError Rule :=
  match d.id.filter (!isBlankText ·) with
  | none => .error .missingId
  | some id =>
    if d.inverted then .error (.invalidWindow id)
    else
      match finishCondition id d.condition with
      | .error e => .error e
      | .ok condition =>
        match finishActions id d.actions with
        | .error e => .error e
        | .ok actions =>
          .ok { id, name := d.name.getD id, description := d.description, priority := d.priority,
                exclusive := d.exclusive, validFrom := d.validFrom, validUntil := d.validUntil,
                condition, actions }

end Draft

end Rulebook
