import Rulebook.Context
import Rulebook.Expr.EvalError
import Rulebook.Instant.Stamp

/-!
What a piece of work on a context leaves behind: the context as it is then, the events that were
logged, and either a result or the failure that ended it. Work that fails keeps what it had done
before; nothing is rolled back.

    context ──▶ first ──▶ context ──▶ second ──▶ context
                  │ events              │ events
                  └─ a failure ends the work here
-/

namespace Rulebook

/-- Why an entry or a list of entries cannot take part in a draw. -/
inductive EntryFault where
  | noList (found : Kind)
  | noRecord (found : Kind)
  | outOfRange (millis : Int64)
  | badStamp (text : String) (cause : StampError)
  | noTime (field : String) (found : Kind)
  deriving DecidableEq, Repr

/-- The message of a fault. -/
def EntryFault.message : EntryFault → String
  | noList found => "expected a list, found " ++ found.text
  | noRecord found => "expected a map or object, found " ++ found.text
  | outOfRange millis => "timestamp " ++ integerText millis ++ " is out of range"
  | badStamp text cause => "invalid timestamp '" ++ text ++ "': " ++ cause.message
  | noTime field found =>
    "expected epoch milliseconds or RFC 3339 text in '" ++ field ++ "', found " ++ found.text

/-- Why an action failed. -/
inductive ActionError where
  | eval (action : String) (cause : EvalError)
  | invalidInput (action key : String) (cause : EntryFault)
  | failed (action message : String)
  deriving DecidableEq, Repr

/-- The message of a failure. -/
def ActionError.message : ActionError → String
  | eval action cause =>
    "action '" ++ action ++ "' could not evaluate its expression: " ++ cause.message
  | invalidInput action key cause =>
    "action '" ++ action ++ "' found invalid input at '" ++ key ++ "': " ++ cause.message
  | failed action message => "action '" ++ action ++ "' failed: " ++ message

/-- A logged message with the values that were asked for. -/
structure Event where
  message : String
  values : String
  deriving DecidableEq, Repr

/-- What a piece of work leaves behind. -/
structure Outcome (α : Type) where
  context : Context
  events : List Event
  result : Except ActionError α

namespace Outcome

/-- Work that does nothing. -/
def done {α : Type} (ctx : Context) (a : α) : Outcome α := ⟨ctx, [], .ok a⟩

/-- Go on from where a piece of work ended, unless it failed. -/
def andThen {α β : Type} (o : Outcome α) (f : α → Context → Outcome β) : Outcome β :=
  match o.result with
  | .error e => ⟨o.context, o.events, .error e⟩
  | .ok a =>
    let next := f a o.context
    ⟨next.context, o.events ++ next.events, next.result⟩

end Outcome

end Rulebook
