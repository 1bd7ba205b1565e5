import Rulebook.Expression
import Rulebook.Lottery

/-!
Actions are what a rule does when it fires: write the value of an expression to a path, log a
message with the values at some paths, draw a lottery, or run a function of the caller. The first
three either do all of their work or none of it; a function may fail half way.
-/

namespace Rulebook

/-- A piece of work on a context. -/
inductive Action where
  | set (key : String) (e : Expression)
  | log (message : String) (keys : List String)
  | lottery (l : Lottery)
  | custom (name : String) (run : Context → Outcome Unit)

namespace Action

/-- The name of an action in messages. -/
def name : Action → String
  | set key _ => "set " ++ key
  | log .. => "log"
  | lottery l => l.name
  | custom name _ => name

/-- An action as it is shown: an assignment for one that writes, the name for any other. -/
def text : Action → String
  | set key e => key ++ " = " ++ e.source
  | a => a.name

/-- The values at some paths, each behind its path; what is missing shows as null. -/
def rendered (ctx : Context) (keys : List String) : String :=
  " ".intercalate (keys.map fun k => k ++ "=" ++ ((ctx.get k).getD .null).text)

/-- Run an action; `clock` is what the clock shows. -/
def run (clock : Instant) (a : Action) (ctx : Context) : Outcome Unit :=
  match a with
  | set key e =>
    match e.eval ctx with
    | .error cause => ⟨ctx, [], .error (.eval a.name cause)⟩
    | .ok v => .done (ctx.insert key v) ()
  | log message keys => ⟨ctx, [⟨message, rendered ctx keys⟩], .ok ()⟩
  | lottery l => l.run clock ctx
  | custom _ run => run ctx

/-- Run actions one after the other, up to the first that fails. -/
def runAll (clock : Instant) : List Action → Context → Outcome Unit
  | [], ctx => .done ctx ()
  | a :: as, ctx => (a.run clock ctx).andThen fun _ => runAll clock as

end Action

end Rulebook
