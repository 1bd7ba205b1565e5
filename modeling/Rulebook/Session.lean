import Rulebook.Registry.Firing

/-!
A session is all of it in one go: read an expression, build a registry, fire it once, and test the
expression in the context that is left. Each step can end the session, and the context that is left
is part of the answer then as well.
-/

namespace Rulebook

/-- Why a session ended early. -/
inductive SessionError where
  | expression (e : SourceError)
  | config (e : ConfigError)
  | eval (e : EvalError)
  | action (e : ActionError)

/-- The message of any kind of failure. -/
def SessionError.message : SessionError → String
  | .expression e => e.message
  | .config e => e.message
  | .eval e => e.message
  | .action e => e.message

/-- What a session leaves behind. -/
structure Session where
  context : Context
  events : List Event
  result : Except SessionError Bool

/-- Run a session up to its first failure. -/
def Session.run (clock now : Instant) (source : String) (drafts : List Draft) (ctx : Context) :
    Session :=
  match Expression.ofSource source with
  | .error e => ⟨ctx, [], .error (.expression e)⟩
  | .ok expression =>
    match Registry.ofDrafts drafts with
    | .error e => ⟨ctx, [], .error (.config e)⟩
    | .ok registry =>
      let o := registry.fire clock now ctx
      match o.result with
      | .error e => ⟨o.context, o.events, .error (.action e)⟩
      | .ok _ =>
        match expression.test o.context with
        | .error e => ⟨o.context, o.events, .error (.eval e)⟩
        | .ok b => ⟨o.context, o.events, .ok b⟩

end Rulebook
