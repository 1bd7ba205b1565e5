import Rulebook.Registry

/-!
One pass over a registry. The rules are tried in order, each in the context that the ones before it
left: a rule that is not valid now is passed over, one whose condition does not hold does nothing,
and one that matches runs its actions. An action that fails ends the pass with its failure, an
exclusive rule that has matched ends it well.

    a rule ── not active ──▶ skipped
           ── no match ────▶ evaluated
           ── match ───────▶ evaluated and fired, the end if exclusive

`fire` is the pass alone. `fireDetailed` is the pass that also keeps a report. Windows are checked
against `now`; lotteries go by the clock, which may show another time.
-/

namespace Rulebook

/-- What a pass did: which rules were evaluated, skipped and fired, which one ended it, and the
    failures that were counted as false. -/
structure Report where
  evaluated : List String := []
  skipped : List String := []
  fired : List String := []
  stoppedBy : Option String := none
  diagnostics : List Diagnostic := []
  deriving DecidableEq, Repr

namespace Report

/-- Record a rule that is not valid. -/
def skip (id : String) (p : Report) : Report := { p with skipped := p.skipped ++ [id] }

/-- Record a rule that was evaluated, with the diagnostics as they are after it. -/
def evaluate (id : String) (ds : List Diagnostic) (p : Report) : Report :=
  { p with evaluated := p.evaluated ++ [id], diagnostics := ds }

/-- Record a rule that has matched. -/
def fire (id : String) (p : Report) : Report := { p with fired := p.fired ++ [id] }

/-- Record the rule that ends the pass. -/
def stop (id : String) (p : Report) : Report := { p with stoppedBy := some id }

/-- A report as it is shown. -/
def text (p : Report) : String :=
  let listed (ids : List String) := "[" ++ ", ".intercalate ids ++ "]"
  "fired: " ++ listed p.fired ++
    (match p.stoppedBy with
      | some id => " (stopped by '" ++ id ++ "')"
      | none => "") ++
    ", evaluated: " ++ listed p.evaluated ++
    (if p.skipped.isEmpty then "" else ", skipped: " ++ listed p.skipped) ++
    (if p.diagnostics.isEmpty then "" else ", diagnostics: " ++ toString p.diagnostics.length)

end Report

namespace Registry

/-- The plain pass over rules in order. -/
def pass (clock now : Instant) : List Rule → Context → Outcome Unit
  | [], ctx => .done ctx ()
  | r :: rules, ctx =>
    if !r.activeAt now then pass clock now rules ctx
    else if !(r.check ctx []).1 then pass clock now rules ctx
    else (Action.runAll clock r.actions ctx).andThen fun _ ctx =>
      if r.exclusive then .done ctx () else pass clock now rules ctx

/-- The pass over rules in order that adds to a report. -/
def passDetailed (clock now : Instant) : List Rule → Report → Context → Outcome Report
  | [], p, ctx => .done ctx p
  | r :: rules, p, ctx =>
    if !r.activeAt now then passDetailed clock now rules (p.skip r.id) ctx
    else
      let (matched, ds) := r.check ctx p.diagnostics
      let p := p.evaluate r.id ds
      if !matched then passDetailed clock now rules p ctx
      else (Action.runAll clock r.actions ctx).andThen fun _ ctx =>
        if r.exclusive then .done ctx ((p.fire r.id).stop r.id)
        else passDetailed clock now rules (p.fire r.id) ctx

/-- One plain pass. -/
def fire (clock now : Instant) (g : Registry) (ctx : Context) : Outcome Unit :=
  pass clock now g.rules ctx

/-- One pass with its report. -/
def fireDetailed (clock now : Instant) (g : Registry) (ctx : Context) : Outcome Report :=
  passDetailed clock now g.rules {} ctx

end Registry

end Rulebook
