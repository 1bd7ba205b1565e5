import Rulebook.Rule

/-!
A registry holds rules in the order in which they fire: by falling priority, and among equals in the
order in which they came. No two rules of it have one id.

    register   before the first rule of a lower priority, which is found by halving
    remove     takes one rule out and leaves the rest in order
    clear      takes out all
-/

namespace Rulebook

/-- Rules in firing order. -/
structure Registry where
  rules : List Rule

namespace Registry

/-- The registry without rules. -/
def empty : Registry := ⟨[]⟩

/-- The ids in firing order. -/
def order (g : Registry) : List String := g.rules.map Rule.id

/-- The rule with an id. -/
def get? (id : String) (g : Registry) : Option Rule := g.rules.find? (·.id == id)

/-- The number of rules. -/
def size (g : Registry) : Nat := g.rules.length

/-- Where a test that holds up to some place and not from there on turns, between `lo` and `hi`:
    half of what is left is ruled out each time. -/
def turn (test : Rule → Bool) (rules : List Rule) (lo hi : Nat) : Nat :=
  if lo < hi then
    let mid := (lo + hi) / 2
    if (rules[mid]?).any test then turn test rules (mid + 1) hi else turn test rules lo mid
  else lo
termination_by hi - lo

/-- Put a rule behind all rules of its own priority or a higher one. -/
def place (r : Rule) (rules : List Rule) : List Rule :=
  rules.insertIdx (turn (fun s => r.priority ≤ s.priority) rules 0 rules.length) r

/-- Add a rule, unless its id is taken. -/
def register (r : Rule) (g : Registry) : Except ConfigError Registry :=
  if g.rules.any (·.id == r.id) then .error (.duplicateRule r.id) else .ok ⟨place r g.rules⟩

/-- Take out the rule with an id. -/
def remove (id : String) (g : Registry) : Option Rule × Registry :=
  (g.get? id, ⟨g.rules.eraseP (·.id == id)⟩)

/-- Take out every rule. -/
def clear (_ : Registry) : Registry := empty

/-- Finish drafts and register their rules one after the other, up to the first fault. -/
def addAll : List Draft → Registry → Except ConfigError Registry
  | [], g => .ok g
  | d :: ds, g =>
    match d.finish with
    | .error e => .error e
    | .ok r =>
      match g.register r with
      | .error e => .error e
      | .ok g => addAll ds g

/-- The registry of a list of drafts. -/
def ofDrafts (ds : List Draft) : Except ConfigError Registry := addAll ds empty

/-- A registry as it is shown. -/
def text (g : Registry) : String :=
  "RuleEngine(" ++ toString g.size ++ " rules, " ++
    toString (g.rules.countP Rule.exclusive) ++ " exclusive)"

end Registry

end Rulebook
