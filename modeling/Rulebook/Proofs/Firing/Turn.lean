import Rulebook.Proofs.Firing

/-!
One turn of a pass is what a rule does when it comes to be tried: it runs its actions if it fires,
and nothing else. Both kinds of pass are turns in a row, and they differ in what they write down
only:

    plain       turn r₁,           turn r₂,           turn r₃, ...
    detailed    turn r₁, note r₁,  turn r₂, note r₂,  turn r₃, ...

up to a rule that stops the pass.

The plain pass looks at conditions with no diagnostics at hand and the detailed one with those of
all rules before, so the two meet in that the answer of a condition does not depend on them.
-/

namespace Rulebook

/-! ### Work in a row -/

namespace Outcome

variable {α β γ : Type}

/-- The same work with another result. -/
def map (f : α → β) (o : Outcome α) : Outcome β := ⟨o.context, o.events, o.result.map f⟩

theorem andThen_of_error {o : Outcome α} {e : ActionError} (h : o.result = .error e)
    (f : α → Context → Outcome β) : o.andThen f = ⟨o.context, o.events, .error e⟩ := by
  rw [andThen, h]

theorem andThen_of_ok {o : Outcome α} {a : α} (h : o.result = .ok a)
    (f : α → Context → Outcome β) :
    o.andThen f =
      ⟨(f a o.context).context, o.events ++ (f a o.context).events,
        (f a o.context).result⟩ := by
  rw [andThen, h]

theorem andThen_assoc (o : Outcome α) (f : α → Context → Outcome β)
    (g : β → Context → Outcome γ) :
    (o.andThen f).andThen g = o.andThen fun a c => (f a c).andThen g := by
  cases ho : o.result with
  | error e => rw [andThen_of_error ho, andThen_of_error ho, andThen_of_error rfl]
  | ok a =>
    rw [andThen_of_ok ho, andThen_of_ok ho]
    cases hf : (f a o.context).result with
    | error e => rw [andThen_of_error rfl, andThen_of_error hf]
    | ok b => rw [andThen_of_ok rfl, andThen_of_ok hf, List.append_assoc]

theorem map_andThen (o : Outcome α) (f : α → Context → Outcome β) (g : β → γ) :
    (o.andThen f).map g = o.andThen fun a c => (f a c).map g := by
  cases ho : o.result with
  | error e => rw [andThen_of_error ho, andThen_of_error ho]; rfl
  | ok a => rw [andThen_of_ok ho, andThen_of_ok ho]; rfl

end Outcome

theorem Action.runAll_append (clock : Instant) (as bs : List Action) (c : Context) :
    runAll clock (as ++ bs) c = (runAll clock as c).andThen fun _ => runAll clock bs := by
  induction as generalizing c with
  | nil => rfl
  | cons a as ih =>
    rw [List.cons_append, runAll, runAll, Outcome.andThen_assoc]
    congr 1
    funext _ c'
    exact ih c'

/-! ### Turns -/

/-- What a rule does when it is tried: it runs its actions, if it fires. -/
def Rule.turn (clock now : Instant) (r : Rule) (c : Context) : Outcome Unit :=
  if r.fires now c then Action.runAll clock r.actions c else .done c ()

/-- The report with a rule that has been tried. -/
def Report.note (now : Instant) (r : Rule) (c : Context) (p : Report) : Report :=
  if !r.activeAt now then p.skip r.id
  else
    let p := p.evaluate r.id (p.diagnostics ++ r.faults c)
    if !r.fires now c then p
    else if r.stops now c then (p.fire r.id).stop r.id
    else p.fire r.id

namespace Rule

variable {now : Instant} {r : Rule} {c : Context}

theorem fires_of_inactive (h : r.activeAt now = false) : r.fires now c = false := by
  rw [fires, h, Bool.false_and]

theorem fires_of_active (h : r.activeAt now = true) : r.fires now c = r.condition.holds c := by
  rw [fires, h, Bool.true_and]

theorem stops_of_not_fires (h : r.fires now c = false) : r.stops now c = false := by
  rw [stops, h, Bool.and_false]

theorem stops_of_fires (h : r.fires now c = true) : r.stops now c = r.exclusive := by
  rw [stops, h, Bool.and_true]

theorem turn_of_fires {clock : Instant} (h : r.fires now c = true) :
    r.turn clock now c = Action.runAll clock r.actions c := if_pos h

theorem turn_of_not_fires {clock : Instant} (h : r.fires now c = false) :
    r.turn clock now c = .done c () := by rw [turn, h]; rfl

end Rule

theorem Report.fired_note {now : Instant} {r : Rule} {c : Context} {p : Report} :
    (p.note now r c).fired = if r.fires now c then p.fired ++ [r.id] else p.fired := by
  rw [note]
  cases ha : r.activeAt now with
  | false => rw [Rule.fires_of_inactive ha]; rfl
  | true =>
    cases hf : r.fires now c with
    | false => rfl
    | true => cases r.stops now c <;> rfl

namespace Registry

variable {clock now : Instant} {r : Rule} {rules : List Rule} {c : Context} {p : Report}

theorem pass_cons :
    pass clock now (r :: rules) c = (r.turn clock now c).andThen fun _ c' =>
      if r.stops now c then .done c' () else pass clock now rules c' := by
  rw [pass, Rule.check_eq]
  cases ha : r.activeAt now with
  | false =>
    have hf : r.fires now c = false := Rule.fires_of_inactive ha
    rw [Rule.turn_of_not_fires hf, Rule.stops_of_not_fires hf]
    rfl
  | true =>
    have hf : r.fires now c = r.condition.holds c := Rule.fires_of_active ha
    cases hc : r.condition.holds c with
    | false =>
      rw [hc] at hf
      rw [Rule.turn_of_not_fires hf, Rule.stops_of_not_fires hf]
      rfl
    | true =>
      rw [hc] at hf
      rw [Rule.turn_of_fires hf, Rule.stops_of_fires hf]
      rfl

theorem passDetailed_cons_note :
    passDetailed clock now (r :: rules) p c = (r.turn clock now c).andThen fun _ c' =>
      if r.stops now c then .done c' (p.note now r c)
      else passDetailed clock now rules (p.note now r c) c' := by
  rw [passDetailed, Rule.check_eq]
  cases ha : r.activeAt now with
  | false =>
    have hf : r.fires now c = false := Rule.fires_of_inactive ha
    rw [Rule.turn_of_not_fires hf, Rule.stops_of_not_fires hf, Report.note, ha]
    rfl
  | true =>
    have hf : r.fires now c = r.condition.holds c := Rule.fires_of_active ha
    rw [Report.note, ha]
    cases hc : r.condition.holds c with
    | false =>
      rw [hc] at hf
      rw [Rule.turn_of_not_fires hf, Rule.stops_of_not_fires hf, hf]
      rfl
    | true =>
      rw [hc] at hf
      rw [Rule.turn_of_fires hf, Rule.stops_of_fires hf, hf]
      cases r.exclusive <;> rfl

/-- The detailed pass is the plain one with a report, whatever the report says already. -/
theorem pass_eq_map_passDetailed :
    pass clock now rules c = (passDetailed clock now rules p c).map fun _ => () := by
  induction rules generalizing p c with
  | nil => rfl
  | cons r rules ih =>
    rw [pass_cons, passDetailed_cons_note, Outcome.map_andThen]
    congr 1
    funext _ c'
    cases r.stops now c with
    | true => rfl
    | false => exact ih

theorem fire_eq_map_fireDetailed (g : Registry) :
    g.fire clock now c = (g.fireDetailed clock now c).map fun _ => () :=
  pass_eq_map_passDetailed

/-- AGREES: a plain and a detailed pass from one context end in one context with the same events.
    They succeed together, and fail together with the same failure. -/
theorem fire_agrees (g : Registry) (clock now : Instant) (c : Context) :
    let plain := g.fire clock now c
    let detailed := g.fireDetailed clock now c
    plain.context = detailed.context ∧ plain.events = detailed.events ∧
      (plain.result = .ok () ↔ ∃ p, detailed.result = .ok p) ∧
      ∀ e, plain.result = .error e ↔ detailed.result = .error e := by
  intro plain detailed
  have h : plain = detailed.map fun _ => () := pass_eq_map_passDetailed
  have hresult : plain.result = detailed.result.map fun _ => () := congrArg Outcome.result h
  refine ⟨congrArg Outcome.context h, congrArg Outcome.events h, ?_, fun e => ?_⟩
  · rw [hresult]
    cases detailed.result <;> simp [Except.map]
  · rw [hresult]
    cases detailed.result <;> simp [Except.map]

end Registry

end Rulebook
