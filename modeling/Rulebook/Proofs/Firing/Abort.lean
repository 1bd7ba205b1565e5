import Rulebook.Proofs.Firing.Turn

/-!
What a pass that fails leaves behind. Somewhere there is a rule that fires and an action of it that
fails; everything before that action has been done, and nothing behind it:

    rules      walked by                    r                        never tried
    actions    those that fired, all done   done, ..., done, a       rest
                                                             └─ fails and changes nothing

Nothing is rolled back. The actions that come with the library do all of their work or none of it,
so the context that is left is the one in front of the failing action.
-/

namespace Rulebook

/-! ### Actions that fail -/

/-- Whether an action is a function of the caller, of which nothing is known. -/
def Action.isCustom : Action → Bool
  | custom .. => true
  | _ => false

variable {clock now : Instant} {c c' c₁ c₂ : Context} {e : ActionError}

/-- A draw that fails has changed nothing, whichever candidate it failed at. -/
theorem Lottery.run_of_error {l : Lottery} (h : (l.run clock c).result = .error e) :
    l.run clock c = ⟨c, [], .error e⟩ := by
  unfold Lottery.run at h ⊢
  split at h
  · cases h
  · split at h
    · cases h; rfl
    · cases h
  · cases h; rfl

theorem Action.run_of_error {a : Action} (ha : a.isCustom = false)
    (h : (a.run clock c).result = .error e) : a.run clock c = ⟨c, [], .error e⟩ := by
  cases a with
  | set key x =>
    rw [run] at h ⊢
    cases hx : x.eval c with
    | error cause => rw [hx] at h; cases h; rfl
    | ok v => rw [hx] at h; cases h
  | log message keys => cases h
  | lottery l => exact Lottery.run_of_error h
  | custom name run => cases ha

/-! ### Actions in a row -/

namespace Runs

variable {as bs : List Action}

theorem append (h : Runs clock as c c₁) (h' : Runs clock bs c₁ c₂) :
    Runs clock (as ++ bs) c c₂ := by
  induction h with
  | nil => exact h'
  | cons ha _ ih => exact .cons ha (ih h')

/-- Work behind actions that have all been done goes on in the context they lead to. -/
theorem andThen {β : Type} (h : Runs clock as c c') (f : Unit → Context → Outcome β) :
    (Action.runAll clock as c).andThen f =
      ⟨(f () c').context, (Action.runAll clock as c).events ++ (f () c').events,
        (f () c').result⟩ := by
  obtain ⟨hok, rfl⟩ := runs_iff.1 h
  exact Outcome.andThen_of_ok hok f

theorem runAll_eq (h : Runs clock as c c') :
    Action.runAll clock as c = ⟨c', (Action.runAll clock as c).events, .ok ()⟩ := by
  obtain ⟨hok, hc⟩ := runs_iff.1 h
  rw [← hok, ← hc]

theorem events_append (h : Runs clock as c c₁) :
    (Action.runAll clock (as ++ bs) c).events =
      (Action.runAll clock as c).events ++ (Action.runAll clock bs c₁).events := by
  rw [Action.runAll_append, h.andThen]

end Runs

/-- The first action that fails, behind others that have all been done. -/
theorem Action.exists_of_runAll_error {as : List Action}
    (h : (runAll clock as c).result = .error e) :
    ∃ done a rest c', as = done ++ a :: rest ∧ Runs clock done c c' ∧
      (a.run clock c').result = .error e := by
  induction as generalizing c with
  | nil => cases h
  | cons a as ih =>
    rw [runAll] at h
    cases ha : (a.run clock c).result with
    | error e' =>
      rw [Outcome.andThen_of_error ha] at h
      cases h
      exact ⟨[], a, as, c, rfl, .nil, ha⟩
    | ok u =>
      rw [Outcome.andThen_of_ok ha] at h
      obtain ⟨done, b, rest, c', rfl, hdone, hb⟩ := ih h
      exact ⟨a :: done, b, rest, c', rfl, .cons ha hdone, hb⟩

namespace Registry

variable {rules front back : List Rule} {r : Rule} {as done rest : List Action} {a : Action}

/-! ### Walks -/

/-- A walk through rules from one context to another does the actions of those that fire, in order,
    and succeeds in all of them; no rule ends it. -/
inductive Walk (clock now : Instant) : List Rule → Context → List Action → Context → Prop
  | nil {c : Context} : Walk clock now [] c [] c
  | idle {r : Rule} {rules : List Rule} {c : Context} {as : List Action} {c' : Context} :
      r.fires now c = false → Walk clock now rules c as c' → Walk clock now (r :: rules) c as c'
  | fire {r : Rule} {rules : List Rule} {c c₁ : Context} {as : List Action} {c' : Context} :
      r.fires now c = true → r.exclusive = false → Runs clock r.actions c c₁ →
      Walk clock now rules c₁ as c' → Walk clock now (r :: rules) c (r.actions ++ as) c'

namespace Walk

theorem runs (h : Walk clock now rules c as c') : Runs clock as c c' := by
  induction h with
  | nil => exact .nil
  | idle _ _ ih => exact ih
  | fire _ _ hr _ ih => exact hr.append ih

/-- A pass walks through the rules in front and then goes on with the others. -/
theorem pass (h : Walk clock now front c as c') (rules : List Rule) :
    pass clock now (front ++ rules) c =
      (Action.runAll clock as c).andThen fun _ => Registry.pass clock now rules := by
  induction h with
  | nil => rfl
  | idle hf _ ih =>
    rw [List.cons_append, pass_cons, Rule.turn_of_not_fires hf, Rule.stops_of_not_fires hf]
    exact ih
  | fire hf he hr _ ih =>
    rw [List.cons_append, pass_cons, Rule.turn_of_fires hf, Rule.stops_of_fires hf, he,
      Action.runAll_append, Outcome.andThen_assoc, hr.andThen, hr.andThen]
    rw [← ih]
    rfl

end Walk

/-- The rule at which a pass fails, behind others through which it has walked. -/
theorem exists_of_pass_error (h : (pass clock now rules c).result = .error e) :
    ∃ front r back as c', rules = front ++ r :: back ∧ Walk clock now front c as c' ∧
      r.fires now c' = true ∧ (Action.runAll clock r.actions c').result = .error e := by
  induction rules generalizing c with
  | nil => cases h
  | cons r rules ih =>
    rw [pass_cons] at h
    cases hf : r.fires now c with
    | false =>
      rw [Rule.turn_of_not_fires hf, Rule.stops_of_not_fires hf] at h
      obtain ⟨front, s, back, as, c', rfl, hwalk, hs⟩ := ih h
      exact ⟨r :: front, s, back, as, c', rfl, .idle hf hwalk, hs⟩
    | true =>
      rw [Rule.turn_of_fires hf, Rule.stops_of_fires hf] at h
      cases hr : (Action.runAll clock r.actions c).result with
      | error e' =>
        rw [Outcome.andThen_of_error hr] at h
        cases h
        exact ⟨[], r, rules, [], c, rfl, .nil, hf, hr⟩
      | ok u =>
        rw [Outcome.andThen_of_ok hr] at h
        -- a rule that ends the pass ends it well
        cases he : r.exclusive with
        | true => rw [he] at h; cases h
        | false =>
          rw [he] at h
          obtain ⟨front, s, back, as, c', rfl, hwalk, hs⟩ := ih h
          exact ⟨r :: front, s, back, r.actions ++ as, c', rfl,
            .fire hf he (runs_iff.2 ⟨hr, rfl⟩) hwalk, hs⟩

/-- All of a pass that fails at an action, whatever stands behind that action and its rule. -/
theorem pass_of_failure (hwalk : Walk clock now front c as c₁) (hf : r.fires now c₁ = true)
    (hactions : r.actions = done ++ a :: rest) (hdone : Runs clock done c₁ c₂)
    (ha : a.run clock c₂ = ⟨c₂, [], .error e⟩) :
    pass clock now (front ++ r :: back) c =
      ⟨c₂, (Action.runAll clock (as ++ done) c).events, .error e⟩ := by
  have hrest : Action.runAll clock (a :: rest) c₂ = ⟨c₂, [], .error e⟩ := by
    rw [Action.runAll, ha, Outcome.andThen_of_error rfl]
  have hturn : r.turn clock now c₁ =
      ⟨c₂, (Action.runAll clock done c₁).events, .error e⟩ := by
    rw [Rule.turn_of_fires hf, hactions, Action.runAll_append, hdone.andThen, hrest,
      List.append_nil]
  rw [hwalk.pass, hwalk.runs.andThen, hwalk.runs.events_append, pass_cons, hturn,
    Outcome.andThen_of_error rfl]

/-- ABORTED: if a pass fails, then an action `a` of a rule `r` failed, which fired behind rules that
    did not end the pass. The actions of those before it that fired have all been done, and so have
    those of `r` before `a`; the context and the events are what they left, and `a` added nothing.
    What stands behind `a` and behind `r` makes no difference. -/
theorem fire_aborted {g : Registry}
    (hg : ∀ r ∈ g.rules, ∀ a ∈ r.actions, a.isCustom = false)
    (h : (g.fire clock now c).result = .error e) :
    ∃ front r back as done a rest c₁ c₂,
      g.rules = front ++ r :: back ∧ Walk clock now front c as c₁ ∧
      r.fires now c₁ = true ∧
      r.actions = done ++ a :: rest ∧ Runs clock done c₁ c₂ ∧
      a.run clock c₂ = ⟨c₂, [], .error e⟩ ∧
      Action.runAll clock (as ++ done) c = ⟨c₂, (g.fire clock now c).events, .ok ()⟩ ∧
      (g.fire clock now c).context = c₂ ∧
      ∀ back' rest',
        pass clock now (front ++ { r with actions := done ++ a :: rest' } :: back') c =
          g.fire clock now c := by
  obtain ⟨front, r, back, as, c₁, hrules, hwalk, hf, hr⟩ := exists_of_pass_error h
  obtain ⟨done, a, rest, c₂, hactions, hdone, ha⟩ := Action.exists_of_runAll_error hr
  have hmem : a.isCustom = false := by
    refine hg r ?_ a ?_
    · rw [hrules]; exact List.mem_append_right _ List.mem_cons_self
    · rw [hactions]; exact List.mem_append_right _ List.mem_cons_self
  have ha' := Action.run_of_error hmem ha
  have hfire : g.fire clock now c =
      ⟨c₂, (Action.runAll clock (as ++ done) c).events, .error e⟩ := by
    rw [fire, hrules]
    exact pass_of_failure hwalk hf hactions hdone ha'
  refine ⟨front, r, back, as, done, a, rest, c₁, c₂, hrules, hwalk, hf, hactions, hdone, ha',
    ?_, ?_, ?_⟩
  · rw [hfire]
    exact (hwalk.runs.append hdone).runAll_eq
  · rw [hfire]
  · intro back' rest'
    rw [hfire]
    exact pass_of_failure hwalk hf rfl hdone ha'

/-- A rule that reads a name without a value between a write and a message of its own, behind a rule
    that writes and in front of one that does not come to be tried. -/
theorem fire_aborted_unbound :
    let two : Expression := ⟨"2", .literal (.int 2), by cbv⟩
    let z : Expression := ⟨"z", .path "z" [], by cbv⟩
    let g : Registry := ⟨[⟨"a", "a", none, 2, false, none, none, .all [], [.set "x.y" two]⟩,
      ⟨"b", "b", none, 1, true, none, none, .field ⟨"x.y", .compare .eq, .int 2⟩,
        [.log "go" ["x.y"], .set "w" z, .log "on" []]⟩,
      ⟨"c", "c", none, 0, false, none, none, .all [], [.set "v" two]⟩]⟩
    let e : ActionError := .eval "set w" (.unboundVariable "z")
    (∀ r ∈ g.rules, ∀ a ∈ r.actions, a.isCustom = false) ∧
    (g.fire ⟨0, 0⟩ ⟨0, 0⟩ .empty).result = .error e ∧
    ∃ r ∈ g.rules, ∃ a ∈ r.actions, ∃ c, a.run ⟨0, 0⟩ c = ⟨c, [], .error e⟩ ∧
      (g.fire ⟨0, 0⟩ ⟨0, 0⟩ .empty).context = c := by
  intro two z g e
  have hg : ∀ r ∈ g.rules, ∀ a ∈ r.actions, a.isCustom = false := by
    simp [g, Action.isCustom]
  have h : (g.fire ⟨0, 0⟩ ⟨0, 0⟩ .empty).result = .error e := rfl
  obtain ⟨front, r, back, as, done, a, rest, c₁, c₂, hrules, -, -, hactions, -, ha, -,
    hc, -⟩ := fire_aborted hg h
  refine ⟨hg, h, r, ?_, a, ?_, c₂, ha, hc⟩
  · rw [hrules]; exact List.mem_append_right _ List.mem_cons_self
  · rw [hactions]; exact List.mem_append_right _ List.mem_cons_self

end Registry

end Rulebook
