import Rulebook.Proofs.Firing.Abort

/-!
Rules that do not fire could as well not be there. A pass that takes some of them out beforehand
goes through the same contexts, and its report is the old one without what it says of them:

    with b, d       a fires    b idle    c fires and ends the pass    d never tried
    without         a fires              c fires and ends the pass

The two passes go in parallel, and the rules that are taken out are turns of the longer one that
leave the context as it is. That a rule fires is said of whole passes, also of those that fail: the
pass walks up to the rule, and there it fires. A rule whose action fails has fired as well.
-/

namespace Rulebook

variable {clock now : Instant} {r s : Rule} {rules : List Rule} {c : Context} {ids : List String}

/-- What is left of a report when nothing is said of some rules that did not fire. -/
def Report.without (ids : List String) (p : Report) : Report :=
  { p with
    evaluated := p.evaluated.filter (· ∉ ids)
    skipped := p.skipped.filter (· ∉ ids)
    diagnostics := p.diagnostics.filter fun d => ¬ ∃ id ∈ ids, d.rule = some id }

namespace Registry

/-- Take out the rules with some ids, one after the other. -/
def removeAll (ids : List String) (g : Registry) : Registry :=
  ids.foldl (fun g id => (g.remove id).2) g

/-- A rule fires in a pass: the pass walks through the rules in front, and the rule fires where that
    leads. -/
def Fired (clock now : Instant) (rules : List Rule) (c : Context) (r : Rule) : Prop :=
  ∃ front back as c', rules = front ++ r :: back ∧ Walk clock now front c as c' ∧
    r.fires now c' = true

/-! ### Rules that fire -/

theorem fired_cons_iff :
    Fired clock now (r :: rules) c s ↔ (s = r ∧ r.fires now c = true) ∨
      ((r.turn clock now c).result = .ok () ∧ r.stops now c = false ∧
        Fired clock now rules (r.turn clock now c).context s) := by
  constructor
  · rintro ⟨front, back, as, c', hrules, hwalk, hs⟩
    cases hwalk with
    | nil =>
      cases hrules
      exact .inl ⟨rfl, hs⟩
    | idle hf hwalk =>
      cases hrules
      rw [Rule.turn_of_not_fires hf]
      exact .inr ⟨rfl, Rule.stops_of_not_fires hf, _, _, _, _, rfl, hwalk, hs⟩
    | fire hf he hr hwalk =>
      cases hrules
      obtain ⟨hok, rfl⟩ := runs_iff.1 hr
      rw [Rule.turn_of_fires hf, Rule.stops_of_fires hf]
      exact .inr ⟨hok, he, _, _, _, _, rfl, hwalk, hs⟩
  · rintro (⟨rfl, hf⟩ | ⟨hok, hstops, front, back, as, c', rfl, hwalk, hs⟩)
    · exact ⟨[], rules, [], c, rfl, .nil, hf⟩
    · cases hf : r.fires now c with
      | false =>
        rw [Rule.turn_of_not_fires hf] at hwalk
        exact ⟨r :: front, back, as, c', rfl, .idle hf hwalk, hs⟩
      | true =>
        rw [Rule.turn_of_fires hf] at hok hwalk
        rw [Rule.stops_of_fires hf] at hstops
        exact ⟨r :: front, back, _, c', rfl, .fire hf hstops (runs_iff.2 ⟨hok, rfl⟩) hwalk,
          hs⟩

theorem Fired.mem (h : Fired clock now rules c r) : r ∈ rules := by
  obtain ⟨front, back, -, -, rfl, -, -⟩ := h
  exact List.mem_append_right _ List.mem_cons_self

/-- A pass that succeeds has reported the rules that fire, and no others. -/
theorem mem_fired_iff {p p' : Report} {id : String}
    (h : (passDetailed clock now rules p c).result = .ok p') :
    id ∈ p'.fired ↔ id ∈ p.fired ∨ ∃ r, Fired clock now rules c r ∧ r.id = id := by
  induction rules generalizing p c with
  | nil =>
    cases h
    constructor
    · exact .inl
    · rintro (hid | ⟨r, hr, -⟩)
      · exact hid
      · cases hr.mem
  | cons r rules ih =>
    have hnote : id ∈ (p.note now r c).fired ↔
        id ∈ p.fired ∨ r.fires now c = true ∧ r.id = id := by
      rw [Report.fired_note]
      cases r.fires now c <;> simp [eq_comm]
    rw [passDetailed_cons_note] at h
    cases hturn : (r.turn clock now c).result with
    | error e => rw [Outcome.andThen_of_error hturn] at h; cases h
    | ok u =>
      rw [Outcome.andThen_of_ok hturn] at h
      simp only [fired_cons_iff, hturn, true_and]
      cases hstops : r.stops now c with
      | true =>
        rw [hstops] at h
        cases h
        rw [hnote]
        simp
      | false =>
        rw [hstops] at h
        rw [ih h, hnote]
        simp [or_and_right, exists_or, or_assoc]

end Registry

/-! ### Reports -/

namespace Report

variable {p : Report}

theorem rule_of_mem_faults {d : Diagnostic} (hd : d ∈ r.faults c) : d.rule = some r.id := by
  obtain ⟨d', -, rfl⟩ := List.mem_map.1 hd
  rfl

/-- A rule that is taken out and does not fire leaves nothing in what is left of the report. -/
theorem without_note_of_mem (hid : r.id ∈ ids) (hf : r.fires now c = false) :
    (p.note now r c).without ids = p.without ids := by
  rw [note, hf]
  cases r.activeAt now with
  | false => simp [without, skip, hid]
  | true =>
    simp [without, evaluate, hid]
    intro d hd
    exact ⟨r.id, hid, rule_of_mem_faults hd⟩

/-- Any other rule leaves the same in both. -/
theorem without_note (hid : r.id ∉ ids) :
    (p.note now r c).without ids = (p.without ids).note now r c := by
  have hfaults : ∀ d ∈ r.faults c, ∀ id ∈ ids, ¬ d.rule = some id := by
    intro d hd id hids h
    rw [rule_of_mem_faults hd] at h
    cases h
    exact hid hids
  rw [note, note]
  cases r.activeAt now with
  | false => simp [without, skip, hid]
  | true =>
    cases r.fires now c with
    | false => simpa [without, evaluate, hid] using hfaults
    | true => cases r.stops now c <;> simpa [without, evaluate, fire, stop, hid] using hfaults

end Report

/-! ### Passes in parallel -/

namespace Registry

/-- Rules that do not fire can be left out of a pass, and of its report. -/
theorem passDetailed_filter {p : Report} (h : ∀ r, Fired clock now rules c r → r.id ∉ ids) :
    passDetailed clock now (rules.filter (·.id ∉ ids)) (p.without ids) c =
      (passDetailed clock now rules p c).map (Report.without ids) := by
  induction rules generalizing p c with
  | nil => rfl
  | cons r rules ih =>
    simp only [fired_cons_iff] at h
    rw [passDetailed_cons_note]
    by_cases hid : r.id ∈ ids
    · -- the turn of a rule that is taken out changes nothing
      have hf : r.fires now c = false := by
        refine Bool.eq_false_iff.2 fun hf => ?_
        exact h r (.inl ⟨rfl, hf⟩) hid
      have hturn : r.turn clock now c = .done c () := Rule.turn_of_not_fires hf
      have hstops : r.stops now c = false := Rule.stops_of_not_fires hf
      rw [List.filter_cons_of_neg (by simp [hid]), ← Report.without_note_of_mem hid hf,
        ih fun s hs => h s (.inr ⟨by rw [hturn]; rfl, hstops, by rw [hturn]; exact hs⟩), hturn,
        hstops]
      rfl
    · rw [List.filter_cons_of_pos (by simp [hid]), passDetailed_cons_note, Outcome.map_andThen,
        ← Report.without_note hid]
      cases hturn : (r.turn clock now c).result with
      | error e => rw [Outcome.andThen_of_error hturn, Outcome.andThen_of_error hturn]
      | ok u =>
        rw [Outcome.andThen_of_ok hturn, Outcome.andThen_of_ok hturn]
        cases hstops : r.stops now c with
        | true => rfl
        | false =>
          have hrest := ih (p := p.note now r c) fun s hs => h s (.inr ⟨hturn, hstops, hs⟩)
          simp only [Bool.false_eq_true, if_false, hrest]

theorem removeAll_rules {g : Registry} (hg : g.order.Nodup) (ids : List String) :
    (g.removeAll ids).rules = g.rules.filter (·.id ∉ ids) := by
  induction ids generalizing g with
  | nil => simp [removeAll]
  | cons id ids ih =>
    have hfirst : (g.remove id).2.rules = g.rules.filter (·.id != id) := eraseP_id hg id
    have hnodup : (g.remove id).2.order.Nodup := by
      rw [order, hfirst]
      exact hg.sublist (List.filter_sublist.map Rule.id)
    have hrest : g.removeAll (id :: ids) = (g.remove id).2.removeAll ids := rfl
    rw [hrest, ih hnodup, hfirst, List.filter_filter]
    congr 1
    funext r
    by_cases hr : r.id = id
    · simp [hr]
    · simp [hr]

/-- Taking out rules that do not fire changes no more than what is said of them. -/
theorem fireDetailed_removeAll {g : Registry} (hg : Reachable g)
    (h : ∀ r ∈ g.rules, r.id ∈ ids → ¬ Fired clock now g.rules c r) :
    (g.removeAll ids).fireDetailed clock now c =
      (g.fireDetailed clock now c).map (Report.without ids) := by
  have hfilter := passDetailed_filter (p := {}) (fun r hr hid => h r hr.mem hid hr)
  rw [← removeAll_rules hg.order_nodup] at hfilter
  exact hfilter

/-- The ids in a report tell which rules of the registry have fired. -/
theorem fired_iff_mem_report {g : Registry} (hg : Reachable g) {p : Report}
    (hp : (g.fireDetailed clock now c).result = .ok p) (hr : r ∈ g.rules) :
    Fired clock now g.rules c r ↔ r.id ∈ p.fired := by
  rw [mem_fired_iff hp]
  constructor
  · intro hf
    exact .inr ⟨r, hf, rfl⟩
  · rintro (hid | ⟨s, hs, hid⟩)
    · cases hid
    · rwa [← List.inj_on_of_nodup_map hg.order_nodup hs.mem hr hid]

/-- INVISIBLE: take out any rules that do not fire in a pass, and the pass does the same. It ends in
    the same context with the same events, it fails with the same failure, and if it succeeds it
    names the same rules as fired, and the same one as having ended it. Its diagnostics are the old
    ones without those of the rules that were taken out. A plain pass is not changed at all. -/
theorem fireDetailed_idle {g : Registry} (hg : Reachable g)
    (h : ∀ r ∈ g.rules, r.id ∈ ids → ¬ Fired clock now g.rules c r) :
    let o := g.fireDetailed clock now c
    let o' := (g.removeAll ids).fireDetailed clock now c
    o'.context = o.context ∧ o'.events = o.events ∧
    (∀ e, o.result = .error e ↔ o'.result = .error e) ∧
    (∀ p, o.result = .ok p → ∃ p', o'.result = .ok p' ∧
      p'.fired = p.fired ∧ p'.stoppedBy = p.stoppedBy ∧
      p'.diagnostics = p.diagnostics.filter (fun d => ¬ ∃ id ∈ ids, d.rule = some id) ∧
      ∀ r ∈ g.rules, Fired clock now g.rules c r ↔ r.id ∈ p.fired) ∧
    (g.removeAll ids).fire clock now c = g.fire clock now c := by
  intro o o'
  have ho : o' = o.map (Report.without ids) := fireDetailed_removeAll hg h
  refine ⟨?_, ?_, ?_, ?_, ?_⟩
  · rw [ho]; rfl
  · rw [ho]; rfl
  · intro e
    rw [ho]
    cases hr : o.result <;> simp [Outcome.map, Except.map, hr]
  · intro p hp
    refine ⟨p.without ids, ?_, rfl, rfl, rfl, fun r hr => fired_iff_mem_report hg hp hr⟩
    rw [ho, Outcome.map, hp]
    rfl
  · rw [fire_eq_map_fireDetailed, fire_eq_map_fireDetailed]
    show o'.map _ = o.map _
    rw [ho, Outcome.map, Outcome.map, Outcome.map]
    cases o.result <;> rfl

/-- A rule whose condition fails to evaluate, and one behind a rule that ends the pass. -/
theorem fireDetailed_idle_two :
    let odd : Condition := .field ⟨"x", .contains, .int 1⟩
    let a : Rule := ⟨"a", "a", none, 3, false, none, none, .all [], []⟩
    let b : Rule := ⟨"b", "b", none, 2, false, none, none, odd, []⟩
    let d : Rule := ⟨"d", "d", none, 1, true, none, none, .not odd, []⟩
    let e : Rule := ⟨"e", "e", none, 0, false, none, none, .all [], []⟩
    let g := after [.register a, .register b, .register d, .register e]
    let c : Context := ⟨[("x", .int 1)]⟩
    let fault (id : String) : Diagnostic :=
      ⟨some id, "x contains 1", .typeMismatch "contains" .stringOrList .int⟩
    Reachable g ∧
    (∀ r ∈ g.rules, r.id ∈ ["e", "b"] → ¬ Fired ⟨0, 0⟩ ⟨0, 0⟩ g.rules c r) ∧
    (g.fireDetailed ⟨0, 0⟩ ⟨0, 0⟩ c).result =
      .ok ⟨["a", "b", "d"], [], ["a", "d"], some "d", [fault "b", fault "d"]⟩ ∧
    ∃ p, ((g.removeAll ["e", "b"]).fireDetailed ⟨0, 0⟩ ⟨0, 0⟩ c).result = .ok p ∧
      p.fired = ["a", "d"] ∧ p.stoppedBy = some "d" ∧ p.diagnostics = [fault "d"] := by
  intro odd a b d e g c fault
  have hg : Reachable g := reachable_after _
  have hrun : (g.fireDetailed ⟨0, 0⟩ ⟨0, 0⟩ c).result =
      .ok ⟨["a", "b", "d"], [], ["a", "d"], some "d", [fault "b", fault "d"]⟩ := by
    unfold g a b d e odd c fault
    cbv
  have hidle : ∀ r ∈ g.rules,
      r.id ∈ ["e", "b"] → ¬ Fired ⟨0, 0⟩ ⟨0, 0⟩ g.rules c r := by
    intro r _ hid hr
    have hfired : r.id ∈ ["a", "d"] := (mem_fired_iff hrun).2 (.inr ⟨r, hr, rfl⟩)
    simp at hid hfired
    rcases hid with hid | hid <;> rw [hid] at hfired <;> simp at hfired
  obtain ⟨-, -, -, hok, -⟩ := fireDetailed_idle hg hidle
  obtain ⟨p, hp, hfired, hstopped, hdiagnostics, -⟩ := hok _ hrun
  refine ⟨hg, hidle, hrun, p, hp, hfired, hstopped, ?_⟩
  rw [hdiagnostics]
  simp [fault]

end Registry

end Rulebook
