import Mathlib
import Rulebook.Proofs.Conditions
import Rulebook.Proofs.Registry
import Rulebook.Registry.Firing

/-!
What a pass does, told without the loop. Rules are numbered in firing order, and there is a context
before each of them and one behind the last that was tried:

    c 0 ──r 1──▶ c 1 ──r 2──▶ c 2 ── ... ──r m──▶ c m

A rule that matches in the context before it leads to the next one by its actions, any other leaves
the context as it is, and `m` is the number of the first exclusive rule that matched. The report
says which rules were tried, each in its own context.

The invariant of the loop: the report is the account of the rules that were tried so far, and none
of them has ended the pass.
-/

namespace Rulebook

/-! ### What a rule does in a context -/

namespace Rule

/-- Whether a rule fires in a context. -/
def fires (now : Instant) (c : Context) (r : Rule) : Bool := r.activeAt now && r.condition.holds c

/-- Whether a rule ends a pass in a context. -/
def stops (now : Instant) (c : Context) (r : Rule) : Bool := r.exclusive && r.fires now c

/-- The diagnostics of a rule in a context. -/
def faults (c : Context) (r : Rule) : List Diagnostic :=
  (r.condition.check c []).2.map (·.tag r.id)

theorem check_eq (r : Rule) (c : Context) (ds : List Diagnostic) :
    r.check c ds = (r.condition.holds c, ds ++ r.faults c) := by
  rw [check, faults, Condition.holds, Condition.check_eq_truth, Condition.check_eq_truth]
  simp only [List.take_left, List.drop_left, List.nil_append]

end Rule

/-! ### Actions in a row -/

/-- All of some actions run one after the other, and none fails. -/
inductive Runs (clock : Instant) : List Action → Context → Context → Prop
  | nil {c} : Runs clock [] c c
  | cons {a as c c'} : (a.run clock c).result = .ok () →
    Runs clock as (a.run clock c).context c' →
      Runs clock (a :: as) c c'

theorem Outcome.andThen_eq_ok_iff {α β : Type} {o : Outcome α}
    {f : α → Context → Outcome β} {b : β} {c : Context} :
    ((o.andThen f).result = .ok b ∧ (o.andThen f).context = c) ↔
      ∃ a, o.result = .ok a ∧ (f a o.context).result = .ok b ∧
        (f a o.context).context = c := by
  unfold andThen
  split
  · next h => simp [h]
  · next h => simp [h]

theorem runs_iff {clock : Instant} {as : List Action} {c c' : Context} :
    Runs clock as c c' ↔
      (Action.runAll clock as c).result = .ok () ∧ (Action.runAll clock as c).context = c' := by
  induction as generalizing c with
  | nil =>
    constructor
    · rintro ⟨⟩; exact ⟨rfl, rfl⟩
    · rintro ⟨-, rfl⟩; exact .nil
  | cons a as ih =>
    rw [Action.runAll, Outcome.andThen_eq_ok_iff]
    constructor
    · rintro (_ | ⟨ha, has⟩); exact ⟨(), ha, ih.1 has⟩
    · rintro ⟨⟨⟩, ha, has⟩; exact .cons ha (ih.2 has)

namespace Registry

variable {clock now : Instant} {rules : List Rule} {r : Rule} {c c' : Context}

/-! ### Courses -/

/-- One rule leads from the context before it to the one behind it. -/
def Leads (clock now : Instant) (r : Rule) (c c' : Context) : Prop :=
  if r.fires now c then Runs clock r.actions c c' else c' = c

/-- The contexts `cs` around the rules that a pass tries, the number of which is `m`: all of them,
    or as many as it takes to come to one that ends the pass. -/
structure Course (clock now : Instant) (rules : List Rule) (c : Context) (m : Nat)
    (cs : Nat → Context) : Prop where
  start : cs 0 = c
  leads : ∀ {i r}, i < m → rules[i]? = some r → Leads clock now r (cs i) (cs (i + 1))
  goes : ∀ {i r}, i + 1 < m → rules[i]? = some r → r.stops now (cs i) = false
  ends : m = rules.length ∨
    ∃ k r, m = k + 1 ∧ rules[k]? = some r ∧ r.stops now (cs k) = true

/-- The rules that are tried, each with the context before it. -/
def tried (rules : List Rule) (m : Nat) (cs : Nat → Context) : List (Rule × Context) :=
  (rules.take m).mapIdx fun i r => (r, cs i)

/-- What the report says of rules that were tried. -/
def account (now : Instant) (ts : List (Rule × Context)) : Report where
  skipped := (ts.filter fun t => !t.1.activeAt now).map (·.1.id)
  evaluated := (ts.filter fun t => t.1.activeAt now).map (·.1.id)
  fired := (ts.filter fun t => t.1.fires now t.2).map (·.1.id)
  stoppedBy := (ts.find? fun t => t.1.stops now t.2).map (·.1.id)
  diagnostics := (ts.filter fun t => t.1.activeAt now).flatMap fun t => t.1.faults t.2

theorem course_nil_iff {m : Nat} {cs : Nat → Context} :
    Course clock now [] c m cs ↔ m = 0 ∧ cs 0 = c := by
  constructor
  · rintro ⟨hstart, -, -, hends⟩
    rcases hends with hm | ⟨k, r, -, hr, -⟩
    · exact ⟨hm, hstart⟩
    · cases hr
  · rintro ⟨rfl, hstart⟩
    exact ⟨hstart, fun h => absurd h (Nat.not_lt_zero _), fun h => absurd h (Nat.not_lt_zero _),
      .inl rfl⟩

theorem course_cons_iff {m : Nat} {cs : Nat → Context} :
    Course clock now (r :: rules) c m cs ↔
      cs 0 = c ∧ Leads clock now r c (cs 1) ∧ ∃ k, m = k + 1 ∧
        if r.stops now c then k = 0 else Course clock now rules (cs 1) k fun i => cs (i + 1) := by
  constructor
  · rintro ⟨rfl, hleads, hgoes, hends⟩
    obtain ⟨k, rfl⟩ : ∃ k, m = k + 1 := by
      rcases hends with hm | ⟨k, s, hm, -, -⟩
      · exact ⟨_, hm⟩
      · exact ⟨k, hm⟩
    refine ⟨rfl, hleads (Nat.succ_pos k) rfl, k, rfl, ?_⟩
    split
    · next hs =>
      -- the first rule ends the pass, so that no other is tried
      by_contra hk
      have := hgoes (i := 0) (r := r) (by omega) rfl
      rw [hs] at this
      cases this
    · next hs =>
      refine ⟨rfl, fun hi hr => hleads (Nat.succ_lt_succ hi) hr,
        fun hi hr => hgoes (Nat.succ_lt_succ hi) hr, ?_⟩
      rcases hends with hm | ⟨j, s, hm, hj, hstop⟩
      · exact .inl (Nat.succ.inj hm)
      cases j with
      | zero => cases hj; exact absurd hstop hs
      | succ j => exact .inr ⟨j, s, Nat.succ.inj hm, hj, hstop⟩
  · rintro ⟨rfl, hleads, k, rfl, hk⟩
    split at hk
    · next hs =>
      subst hk
      refine ⟨rfl, ?_, fun hi => absurd hi (by omega), .inr ⟨0, r, rfl, rfl, hs⟩⟩
      intro i s hi hr
      obtain rfl : i = 0 := by omega
      cases hr
      exact hleads
    · next hs =>
      obtain ⟨-, hleads', hgoes, hends⟩ := hk
      refine ⟨rfl, ?_, ?_, ?_⟩
      · intro i s hi hr
        cases i with
        | zero => cases hr; exact hleads
        | succ i => exact hleads' (Nat.lt_of_succ_lt_succ hi) hr
      · intro i s hi hr
        cases i with
        | zero => cases hr; exact Bool.eq_false_iff.2 hs
        | succ i => exact hgoes (Nat.lt_of_succ_lt_succ hi) hr
      · rcases hends with rfl | ⟨j, s, rfl, hj, hstop⟩
        · exact .inl rfl
        · exact .inr ⟨j + 1, s, rfl, hj, hstop⟩

/-- Some course tries these rules in these contexts and comes to a last context. -/
def Tries (clock now : Instant) (rules : List Rule) (c : Context) (ts : List (Rule × Context))
    (c' : Context) : Prop :=
  ∃ m cs, Course clock now rules c m cs ∧ ts = tried rules m cs ∧ c' = cs m

theorem tries_nil_iff {ts : List (Rule × Context)} :
    Tries clock now [] c ts c' ↔ ts = [] ∧ c' = c := by
  constructor
  · rintro ⟨m, cs, h, rfl, rfl⟩
    obtain ⟨rfl, rfl⟩ := course_nil_iff.1 h
    exact ⟨rfl, rfl⟩
  · rintro ⟨rfl, rfl⟩
    exact ⟨0, fun _ => c', course_nil_iff.2 ⟨rfl, rfl⟩, rfl, rfl⟩

theorem tried_cons (k : Nat) (cs : Nat → Context) :
    tried (r :: rules) (k + 1) cs = (r, cs 0) :: tried rules k fun i => cs (i + 1) := by
  rw [tried, List.take_succ_cons, List.mapIdx_cons]
  rfl

/-- A context in front of others. -/
def inFront (c : Context) (cs : Nat → Context) : Nat → Context
  | 0 => c
  | i + 1 => cs i

theorem tries_cons_iff {ts : List (Rule × Context)} :
    Tries clock now (r :: rules) c ts c' ↔ ∃ c₁, Leads clock now r c c₁ ∧
      if r.stops now c then ts = [(r, c)] ∧ c' = c₁
      else ∃ us, ts = (r, c) :: us ∧ Tries clock now rules c₁ us c' := by
  constructor
  · rintro ⟨m, cs, h, rfl, rfl⟩
    obtain ⟨rfl, hleads, k, rfl, hk⟩ := course_cons_iff.1 h
    refine ⟨cs 1, hleads, ?_⟩
    split at hk
    · next hs => subst hk; rw [if_pos hs, tried_cons]; exact ⟨rfl, rfl⟩
    · next hs => rw [if_neg hs]; exact ⟨_, tried_cons .., k, _, hk, rfl, rfl⟩
  · rintro ⟨c₁, hleads, h⟩
    split at h
    · next hs =>
      obtain ⟨rfl, rfl⟩ := h
      refine ⟨1, inFront c fun _ => c', course_cons_iff.2 ⟨rfl, hleads, 0, rfl, ?_⟩, ?_,
        rfl⟩
      · rw [if_pos hs]
      · rw [tried_cons]; rfl
    · next hs =>
      obtain ⟨us, rfl, k, cs, hk, rfl, rfl⟩ := h
      obtain rfl := hk.start
      refine ⟨k + 1, inFront c cs, course_cons_iff.2 ⟨rfl, hleads, k, rfl, ?_⟩, ?_, rfl⟩
      · rw [if_neg hs]; exact hk
      · rw [tried_cons]; rfl

/-! ### The pass -/

variable {ts : List (Rule × Context)}

theorem account_skip (ha : r.activeAt now = false) :
    (account now ts).skip r.id = account now (ts ++ [(r, c)]) := by
  simp [account, Report.skip, Rule.fires, Rule.stops, ha]

theorem account_evaluate (ha : r.activeAt now = true) (hf : r.fires now c = false) :
    (account now ts).evaluate r.id ((account now ts).diagnostics ++ r.faults c) =
      account now (ts ++ [(r, c)]) := by
  simp [account, Report.evaluate, Rule.stops, ha, hf]

theorem account_fire (ha : r.activeAt now = true) (hf : r.fires now c = true)
    (hs : r.stops now c = false) :
    ((account now ts).evaluate r.id ((account now ts).diagnostics ++ r.faults c)).fire r.id =
      account now (ts ++ [(r, c)]) := by
  simp [account, Report.evaluate, Report.fire, ha, hf, hs]

/-- The report names the first rule that ended the pass, so that none may have done so before. -/
theorem account_stop (hts : ∀ t ∈ ts, t.1.stops now t.2 = false) (ha : r.activeAt now = true)
    (hf : r.fires now c = true) (hs : r.stops now c = true) :
    (((account now ts).evaluate r.id ((account now ts).diagnostics ++ r.faults c)).fire r.id).stop
      r.id = account now (ts ++ [(r, c)]) := by
  have hnone : ts.find? (fun t => t.1.stops now t.2) = none :=
    List.find?_eq_none.2 fun t ht => by rw [hts t ht]; decide
  simp [account, Report.evaluate, Report.fire, Report.stop, ha, hf, hs, hnone]

/-- One turn of the loop, as an equation. -/
theorem passDetailed_cons (hts : ∀ t ∈ ts, t.1.stops now t.2 = false) :
    passDetailed clock now (r :: rules) (account now ts) c =
      if r.fires now c then
        (Action.runAll clock r.actions c).andThen fun _ c' =>
          if r.stops now c then .done c' (account now (ts ++ [(r, c)]))
          else passDetailed clock now rules (account now (ts ++ [(r, c)])) c'
      else passDetailed clock now rules (account now (ts ++ [(r, c)])) c := by
  rw [passDetailed]
  cases ha : r.activeAt now with
  | false =>
    have hf : r.fires now c = false := by rw [Rule.fires, ha]; rfl
    rw [hf, ← account_skip ha]
    rfl
  | true =>
    have hfires : r.fires now c = r.condition.holds c := by rw [Rule.fires, ha]; rfl
    rw [Rule.check_eq, hfires]
    cases hf : r.condition.holds c with
    | false => rw [← account_evaluate ha (hfires.trans hf)]; rfl
    | true =>
      have hstops : r.stops now c = r.exclusive := by rw [Rule.stops, hfires, hf, Bool.and_true]
      rw [hstops]
      cases he : r.exclusive with
      | false => rw [← account_fire ha (hfires.trans hf) (hstops.trans he)]; rfl
      | true => rw [← account_stop hts ha (hfires.trans hf) (hstops.trans he)]; rfl

/-- A pass comes to a report and a context if some course does. -/
theorem passDetailed_iff (hts : ∀ t ∈ ts, t.1.stops now t.2 = false) {p : Report} :
    ((passDetailed clock now rules (account now ts) c).result = .ok p ∧
      (passDetailed clock now rules (account now ts) c).context = c') ↔
      ∃ us, Tries clock now rules c us c' ∧ p = account now (ts ++ us) := by
  induction rules generalizing ts c with
  | nil =>
    simp only [tries_nil_iff]
    constructor
    · rintro ⟨⟨⟩, rfl⟩
      exact ⟨[], ⟨rfl, rfl⟩, by rw [List.append_nil]⟩
    · rintro ⟨us, ⟨rfl, rfl⟩, rfl⟩
      rw [List.append_nil]
      exact ⟨rfl, rfl⟩
  | cons r rules ih =>
    rw [passDetailed_cons hts]
    simp only [tries_cons_iff]
    -- a rule that does not end the pass is one more that has been tried
    have hnext : r.stops now c = false → ∀ t ∈ ts ++ [(r, c)], t.1.stops now t.2 = false := by
      intro hs t ht
      rcases List.mem_append.1 ht with ht | ht
      · exact hts t ht
      · rw [List.mem_singleton.1 ht]; exact hs
    by_cases hf : r.fires now c
    · rw [if_pos hf, Outcome.andThen_eq_ok_iff]
      simp only [Leads, if_pos hf, runs_iff]
      by_cases hs : r.stops now c
      · simp only [if_pos hs]
        constructor
        · rintro ⟨⟨⟩, ha, ⟨⟩, hc⟩
          exact ⟨_, ⟨_, ⟨ha, rfl⟩, rfl, hc.symm⟩, rfl⟩
        · rintro ⟨us, ⟨c₁, ⟨ha, rfl⟩, rfl, rfl⟩, rfl⟩
          exact ⟨(), ha, rfl, rfl⟩
      · simp only [if_neg hs]
        constructor
        · rintro ⟨⟨⟩, ha, hrest⟩
          obtain ⟨us, hus, rfl⟩ := (ih (hnext (Bool.eq_false_iff.2 hs))).1 hrest
          exact ⟨_, ⟨_, ⟨ha, rfl⟩, us, rfl, hus⟩, by rw [List.append_assoc]; rfl⟩
        · rintro ⟨us, ⟨c₁, ⟨ha, rfl⟩, us', rfl, hus⟩, rfl⟩
          refine ⟨(), ha, (ih (hnext (Bool.eq_false_iff.2 hs))).2 ⟨us', hus, ?_⟩⟩
          rw [List.append_assoc]; rfl
    · have hs : r.stops now c = false := by
        rw [Rule.stops, Bool.eq_false_iff.2 hf, Bool.and_false]
      rw [if_neg hf, ih (hnext hs)]
      simp only [Leads, if_neg hf, hs, Bool.false_eq_true, if_false]
      constructor
      · rintro ⟨us, hus, rfl⟩
        exact ⟨_, ⟨_, rfl, us, rfl, hus⟩, by rw [List.append_assoc]; rfl⟩
      · rintro ⟨us, ⟨c₁, rfl, us', rfl, hus⟩, rfl⟩
        exact ⟨us', hus, by rw [List.append_assoc]; rfl⟩

/-! ### The report -/

variable {m k : Nat} {cs : Nat → Context}

theorem mem_tried_iff {t : Rule × Context} :
    t ∈ tried rules m cs ↔ ∃ i < m, rules[i]? = some t.1 ∧ t.2 = cs i := by
  rw [List.mem_iff_getElem?]
  simp only [tried, List.getElem?_mapIdx, List.getElem?_take]
  refine exists_congr fun i => ?_
  by_cases hi : i < m
  · rw [if_pos hi]
    cases rules[i]? with
    | none => simp
    | some s =>
      obtain ⟨t, d⟩ := t
      simp [hi, eq_comm]
  · simp [hi]

theorem tried_succ (hr : rules[k]? = some r) :
    tried rules (k + 1) cs = tried rules k cs ++ [(r, cs k)] := by
  have hk : (rules.take k).length = k :=
    List.length_take_of_le (Nat.le_of_lt (List.getElem?_eq_some_iff.1 hr).1)
  rw [tried, List.take_add_one, hr, Option.toList_some, List.mapIdx_concat, hk, tried]

/-- The rules that were tried are the first ones in firing order. -/
theorem map_fst_tried : (tried rules m cs).map Prod.fst = rules.take m := by
  refine List.ext_getElem? fun i => ?_
  rw [List.getElem?_map, tried, List.getElem?_mapIdx, Option.map_map]
  exact Option.map_id'

theorem nodup_ids (h : (rules.map Rule.id).Nodup) (p : Rule × Context → Bool) :
    (((tried rules m cs).filter p).map (·.1.id)).Nodup := by
  have hall : ((tried rules m cs).map (·.1.id)).Nodup := by
    rw [show (fun t : Rule × Context => t.1.id) = Rule.id ∘ Prod.fst from rfl, ← List.map_map,
      map_fst_tried]
    exact h.sublist ((List.take_sublist m rules).map Rule.id)
  exact hall.sublist (List.filter_sublist.map _)

/-- The rule that ended the pass is the last in the lists of those that were evaluated and fired. -/
theorem getLast?_of_stops (hr : rules[k]? = some r) (hs : r.stops now (cs k) = true) :
    (account now (tried rules (k + 1) cs)).evaluated.getLast? = some r.id ∧
      (account now (tried rules (k + 1) cs)).fired.getLast? = some r.id := by
  have hf : r.fires now (cs k) = true := by
    rw [Rule.stops, Bool.and_eq_true] at hs
    exact hs.2
  have ha : r.activeAt now = true := by
    rw [Rule.fires, Bool.and_eq_true] at hf
    exact hf.1
  rw [tried_succ hr]
  constructor
  · simp only [account, List.filter_append, List.map_append, List.filter_cons, ha, if_true]
    exact List.getLast?_concat
  · simp only [account, List.filter_append, List.map_append, List.filter_cons, hf, if_true]
    exact List.getLast?_concat

namespace Course

theorem le_length (h : Course clock now rules c m cs) : m ≤ rules.length := by
  rcases h.ends with hm | ⟨k, r, rfl, hr, -⟩
  · exact Nat.le_of_eq hm
  · exact (List.getElem?_eq_some_iff.1 hr).1

/-- No rule before the last one that was tried ended the pass. -/
theorem find?_eq_none (h : Course clock now rules c (k + 1) cs) :
    (tried rules k cs).find? (fun t => t.1.stops now t.2) = none := by
  refine List.find?_eq_none.2 fun t ht => ?_
  obtain ⟨i, hi, hr, hc⟩ := mem_tried_iff.1 ht
  rw [hc, h.goes (Nat.succ_lt_succ hi) hr]
  decide

/-- The pass was ended by the last rule that was tried, if by any. -/
theorem stoppedBy_iff (h : Course clock now rules c m cs) (id : String) :
    (account now (tried rules m cs)).stoppedBy = some id ↔
      ∃ k r, m = k + 1 ∧ rules[k]? = some r ∧ r.stops now (cs k) = true ∧ r.id = id := by
  cases m with
  | zero => simp [account, tried]
  | succ k =>
    have hk : k < rules.length := h.le_length
    have hr : rules[k]? = some rules[k] := List.getElem?_eq_getElem hk
    rw [tried_succ hr]
    simp only [account, List.find?_append, h.find?_eq_none, Option.none_or, List.find?_singleton]
    by_cases hs : rules[k].stops now (cs k) = true
    · rw [if_pos hs]
      constructor
      · rintro ⟨⟩
        exact ⟨k, rules[k], rfl, hr, hs, rfl⟩
      · rintro ⟨j, r, hj, hr', -, rfl⟩
        cases hj
        rw [hr] at hr'
        cases hr'
        rfl
    · rw [if_neg hs]
      constructor
      · rintro ⟨⟩
      · rintro ⟨j, r, hj, hr', hs', -⟩
        cases hj
        rw [hr] at hr'
        cases hr'
        exact absurd hs' hs

/-- No rule but the one that ended the pass is exclusive and has fired. -/
theorem exclusive_iff_of_stops (h : Course clock now rules c (k + 1) cs)
    (hids : (rules.map Rule.id).Nodup) (hr : rules[k]? = some r) (hs : r.stops now (cs k) = true)
    {s : Rule} (hmem : s ∈ rules)
    (hfired : s.id ∈ (account now (tried rules (k + 1) cs)).fired) :
    s.exclusive = true ↔ s.id = r.id := by
  have hinj := List.inj_on_of_nodup_map hids
  constructor
  · intro he
    obtain ⟨t, ht, hid⟩ := List.mem_map.1 hfired
    obtain ⟨ht, hfires⟩ := List.mem_filter.1 ht
    obtain ⟨i, hi, hti, hc⟩ := mem_tried_iff.1 ht
    obtain rfl : t.1 = s := hinj (List.mem_of_getElem? hti) hmem hid
    have hstops : t.1.stops now (cs i) = true := by
      rw [Rule.stops, he, ← hc, hfires]
      rfl
    -- an exclusive rule that fires ends the pass, so that it is the last one
    rcases Nat.lt_succ_iff_lt_or_eq.1 hi with hlt | rfl
    · rw [h.goes (Nat.succ_lt_succ hlt) hti] at hstops
      cases hstops
    · rw [hr] at hti
      cases hti
      rfl
  · intro hid
    rw [hinj hmem (List.mem_of_getElem? hr) hid]
    rw [Rule.stops, Bool.and_eq_true] at hs
    exact hs.1

/-- A pass that nothing ends tries every rule. -/
theorem mem_report_of_stoppedBy (h : Course clock now rules c m cs)
    (hnone : (account now (tried rules m cs)).stoppedBy = none) {s : Rule} (hmem : s ∈ rules) :
    s.id ∈ (account now (tried rules m cs)).skipped ∨
      s.id ∈ (account now (tried rules m cs)).evaluated := by
  have hm : m = rules.length := by
    rcases h.ends with hm | hstop
    · exact hm
    · obtain ⟨k, r, hk⟩ := hstop
      rw [(h.stoppedBy_iff r.id).2 ⟨k, r, hk.1, hk.2.1, hk.2.2, rfl⟩] at hnone
      cases hnone
  have htried : s ∈ (tried rules m cs).map Prod.fst := by
    rw [map_fst_tried, hm, List.take_length]
    exact hmem
  obtain ⟨t, ht, rfl⟩ := List.mem_map.1 htried
  cases ha : t.1.activeAt now with
  | false => exact .inl (List.mem_map.2 ⟨t, List.mem_filter.2 ⟨ht, by rw [ha]; rfl⟩, rfl⟩)
  | true => exact .inr (List.mem_map.2 ⟨t, List.mem_filter.2 ⟨ht, ha⟩, rfl⟩)

end Course

/-- EXACT: a pass comes to a report and a context if and only if there is a course that does. No
    rule is named twice in a list of the report. If an exclusive rule fired it is named as the one
    that ended the pass, is the last that was evaluated and fired, and no other that fired is
    exclusive; if there is none, every rule was skipped or evaluated. -/
theorem fireDetailed_exact {g : Registry} (hg : Reachable g) (clock now : Instant) (c : Context) :
    (∀ p c', ((g.fireDetailed clock now c).result = .ok p ∧
        (g.fireDetailed clock now c).context = c') ↔
      ∃ m cs, Course clock now g.rules c m cs ∧ c' = cs m ∧
        p = account now (tried g.rules m cs)) ∧
    ∀ m cs, Course clock now g.rules c m cs →
      let p := account now (tried g.rules m cs)
      p.skipped.Nodup ∧ p.evaluated.Nodup ∧ p.fired.Nodup ∧
      (∀ id, p.stoppedBy = some id ↔
        ∃ k r, m = k + 1 ∧ g.rules[k]? = some r ∧ r.stops now (cs k) = true ∧ r.id = id) ∧
      (∀ id, p.stoppedBy = some id →
        p.evaluated.getLast? = some id ∧ p.fired.getLast? = some id ∧
        ∀ s ∈ g.rules, s.id ∈ p.fired → (s.exclusive = true ↔ s.id = id)) ∧
      (p.stoppedBy = none → ∀ s ∈ g.rules, s.id ∈ p.skipped ∨ s.id ∈ p.evaluated) := by
  have hids : (g.rules.map Rule.id).Nodup := hg.order_nodup
  constructor
  · intro p c'
    have hstart : g.fireDetailed clock now c = passDetailed clock now g.rules (account now []) c :=
      rfl
    rw [hstart, passDetailed_iff fun t ht => absurd ht List.not_mem_nil]
    constructor
    · rintro ⟨us, ⟨m, cs, h, rfl, rfl⟩, rfl⟩
      exact ⟨m, cs, h, rfl, rfl⟩
    · rintro ⟨m, cs, h, rfl, rfl⟩
      exact ⟨_, ⟨m, cs, h, rfl, rfl⟩, rfl⟩
  · intro m cs h
    refine ⟨nodup_ids hids _, nodup_ids hids _, nodup_ids hids _, h.stoppedBy_iff, ?_,
      fun hnone s hs => h.mem_report_of_stoppedBy hnone hs⟩
    intro id hid
    obtain ⟨k, r, rfl, hr, hs, rfl⟩ := (h.stoppedBy_iff id).1 hid
    obtain ⟨hevaluated, hfired⟩ := getLast?_of_stops hr hs
    exact ⟨hevaluated, hfired, fun s hmem => h.exclusive_iff_of_stops hids hr hs hmem⟩

/-- An exclusive rule in front of another one. -/
theorem fireDetailed_exact_exclusive :
    let g :=
      (empty.perform (.register ⟨"a", "a", none, 1, true, none, none, .all [], []⟩)).perform
        (.register ⟨"b", "b", none, 0, false, none, none, .all [], []⟩)
    Reachable g ∧ ∃ m cs, Course ⟨0, 0⟩ ⟨0, 0⟩ g.rules .empty m cs ∧
      { evaluated := ["a"], fired := ["a"], stoppedBy := some "a" } =
        account ⟨0, 0⟩ (tried g.rules m cs) := by
  intro g
  have hg : Reachable g := .performed _ (.performed _ .empty)
  have hrun : (g.fireDetailed ⟨0, 0⟩ ⟨0, 0⟩ .empty).result =
      .ok { evaluated := ["a"], fired := ["a"], stoppedBy := some "a" } := by
    unfold g
    cbv
  obtain ⟨m, cs, h, -, hp⟩ :=
    ((fireDetailed_exact hg ⟨0, 0⟩ ⟨0, 0⟩ .empty).1 _ _).1 ⟨hrun, rfl⟩
  exact ⟨hg, m, cs, h, hp⟩

end Registry

end Rulebook
