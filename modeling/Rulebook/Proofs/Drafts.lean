import Mathlib.Data.List.Forall2
import Mathlib.Data.List.Induction
import Rulebook.Proofs.Registry

/-!
Registries from drafts. A registry is built from all drafts of a list or from none. The fault that
is reported is of the first draft that has one, and there the first of this list:

    missing id            no id, or one of blanks
    invalid window        the validity ends before it begins
    invalid expression    a text that cannot be read: the condition's, then the actions' in order
    duplicate rule        an earlier draft has the id

Each step of finishing a draft is a relation between what is drafted and what comes of it, beside
the fault that stops it. A list is then a front of drafts that make rules, and the draft that is
refused behind it.
-/

namespace Rulebook

/-! ### Texts -/

/-- Whether a text is an expression. -/
def IsExpression (s : String) : Prop := ∃ e, Expression.ofSource s = .ok e

/-- The fault of a rule for the first of some texts that is no expression. -/
def Unread (id : String) (ss : List String) (f : ConfigError) : Prop :=
  ∃ front s back cause, ss = front ++ s :: back ∧ (∀ t ∈ front, IsExpression t) ∧
    Expression.ofSource s = .error cause ∧ f = .invalidExpression id s cause

section Unread

variable {id s : String} {ss ts : List String} {f : ConfigError}

theorem not_unread_nil : ¬ Unread id [] f := by
  rintro ⟨front, s, back, cause, h, -⟩
  cases front <;> cases h

theorem unread_cons_iff : Unread id (s :: ss) f ↔
    (∃ cause, Expression.ofSource s = .error cause ∧ f = .invalidExpression id s cause) ∨
      IsExpression s ∧ Unread id ss f := by
  constructor
  · rintro ⟨front, t, back, cause, h, hfront, ht, rfl⟩
    cases front with
    | nil => cases h; exact .inl ⟨cause, ht, rfl⟩
    | cons x front =>
      cases h
      obtain ⟨hx, hfront⟩ := List.forall_mem_cons.1 hfront
      exact .inr ⟨hx, front, t, back, cause, rfl, hfront, ht, rfl⟩
  · rintro (⟨cause, hs, rfl⟩ | ⟨hs, front, t, back, cause, rfl, hfront, ht, rfl⟩)
    · exact ⟨[], s, ss, cause, rfl, by simp, hs, rfl⟩
    · exact ⟨s :: front, t, back, cause, rfl, List.forall_mem_cons.2 ⟨hs, hfront⟩, ht, rfl⟩

theorem unread_append_iff : Unread id (ss ++ ts) f ↔
    Unread id ss f ∨ (∀ s ∈ ss, IsExpression s) ∧ Unread id ts f := by
  induction ss with
  | nil => simp [not_unread_nil]
  | cons s ss ih =>
    rw [List.cons_append, unread_cons_iff, unread_cons_iff, ih, List.forall_mem_cons, and_or_left,
      or_assoc, and_assoc]

/-- Texts are expressions, all of them, if there is no fault to be found in a rule for them. -/
theorem forall_isExpression_iff (id : String) :
    (∀ s ∈ ss, IsExpression s) ↔ ∀ f, ¬ Unread id ss f := by
  induction ss with
  | nil => simp [not_unread_nil]
  | cons s ss ih =>
    simp only [List.forall_mem_cons, unread_cons_iff, ih]
    cases hs : Expression.ofSource s with
    | error cause => simp [IsExpression, hs]
    | ok e => simp [IsExpression, hs]

end Unread

/-! ### What is drafted and what comes of it -/

/-- The text of a condition, if it is drafted as one. -/
def DraftCondition.texts : Option DraftCondition → List String
  | some (.source s) => [s]
  | _ => []

/-- The text of an action, if it is drafted as one. -/
def DraftAction.text? : DraftAction → Option String
  | .set _ s => some s
  | .ready _ => none

/-- What comes of a condition; without one a rule always fires. -/
inductive DraftCondition.Makes : Option DraftCondition → Condition → Prop
  | always : Makes none (.all [])
  | ready (c : Condition) : Makes (some (.ready c)) c
  | source {s e} : Expression.ofSource s = .ok e → Makes (some (.source s)) (.expr e)

/-- What comes of an action. -/
inductive DraftAction.Makes : DraftAction → Action → Prop
  | ready (a : Action) : Makes (.ready a) a
  | set (key : String) {s e} : Expression.ofSource s = .ok e → Makes (.set key s) (.set key e)

namespace Draft

/-- The texts of a draft, in the order in which they are read. -/
def texts (d : Draft) : List String :=
  DraftCondition.texts d.condition ++ d.actions.filterMap DraftAction.text?

/-- The id of a draft, with a character that shows. -/
def Named (d : Draft) (id : String) : Prop :=
  d.id = some id ∧ ∃ c ∈ id.toList, isBlank c = false

/-- A validity that does not end before it begins. -/
def InOrder (d : Draft) : Prop :=
  ∀ a b, d.validFrom = some a → d.validUntil = some b → a ≤ b

/-- A draft without a fault of its own. -/
structure Sound (d : Draft) : Prop where
  named : ∃ id, d.Named id
  inOrder : d.InOrder
  texts : ∀ s ∈ d.texts, IsExpression s

/-- The rule of a draft, field by field. -/
structure Makes (d : Draft) (r : Rule) : Prop where
  id : d.id = some r.id
  name : r.name = d.name.getD r.id
  description : r.description = d.description
  priority : r.priority = d.priority
  exclusive : r.exclusive = d.exclusive
  validFrom : r.validFrom = d.validFrom
  validUntil : r.validUntil = d.validUntil
  condition : DraftCondition.Makes d.condition r.condition
  actions : List.Forall₂ DraftAction.Makes d.actions r.actions

/-- The fault of a draft by itself: each kind comes after those before it. -/
inductive Fault (d : Draft) : ConfigError → Prop
  | missingId : (∀ id, ¬ d.Named id) → Fault d .missingId
  | invalidWindow {id} : d.Named id → ¬ d.InOrder → Fault d (.invalidWindow id)
  | invalidExpression {id cause} :
      d.Named id → d.InOrder → Unread id d.texts cause → Fault d cause

/-! ### Finishing -/

variable {d : Draft} {r : Rule} {id s : String} {f : ConfigError}

theorem map_eq_ok_iff {α β : Type} {x : Except ConfigError α} {g : α → β} {b : β} :
    x.map g = .ok b ↔ ∃ a, x = .ok a ∧ g a = b := by
  cases x <;> simp [Except.map]

theorem map_eq_error_iff {α β : Type} {x : Except ConfigError α} {g : α → β} :
    x.map g = .error f ↔ x = .error f := by
  cases x <;> simp [Except.map]

theorem readIn_eq_ok_iff {e : Expression} :
    readIn id s = .ok e ↔ Expression.ofSource s = .ok e := by
  rw [readIn]
  split <;> simp [*]

theorem readIn_eq_error_iff : readIn id s = .error f ↔ Unread id [s] f := by
  rw [readIn, unread_cons_iff]
  split <;> simp [*, not_unread_nil, eq_comm]

theorem finishCondition_eq_ok_iff {dc : Option DraftCondition} {c : Condition} :
    finishCondition id dc = .ok c ↔ DraftCondition.Makes dc c := by
  constructor
  · intro h
    unfold finishCondition at h
    split at h
    · cases h
      exact .always
    · cases h
      exact .ready c
    · obtain ⟨e, he, rfl⟩ := map_eq_ok_iff.1 h
      exact .source (readIn_eq_ok_iff.1 he)
  · rintro (_ | _ | he)
    · rfl
    · rfl
    · exact map_eq_ok_iff.2 ⟨_, readIn_eq_ok_iff.2 he, rfl⟩

theorem finishCondition_eq_error_iff {dc : Option DraftCondition} :
    finishCondition id dc = .error f ↔ Unread id (DraftCondition.texts dc) f := by
  unfold finishCondition DraftCondition.texts
  split
  · simp [not_unread_nil]
  · simp [not_unread_nil]
  · rw [map_eq_error_iff, readIn_eq_error_iff]

theorem finishAction_eq_ok_iff (id : String) {da : DraftAction} {a : Action} :
    finishAction id da = .ok a ↔ da.Makes a := by
  constructor
  · intro h
    unfold finishAction at h
    split at h
    · cases h
      exact .ready a
    · obtain ⟨e, he, rfl⟩ := map_eq_ok_iff.1 h
      exact .set _ (readIn_eq_ok_iff.1 he)
  · rintro (_ | ⟨_, he⟩)
    · rfl
    · exact map_eq_ok_iff.2 ⟨_, readIn_eq_ok_iff.2 he, rfl⟩

theorem finishAction_eq_error_iff {da : DraftAction} :
    finishAction id da = .error f ↔ Unread id da.text?.toList f := by
  unfold finishAction DraftAction.text?
  split
  · simp [not_unread_nil]
  · rw [map_eq_error_iff, readIn_eq_error_iff]
    rfl

theorem finishActions_eq_ok_iff {das : List DraftAction} {as : List Action} :
    finishActions id das = .ok as ↔ List.Forall₂ DraftAction.Makes das as := by
  induction das generalizing as with
  | nil => simp [finishActions, eq_comm]
  | cons da das ih =>
    rw [finishActions, List.forall₂_cons_left_iff]
    simp only [← ih, ← finishAction_eq_ok_iff id]
    cases finishAction id da with
    | error f => simp
    | ok a =>
      rw [map_eq_ok_iff]
      simp [eq_comm]

theorem finishActions_eq_error_iff {das : List DraftAction} :
    finishActions id das = .error f ↔ Unread id (das.filterMap DraftAction.text?) f := by
  induction das with
  | nil => simp [finishActions, not_unread_nil]
  | cons da das ih =>
    have htexts : (da :: das).filterMap DraftAction.text? =
        da.text?.toList ++ das.filterMap DraftAction.text? := by
      cases h : da.text? <;> simp [h]
    rw [htexts, unread_append_iff, forall_isExpression_iff id, finishActions]
    simp only [← ih, ← finishAction_eq_error_iff]
    cases finishAction id da with
    | error g => simp
    | ok a => simp [map_eq_error_iff]

theorem filter_id_eq_some_iff : d.id.filter (!isBlankText ·) = some id ↔ d.Named id := by
  simp [Named, Option.filter_eq_some_iff, isBlankText]

theorem inverted_eq_false_iff : d.inverted = false ↔ d.InOrder := by
  rw [inverted, InOrder]
  cases d.validFrom <;> cases d.validUntil <;> simp

theorem unread_texts_iff : Unread id d.texts f ↔ finishCondition id d.condition = .error f ∨
    (∀ g, finishCondition id d.condition ≠ .error g) ∧
    finishActions id d.actions = .error f := by
  rw [texts, unread_append_iff, forall_isExpression_iff id, finishActions_eq_error_iff]
  simp only [finishCondition_eq_error_iff, ne_eq]

theorem Named.eq {id' : String} (h : d.Named id) (h' : d.Named id') : id' = id :=
  Option.some.inj (h'.1.symm.trans h.1)

theorem Named.fault_iff (h : d.Named id) :
    d.Fault f ↔ ¬ d.InOrder ∧ f = .invalidWindow id ∨ d.InOrder ∧ Unread id d.texts f := by
  constructor
  · rintro (hmissing | ⟨hid, horder⟩ | ⟨hid, horder, hunread⟩)
    · exact absurd h (hmissing id)
    · exact .inl ⟨horder, by rw [h.eq hid]⟩
    · exact .inr ⟨horder, h.eq hid ▸ hunread⟩
  · rintro (⟨horder, rfl⟩ | ⟨horder, hunread⟩)
    · exact .invalidWindow h horder
    · exact .invalidExpression h horder hunread

/-- What a draft is refused for is its fault. -/
theorem finish_eq_error_iff : d.finish = .error f ↔ d.Fault f := by
  rw [finish]
  -- without an id there is one fault only; with one, the rest are looked for under it
  split
  · next hnone =>
    have hmissing : ∀ id, ¬ d.Named id := by
      intro id h
      rw [filter_id_eq_some_iff.2 h] at hnone
      cases hnone
    constructor
    · rintro ⟨⟩
      exact .missingId hmissing
    · rintro (_ | ⟨h, -⟩ | ⟨h, -⟩)
      · rfl
      · exact absurd h (hmissing _)
      · exact absurd h (hmissing _)
  · next id hid =>
    rw [(filter_id_eq_some_iff.1 hid).fault_iff, unread_texts_iff, ← inverted_eq_false_iff]
    cases d.inverted with
    | true => simp [eq_comm]
    | false =>
      cases finishCondition id d.condition with
      | error g => simp
      | ok c => cases finishActions id d.actions <;> simp

/-- A draft is sound if there is no fault to be found with it. -/
theorem sound_iff : d.Sound ↔ ∀ f, ¬ d.Fault f := by
  constructor
  · rintro ⟨⟨id, hid⟩, horder, htexts⟩ f hf
    rcases hid.fault_iff.1 hf with ⟨hnot, -⟩ | ⟨-, hunread⟩
    · exact hnot horder
    · exact (forall_isExpression_iff id).1 htexts f hunread
  · intro h
    have hnamed : ∃ id, d.Named id := by
      by_contra hnone
      exact h _ (.missingId (not_exists.1 hnone))
    obtain ⟨id, hid⟩ := hnamed
    have horder : d.InOrder := by
      by_contra hnot
      exact h _ (.invalidWindow hid hnot)
    refine ⟨⟨id, hid⟩, horder, (forall_isExpression_iff id).2 fun f hunread => ?_⟩
    exact h f (.invalidExpression hid horder hunread)

/-- What a draft without a fault is finished to is its rule. -/
theorem finish_eq_ok_iff : d.finish = .ok r ↔ d.Sound ∧ d.Makes r := by
  constructor
  · intro h
    have hsound : d.Sound := by
      refine sound_iff.2 fun f hf => ?_
      rw [finish_eq_error_iff.2 hf] at h
      cases h
    obtain ⟨id, hid⟩ := hsound.named
    rw [finish, filter_id_eq_some_iff.2 hid] at h
    simp only at h
    split at h
    · cases h
    split at h
    · cases h
    next c hc =>
    split at h
    · cases h
    next as has =>
    cases h
    exact ⟨hsound, hid.1, rfl, rfl, rfl, rfl, rfl, rfl, finishCondition_eq_ok_iff.1 hc,
      finishActions_eq_ok_iff.1 has⟩
  · rintro ⟨⟨⟨id, hid⟩, horder, -⟩, hr⟩
    obtain rfl : r.id = id := Option.some.inj (hr.id.symm.trans hid.1)
    rw [finish, filter_id_eq_some_iff.2 hid]
    simp only [inverted_eq_false_iff.2 horder, finishCondition_eq_ok_iff.2 hr.condition,
      finishActions_eq_ok_iff.2 hr.actions, ← hr.name, ← hr.description, ← hr.priority,
      ← hr.exclusive, ← hr.validFrom, ← hr.validUntil]
    rfl

theorem sound_iff_exists_finish : d.Sound ↔ ∃ r, d.finish = .ok r := by
  constructor
  · intro h
    cases hf : d.finish with
    | error f => exact absurd (finish_eq_error_iff.1 hf) (sound_iff.1 h f)
    | ok r => exact ⟨r, rfl⟩
  · rintro ⟨r, hr⟩
    exact (finish_eq_ok_iff.1 hr).1

theorem forall_sound_iff {ds : List Draft} :
    (∀ d ∈ ds, d.Sound) ↔
      ∃ rules, List.Forall₂ (fun d r => d.finish = .ok r) ds rules := by
  induction ds with
  | nil => simp
  | cons d ds ih =>
    rw [List.forall_mem_cons, ih, sound_iff_exists_finish]
    constructor
    · rintro ⟨⟨r, hr⟩, rules, hf⟩
      exact ⟨r :: rules, .cons hr hf⟩
    · rintro ⟨_, hr | ⟨hr, hf⟩⟩
      exact ⟨⟨_, hr⟩, _, hf⟩

end Draft

/-! ### Lists -/

namespace Registry

variable {g g' : Registry} {live rules : List Rule} {r : Rule} {d : Draft}
    {ds front back : List Draft}
  {f : ConfigError}

theorem Mirrors.any_id_iff (h : Mirrors g live) (id : String) :
    g.rules.any (·.id == id) = true ↔ id ∈ live.map Rule.id := by
  rw [h.any_id, List.any_eq_true, List.mem_map]
  simp only [beq_iff_eq]

theorem Mirrors.register_taken (h : Mirrors g live) (hr : r.id ∈ live.map Rule.id) :
    g.register r = .error (.duplicateRule r.id) := by
  rw [Registry.register, if_pos ((h.any_id_iff r.id).2 hr)]

theorem Mirrors.register_free (h : Mirrors g live) (hr : r.id ∉ live.map Rule.id) :
    ∃ g', g.register r = .ok g' ∧ Mirrors g' (live ++ [r]) := by
  have hfree : ¬ g.rules.any (·.id == r.id) = true := mt (h.any_id_iff r.id).1 hr
  have hg : g.register r = .ok ⟨place r g.rules⟩ := by rw [Registry.register, if_neg hfree]
  have hm := h.register r
  rw [perform, hg, arrive, ← h.any_id, if_neg hfree] at hm
  exact ⟨_, hg, hm⟩

/-- Rules that come of drafts one by one, no two with one id. -/
structure Yields (ds : List Draft) (rules : List Rule) : Prop where
  finish : List.Forall₂ (fun d r => d.finish = .ok r) ds rules
  nodup : (rules.map Rule.id).Nodup

/-- Why a draft is refused behind rules. -/
def Halts (rules : List Rule) (d : Draft) (f : ConfigError) : Prop :=
  d.finish = .error f ∨
    ∃ r, d.finish = .ok r ∧ r.id ∈ rules.map Rule.id ∧ f = .duplicateRule r.id

/-- Drafts that yield rules are added, and what stands behind them is added to those. -/
theorem addAll_append (hf : List.Forall₂ (fun d r => d.finish = .ok r) front rules)
    (hn : ((live ++ rules).map Rule.id).Nodup) (h : Mirrors g live) :
    ∃ g', Mirrors g' (live ++ rules) ∧ ∀ back, addAll (front ++ back) g = addAll back g' := by
  induction hf generalizing g live with
  | nil => exact ⟨g, by rwa [List.append_nil], fun back => rfl⟩
  | @cons d r front rules hd _ ih =>
    have hr : r.id ∉ live.map Rule.id := by
      rw [List.map_append, List.map_cons, List.nodup_middle, List.nodup_cons] at hn
      exact fun hr => hn.1 (List.mem_append_left _ hr)
    obtain ⟨g₁, hg, h₁⟩ := h.register_free hr
    rw [List.append_cons] at hn
    obtain ⟨g', hg', hback⟩ := ih hn h₁
    refine ⟨g', by rwa [List.append_cons], fun back => ?_⟩
    rw [List.cons_append, addAll, hd]
    simp only [hg]
    exact hback back

theorem addAll_of_halts (hd : Halts live d f) (h : Mirrors g live) (back : List Draft) :
    addAll (d :: back) g = .error f := by
  rw [addAll]
  rcases hd with hd | ⟨r, hd, hr, rfl⟩
  · rw [hd]
  · rw [hd]
    simp only [h.register_taken hr]

/-- Behind drafts that yield rules, a list goes on from a registry of these rules. -/
theorem Yields.exists_mirrors (h : Yields front rules) :
    ∃ g, Mirrors g rules ∧ ∀ back, ofDrafts (front ++ back) = addAll back g := by
  have hempty : Mirrors empty [] := ⟨List.mergeSort_nil.symm, List.nodup_nil⟩
  have hnodup : (([] ++ rules).map Rule.id).Nodup := h.nodup
  exact addAll_append h.finish hnodup hempty

theorem ofDrafts_of_yields (h : Yields ds rules) :
    ofDrafts ds = .ok ⟨rules.mergeSort precedes⟩ := by
  obtain ⟨g, hg, hback⟩ := h.exists_mirrors
  rw [← List.append_nil ds, hback, addAll, ← hg.rules]

theorem ofDrafts_of_halts (h : Yields front rules) (hd : Halts rules d f) (back : List Draft) :
    ofDrafts (front ++ d :: back) = .error f := by
  obtain ⟨g, hg, hback⟩ := h.exists_mirrors
  rw [hback]
  exact addAll_of_halts hd hg back

/-- Either all drafts yield rules, or one is refused behind those that do. -/
theorem yields_or_halts (ds : List Draft) : (∃ rules, Yields ds rules) ∨
    ∃ front d back rules f, ds = front ++ d :: back ∧ Yields front rules ∧
      Halts rules d f := by
  induction ds using List.reverseRecOn with
  | nil => exact .inl ⟨[], .nil, List.nodup_nil⟩
  | append_singleton ds d ih =>
    rcases ih with ⟨rules, hrules⟩ | ⟨front, d', back, rules, f, rfl, hrules, hd⟩
    · cases hd : d.finish with
      | error f => exact .inr ⟨ds, d, [], rules, f, rfl, hrules, .inl hd⟩
      | ok r =>
        by_cases hr : r.id ∈ rules.map Rule.id
        · exact .inr ⟨ds, d, [], rules, _, rfl, hrules, .inr ⟨r, hd, hr, rfl⟩⟩
        · refine .inl ⟨rules ++ [r], List.rel_append hrules.finish (.cons hd .nil), ?_⟩
          rw [List.map_append, List.map_singleton, ← List.concat_eq_append, List.nodup_concat]
          exact ⟨hr, hrules.nodup⟩
    · exact .inr ⟨front, d', back ++ [d], rules, f, by simp, hrules, hd⟩

theorem ofDrafts_eq_ok_iff :
    ofDrafts ds = .ok g ↔ ∃ rules, Yields ds rules ∧ g.rules = rules.mergeSort precedes := by
  constructor
  · intro hg
    rcases yields_or_halts ds with
      ⟨rules, hrules⟩ | ⟨front, d, back, rules, f, rfl, hrules, hd⟩
    · rw [ofDrafts_of_yields hrules] at hg
      cases hg
      exact ⟨rules, hrules, rfl⟩
    · rw [ofDrafts_of_halts hrules hd] at hg
      cases hg
  · rintro ⟨rules, hrules, hg⟩
    rw [ofDrafts_of_yields hrules, ← hg]

theorem ofDrafts_eq_error_iff : ofDrafts ds = .error f ↔
    ∃ front d back rules, ds = front ++ d :: back ∧ Yields front rules ∧ Halts rules d f := by
  constructor
  · intro hf
    rcases yields_or_halts ds with
      ⟨rules, hrules⟩ | ⟨front, d, back, rules, f', rfl, hrules, hd⟩
    · rw [ofDrafts_of_yields hrules] at hf
      cases hf
    · rw [ofDrafts_of_halts hrules hd] at hf
      cases hf
      exact ⟨front, d, back, rules, rfl, hrules, hd⟩
  · rintro ⟨front, d, back, rules, rfl, hrules, hd⟩
    exact ofDrafts_of_halts hrules hd back

/-- Why a draft is refused behind others: for a fault of its own, or else because one
    of them has its id. -/
inductive Refused (earlier : List Draft) (draft : Draft) : ConfigError → Prop
  | fault {cause} : draft.Fault cause → Refused earlier draft cause
  | duplicateRule {id} : draft.Sound → draft.id = some id →
    (∃ x ∈ earlier, x.id = some id) →
      Refused earlier draft (.duplicateRule id)

theorem map_id_of_finish (hf : List.Forall₂ (fun d r => d.finish = .ok r) ds rules) :
    ds.map Draft.id = (rules.map Rule.id).map some := by
  induction hf with
  | nil => rfl
  | cons hd _ ih =>
    rw [List.map_cons, List.map_cons, List.map_cons, ih, (Draft.finish_eq_ok_iff.1 hd).2.id]

theorem nodup_iff_of_finish (hf : List.Forall₂ (fun d r => d.finish = .ok r) ds rules) :
    (rules.map Rule.id).Nodup ↔ (ds.map Draft.id).Nodup := by
  rw [map_id_of_finish hf, List.nodup_map_iff fun _ _ => Option.some.inj]

theorem exists_yields_iff :
    (∃ rules, Yields ds rules) ↔ (∀ d ∈ ds, d.Sound) ∧ (ds.map Draft.id).Nodup := by
  rw [Draft.forall_sound_iff]
  constructor
  · rintro ⟨rules, hf, hn⟩
    exact ⟨⟨rules, hf⟩, (nodup_iff_of_finish hf).1 hn⟩
  · rintro ⟨⟨rules, hf⟩, hn⟩
    exact ⟨rules, hf, (nodup_iff_of_finish hf).2 hn⟩

theorem Yields.mem_iff (h : Yields ds rules) (id : String) :
    id ∈ rules.map Rule.id ↔ ∃ x ∈ ds, x.id = some id := by
  rw [← List.mem_map, map_id_of_finish h.finish,
    List.mem_map_of_injective fun _ _ => Option.some.inj]

theorem Yields.halts_iff (h : Yields front rules) : Halts rules d f ↔ Refused front d f := by
  constructor
  · rintro (hd | ⟨r, hd, hr, rfl⟩)
    · exact .fault (Draft.finish_eq_error_iff.1 hd)
    · obtain ⟨hsound, hmakes⟩ := Draft.finish_eq_ok_iff.1 hd
      exact .duplicateRule hsound hmakes.id ((h.mem_iff r.id).1 hr)
  · rintro (hd | ⟨hsound, hid, htaken⟩)
    · exact .inl (Draft.finish_eq_error_iff.2 hd)
    · obtain ⟨r, hd⟩ := Draft.sound_iff_exists_finish.1 hsound
      obtain rfl := Option.some.inj (hid.symm.trans (Draft.finish_eq_ok_iff.1 hd).2.id)
      exact .inr ⟨r, hd, (h.mem_iff r.id).2 htaken, rfl⟩

/-- ALL OR NOTHING: a registry is built if and only if every draft is sound and no two have one id.
    It holds the rules of the drafts in stable order of falling priority. Otherwise the fault is
    that of the first draft that is not sound or has the id of one before it. -/
theorem ofDrafts_all_or_nothing (ds : List Draft) :
    ((∃ g, ofDrafts ds = .ok g) ↔ (∀ d ∈ ds, d.Sound) ∧ (ds.map Draft.id).Nodup) ∧
    (∀ g, ofDrafts ds = .ok g →
      ∃ rules, List.Forall₂ Draft.Makes ds rules ∧ g.rules = rules.mergeSort precedes) ∧
    ∀ f, ofDrafts ds = .error f ↔ ∃ front d back, ds = front ++ d :: back ∧
      (∀ x ∈ front, x.Sound) ∧ (front.map Draft.id).Nodup ∧ Refused front d f := by
  refine ⟨?_, ?_, fun f => ?_⟩
  · rw [← exists_yields_iff]
    constructor
    · rintro ⟨g, hg⟩
      obtain ⟨rules, hrules, -⟩ := ofDrafts_eq_ok_iff.1 hg
      exact ⟨rules, hrules⟩
    · rintro ⟨rules, hrules⟩
      exact ⟨_, ofDrafts_of_yields hrules⟩
  · intro g hg
    obtain ⟨rules, hrules, hsorted⟩ := ofDrafts_eq_ok_iff.1 hg
    exact ⟨rules, hrules.finish.imp fun _ _ h => (Draft.finish_eq_ok_iff.1 h).2, hsorted⟩
  · rw [ofDrafts_eq_error_iff]
    constructor
    · rintro ⟨front, d, back, rules, hds, hrules, hd⟩
      obtain ⟨hsound, hnodup⟩ := exists_yields_iff.1 ⟨rules, hrules⟩
      exact ⟨front, d, back, hds, hsound, hnodup, hrules.halts_iff.1 hd⟩
    · rintro ⟨front, d, back, hds, hsound, hnodup, hd⟩
      obtain ⟨rules, hrules⟩ := exists_yields_iff.2 ⟨hsound, hnodup⟩
      exact ⟨front, d, back, rules, hds, hrules, hrules.halts_iff.2 hd⟩

/-- The fault of the second draft comes before that of the third, which is a duplicate. -/
example :
    ofDrafts [{ id := some "a" },
      { id := some "b", validFrom := some ⟨2, 0⟩, validUntil := some ⟨1, 0⟩ },
      { id := some "a" }] = .error (.invalidWindow "b") := by
  cbv

end Registry

end Rulebook
