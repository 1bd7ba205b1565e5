import Rulebook.Proofs.Firing.Footprint

/-!
Rules that do not get in each other's way can be tried in any order. Two rules are independent if
neither writes to a name that the other one looks at or writes to, and then their turns commute:

    c ───r──▶ c₁
    │         │     the turn of s is the same from c and from c₁, as is that of r
    s         s     from c and from c₂, and both ways round lead to one context
    ▼         ▼
    c₂ ──r──▶ c'

A pass over rules that never end it is a fold of turns, in which a failure is final. Any order of
the rules comes about by changes of two neighbours, so it gives the same, and the priorities do no
more than choose an order.
-/

namespace Rulebook

open Outcome (Parallel)

variable {clock clock' now : Instant} {r s : Rule} {c : Context}

namespace Rule

/-- Neither rule writes to a name that the other one looks at or writes to. -/
def Independent (r s : Rule) : Prop :=
  r.writes.Disjoint (s.reads ++ s.writes) ∧ s.writes.Disjoint (r.reads ++ r.writes)

/-- The same rule with another priority. -/
def rank (priority : Int) (r : Rule) : Rule := { r with priority }

theorem Independent.symm (h : r.Independent s) : s.Independent r := ⟨h.2, h.1⟩

theorem Independent.writes_disjoint (h : r.Independent s) : r.writes.Disjoint s.writes :=
  (List.disjoint_append_right.1 h.1).2

/-- The turn of a rule leaves what an independent one looks at as it was. -/
theorem Independent.agree (h : r.Independent s) (hr : ∀ a ∈ r.actions, a.isPlain = true) :
    c.Agree s.reads (r.turn clock now c).context := by
  have hturn : Parallel r.writes c c (r.turn clock now c) (r.turn clock now c) :=
    turn_parallel hr .refl
  intro k hk
  have hnot : k ∉ r.writes := fun hw => (List.disjoint_append_right.1 h.1).1 hw hk
  exact (hturn.lookup_left hnot).symm

/-- A turn is the same before and after that of an independent rule. -/
theorem Independent.turn_parallel (h : r.Independent s) (hr : ∀ a ∈ r.actions, a.isPlain = true)
    (hs : ∀ a ∈ s.actions, a.isPlain = true) :
    Parallel s.writes c (r.turn clock now c).context (s.turn clock now c)
      (s.turn clock now (r.turn clock now c).context) :=
  Rule.turn_parallel hs (h.agree hr)

/-- Two turns in a row lead to one context, whichever comes first. -/
theorem Independent.context_comm (h : r.Independent s) (hr : ∀ a ∈ r.actions, a.isPlain = true)
    (hs : ∀ a ∈ s.actions, a.isPlain = true) :
    (s.turn clock now (r.turn clock now c).context).context =
      (r.turn clock now (s.turn clock now c).context).context := by
  have hrturns : Parallel r.writes c (s.turn clock now c).context (r.turn clock now c)
      (r.turn clock now (s.turn clock now c).context) := h.symm.turn_parallel hs hr
  have hsturns : Parallel s.writes c (r.turn clock now c).context (s.turn clock now c)
      (s.turn clock now (r.turn clock now c).context) := h.turn_parallel hr hs
  obtain ⟨ws, hws, hrc, hrs⟩ := hrturns.contexts
  obtain ⟨vs, hvs, hsc, hsr⟩ := hsturns.contexts
  -- `ws` is what `r` writes from either context, and `vs` what `s` writes
  have hdisjoint : (Context.rootsOf ws).Disjoint (Context.rootsOf vs) :=
    fun k hw hv => h.writes_disjoint (hws hw) (hvs hv)
  rw [hsr, hrs, hrc, hsc, Context.insertAll_comm hdisjoint]

end Rule

/-! ### Passes as folds -/

namespace Registry

/-- What a rule makes of a context and of the ids that have fired, unless something failed. -/
def attempt (clock now : Instant) (state : Option (Context × Multiset String)) (r : Rule) :
    Option (Context × Multiset String) :=
  match state with
  | none => none
  | some (c, ids) =>
    match (r.turn clock now c).result with
    | .ok _ => some ((r.turn clock now c).context, if r.fires now c then r.id ::ₘ ids else ids)
    | .error _ => none

/-- The context that a pass came to and the ids that have fired, unless it failed. -/
def reached (o : Outcome Report) : Option (Context × Multiset String) :=
  match o.result with
  | .ok p => some (o.context, p.fired)
  | .error _ => none

theorem attempt_rank (state : Option (Context × Multiset String)) (priority : Int) (r : Rule) :
    attempt clock now state (r.rank priority) = attempt clock now state r := rfl

theorem foldl_attempt_none (rules : List Rule) : rules.foldl (attempt clock now) none = none := by
  induction rules with
  | nil => rfl
  | cons r rules ih => exact ih

theorem attempt_of_error {ids : Multiset String} {e : ActionError}
    (h : (r.turn clock now c).result = .error e) : attempt clock now (some (c, ids)) r = none := by
  rw [attempt, h]

theorem attempt_of_ok {ids : Multiset String} {u : Unit} (h : (r.turn clock now c).result = .ok u) :
    attempt clock now (some (c, ids)) r =
      some ((r.turn clock now c).context, if r.fires now c then r.id ::ₘ ids else ids) := by
  rw [attempt, h]

/-- Writes and messages do not go by the clock. -/
theorem attempt_clock (hr : ∀ a ∈ r.actions, a.isPlain = true)
    (state : Option (Context × Multiset String)) :
    attempt clock now state r = attempt clock' now state r := by
  cases state with
  | none => rfl
  | some state =>
    have hturn : r.turn clock now state.1 = r.turn clock' now state.1 :=
      (Rule.turn_parallel hr .refl).eq
    rw [attempt, attempt, hturn]

theorem attempt_comm (h : r.Independent s) (hr : ∀ a ∈ r.actions, a.isPlain = true)
    (hs : ∀ a ∈ s.actions, a.isPlain = true) (state : Option (Context × Multiset String)) :
    attempt clock now (attempt clock now state r) s =
      attempt clock now (attempt clock now state s) r := by
  cases state with
  | none => rfl
  | some state =>
    obtain ⟨c, ids⟩ := state
    -- whether a rule fails does not depend on which of the two comes first
    have hsame : (s.turn clock now c).result =
        (s.turn clock now (r.turn clock now c).context).result := (h.turn_parallel hr hs).result
    have hsame' : (r.turn clock now c).result =
        (r.turn clock now (s.turn clock now c).context).result :=
          (h.symm.turn_parallel hs hr).result
    cases hrc : (r.turn clock now c).result with
    | error e =>
      rw [attempt_of_error hrc]
      cases hsc : (s.turn clock now c).result with
      | error e' => rw [attempt_of_error hsc]; rfl
      | ok u => rw [attempt_of_ok hsc, attempt_of_error (hsame'.symm.trans hrc)]; rfl
    | ok u =>
      rw [attempt_of_ok hrc]
      cases hsc : (s.turn clock now c).result with
      | error e => rw [attempt_of_error hsc, attempt_of_error (hsame.symm.trans hsc)]; rfl
      | ok u' =>
        rw [attempt_of_ok hsc, attempt_of_ok (hsame.symm.trans hsc),
          attempt_of_ok (hsame'.symm.trans hrc), h.context_comm hr hs,
          ← Rule.fires_congr (h.agree hr), ← Rule.fires_congr (h.symm.agree hs)]
        congr 2
        cases r.fires now c <;> cases s.fires now c <;> simp [Multiset.cons_swap]

theorem note_fired (now : Instant) (r : Rule) (c : Context) (p : Report) :
    ((p.note now r c).fired : Multiset String) =
      if r.fires now c then r.id ::ₘ p.fired else p.fired := by
  rw [Report.fired_note]
  cases r.fires now c with
  | false => rfl
  | true => exact Multiset.coe_eq_coe.2 (List.perm_append_singleton ..)

/-- A pass that nothing ends is a fold of turns. -/
theorem reached_passDetailed {rules : List Rule} (hexcl : ∀ r ∈ rules, r.exclusive = false)
    (p : Report) (c : Context) :
    reached (passDetailed clock now rules p c) =
      rules.foldl (attempt clock now) (some (c, (p.fired : Multiset String))) := by
  induction rules generalizing p c with
  | nil => rfl
  | cons r rules ih =>
    obtain ⟨hr, hrules⟩ := List.forall_mem_cons.1 hexcl
    have hstops : r.stops now c = false := by rw [Rule.stops, hr, Bool.false_and]
    rw [passDetailed_cons_note, List.foldl_cons, hstops]
    cases hturn : (r.turn clock now c).result with
    | error e =>
      rw [Outcome.andThen_of_error hturn, attempt_of_error hturn, foldl_attempt_none]
      rfl
    | ok u =>
      rw [Outcome.andThen_of_ok hturn, attempt_of_ok hturn, ← note_fired, ← ih hrules]
      rfl

/-! ### Registration -/

/-- The registry of rules that are registered one after the other with some priorities. -/
def registered (priority : Rule → Int) (rules : List Rule) : Registry :=
  after (rules.map fun r => .register (r.rank (priority r)))

/-- Rules that have different ids all come to live. -/
theorem foldl_arrive_register {rules live : List Rule} (h : ((live ++ rules).map Rule.id).Nodup) :
    (rules.map Operation.register).foldl arrive live = live ++ rules := by
  induction rules generalizing live with
  | nil => rw [List.append_nil]; rfl
  | cons r rules ih =>
    have hfresh : live.any (·.id == r.id) = false := by
      rw [List.any_eq_false]
      intro s hs
      rw [beq_iff_eq]
      intro hid
      rw [List.map_append, List.nodup_append] at h
      exact h.2.2 _ (List.mem_map_of_mem hs) _ (List.mem_map_of_mem List.mem_cons_self) hid
    rw [List.append_cons] at h ⊢
    rw [List.map_cons, List.foldl_cons, arrive, hfresh]
    exact ih h

/-- Registration puts the rules into some order. -/
theorem registered_perm {priority : Rule → Int} {rules : List Rule}
    (h : (rules.map Rule.id).Nodup) :
    (registered priority rules).rules.Perm (rules.map fun r => r.rank (priority r)) := by
  have hids : ((rules.map fun r => r.rank (priority r)).map Rule.id).Nodup := by
    rw [List.map_map]
    exact h
  have hlive : arrivals (rules.map fun r => .register (r.rank (priority r))) =
      rules.map fun r => r.rank (priority r) := by
    have hnodup : (([] ++ rules.map fun r : Rule => r.rank (priority r)).map Rule.id).Nodup := hids
    have hall := foldl_arrive_register hnodup
    rw [List.map_map] at hall
    exact hall
  rw [registered, (mirrors_after _).rules, hlive]
  exact List.mergeSort_perm ..

/-- Where independent rules stand in the registry makes no difference. -/
theorem reached_fireDetailed {g : Registry} {rules : List Rule} {priority : Rule → Int}
    (hg : g.rules.Perm (rules.map fun r => r.rank (priority r)))
    (hexcl : ∀ r ∈ rules, r.exclusive = false)
    (hplain : ∀ r ∈ rules, ∀ a ∈ r.actions, a.isPlain = true)
    (hind : ∀ r ∈ rules, ∀ s ∈ rules, r ≠ s → r.Independent s) (c : Context) :
    reached (g.fireDetailed clock now c) = rules.foldl (attempt clock now) (some (c, 0)) := by
  have hmem : ∀ r ∈ g.rules, ∃ s ∈ rules, s.rank (priority s) = r := fun r hr =>
    List.mem_map.1 (hg.subset hr)
  have hg_excl : ∀ r ∈ g.rules, r.exclusive = false := by
    intro r hr
    obtain ⟨s, hs, rfl⟩ := hmem r hr
    exact hexcl s hs
  have hcomm : ∀ r ∈ g.rules, ∀ s ∈ g.rules, ∀ state,
      attempt clock now (attempt clock now state r) s =
        attempt clock now (attempt clock now state s) r := by
    intro r hr s hs state
    obtain ⟨t, ht, rfl⟩ := hmem r hr
    obtain ⟨u, hu, rfl⟩ := hmem s hs
    simp only [attempt_rank]
    by_cases htu : t = u
    · rw [htu]
    · exact attempt_comm (hind t ht u hu htu) (hplain t ht) (hplain u hu) state
  calc reached (g.fireDetailed clock now c)
      = g.rules.foldl (attempt clock now) (some (c, 0)) := reached_passDetailed hg_excl {} c
    _ = (rules.map fun r => r.rank (priority r)).foldl (attempt clock now) (some (c, 0)) :=
        hg.foldl_eq' hcomm _
    _ = rules.foldl (attempt clock now) (some (c, 0)) := List.foldl_map

theorem reached_of_ok {o : Outcome Report} {p : Report} (h : o.result = .ok p) :
    reached o = some (o.context, (p.fired : Multiset String)) := by
  rw [reached, h]

theorem reached_isSome_iff {o : Outcome Report} :
    (reached o).isSome = true ↔ ∃ p, o.result = .ok p := by
  rw [reached]
  cases o.result <;> simp

/-- COMMUTES: rules that never end a pass, only write and log, and are independent of each other can
    be registered in any order and with any priorities. Whether a pass succeeds does not depend on
    it, and the context it comes to and the rules that fire do not either. -/
theorem fireDetailed_comm {rules rules' : List Rule} (hperm : rules.Perm rules')
    (hids : (rules.map Rule.id).Nodup) (hexcl : ∀ r ∈ rules, r.exclusive = false)
    (hplain : ∀ r ∈ rules, ∀ a ∈ r.actions, a.isPlain = true)
    (hind : ∀ r ∈ rules, ∀ s ∈ rules, r ≠ s → r.Independent s)
    (priority priority' : Rule → Int) (clock clock' now : Instant) (c : Context) :
    let o := (registered priority rules).fireDetailed clock now c
    let o' := (registered priority' rules').fireDetailed clock' now c
    ((∃ p, o.result = .ok p) ↔ ∃ p, o'.result = .ok p) ∧
      ∀ p p', o.result = .ok p → o'.result = .ok p' →
        o.context = o'.context ∧ p.fired.Perm p'.fired := by
  intro o o'
  have hids' : (rules'.map Rule.id).Nodup := (hperm.map Rule.id).nodup_iff.1 hids
  have hregistered : (registered priority' rules').rules.Perm
      (rules.map fun r => r.rank (priority' r)) :=
    (registered_perm hids').trans (hperm.symm.map _)
  have hreached : reached o = reached o' :=
    calc reached o
        = rules.foldl (attempt clock now) (some (c, 0)) :=
          reached_fireDetailed (registered_perm hids) hexcl hplain hind c
      _ = rules.foldl (attempt clock' now) (some (c, 0)) :=
          List.foldl_ext _ _ _ fun state r hr => attempt_clock (hplain r hr) state
      _ = reached o' := (reached_fireDetailed hregistered hexcl hplain hind c).symm
  refine ⟨?_, fun p p' hp hp' => ?_⟩
  · rw [← reached_isSome_iff, hreached, reached_isSome_iff]
  · rw [reached_of_ok hp, reached_of_ok hp'] at hreached
    obtain ⟨hcontext, hfired⟩ := Prod.mk.inj (Option.some.inj hreached)
    exact ⟨hcontext, Multiset.coe_eq_coe.1 hfired⟩

/-- Two rules that share what they read and write apart, the other way round. -/
theorem fireDetailed_comm_pair :
    let z : Expression := ⟨"z", .path "z" [], by cbv⟩
    let a : Rule :=
      ⟨"a", "a", none, 0, false, none, none, .field ⟨"z.n", .compare .ne, .int 1⟩,
        [.set "x.y" z, .set "x.z" z]⟩
    let b : Rule :=
      ⟨"b", "b", none, 0, false, none, none, .field ⟨"z.m", .compare .eq, .null⟩,
        [.set "w" z]⟩
    let c : Context := ⟨[("z", .map [("n", .int 2)])]⟩
    [a, b].Perm [b, a] ∧ ([a, b].map Rule.id).Nodup ∧
    (∀ r ∈ [a, b], r.exclusive = false) ∧
    (∀ r ∈ [a, b], ∀ x ∈ r.actions, x.isPlain = true) ∧
    (∀ r ∈ [a, b], ∀ s ∈ [a, b], r ≠ s → r.Independent s) ∧
    ((registered (fun _ => 3) [a, b]).fireDetailed ⟨0, 0⟩ ⟨0, 0⟩ c).context =
      ((registered (fun _ => 5) [b, a]).fireDetailed ⟨1, 0⟩ ⟨0, 0⟩ c).context := by
  intro z a b c
  have hperm : [a, b].Perm [b, a] := .swap ..
  have hids : ([a, b].map Rule.id).Nodup := by decide
  have hexcl : ∀ r ∈ [a, b], r.exclusive = false := by simp [a, b]
  have hplain : ∀ r ∈ [a, b], ∀ x ∈ r.actions, x.isPlain = true := by
    simp [a, b, Action.isPlain]
  have hab : a.Independent b := by
    have ha : a.writes = ["x", "x"] ∧ a.reads = ["z", "z", "z"] := ⟨rfl, rfl⟩
    have hb : b.writes = ["w"] ∧ b.reads = ["z", "z"] := ⟨rfl, rfl⟩
    rw [Rule.Independent, ha.1, ha.2, hb.1, hb.2]
    simp
  have hind : ∀ r ∈ [a, b], ∀ s ∈ [a, b], r ≠ s → r.Independent s := by
    intro r hr s hs hne
    rcases List.mem_pair.1 hr with rfl | rfl <;> rcases List.mem_pair.1 hs with rfl | rfl
    · exact absurd rfl hne
    · exact hab
    · exact hab.symm
    · exact absurd rfl hne
  refine ⟨hperm, hids, hexcl, hplain, hind, ?_⟩
  obtain ⟨-, hsame⟩ := fireDetailed_comm hperm hids hexcl hplain hind (fun _ => 3) (fun _ => 5)
    ⟨0, 0⟩ ⟨1, 0⟩ ⟨0, 0⟩ c
  have hp : ((registered (fun _ => 3) [a, b]).fireDetailed ⟨0, 0⟩ ⟨0, 0⟩ c).result =
      .ok { evaluated := ["a", "b"], fired := ["a", "b"] } := by
    unfold a b z c
    cbv
  have hp' : ((registered (fun _ => 5) [b, a]).fireDetailed ⟨1, 0⟩ ⟨0, 0⟩ c).result =
      .ok { evaluated := ["b", "a"], fired := ["b", "a"] } := by
    unfold a b z c
    cbv
  exact (hsame _ _ hp hp').1

end Registry

end Rulebook
