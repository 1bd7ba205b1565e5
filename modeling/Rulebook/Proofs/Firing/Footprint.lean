import Rulebook.Proofs.Firing.Turn
import Rulebook.Proofs.Roots

/-!
What a pass reads and writes. The names that the rules mention are all that matters to a pass and
all that it changes, as long as its actions are writes and messages:

    when total > 100 and owner.name == null     reads total, owner
    then set price.net = total * rate           reads total, rate; writes price
    log price.net                               reads price

The two runs of a comparison go in parallel: from contexts that agree on what is read they do the
same writes, each in its own context, log the same events and end in the same way. One lemma a level
says so of an action, actions in a row, a turn and a pass, and each follows from the one below
because the same writes keep two contexts in agreement.
-/

namespace Rulebook

/-! ### Footprints -/

namespace Action

/-- Whether an action is a write or a message. -/
def isPlain : Action → Bool
  | set .. => true
  | log .. => true
  | _ => false

/-- The names that a write or a message looks at. -/
def reads : Action → List String
  | set _ e => e.tree.roots
  | log _ keys => keys.map rootOf
  | _ => []

/-- The name that a write goes to. -/
def writes : Action → List String
  | set key _ => [rootOf key]
  | _ => []

end Action

/-- The names that a rule looks at, in its condition and in its actions. -/
def Rule.reads (r : Rule) : List String := r.condition.roots ++ r.actions.flatMap Action.reads

/-- The names that a rule writes to. -/
def Rule.writes (r : Rule) : List String := r.actions.flatMap Action.writes

/-- The names that the rules write to. -/
def Registry.writes (g : Registry) : List String := g.rules.flatMap Rule.writes

/-- All names in the rules. -/
def Registry.mentions (g : Registry) : List String := g.rules.flatMap Rule.reads ++ g.writes

variable {α β : Type} {clock clock' now : Instant} {c d : Context} {ks js : List String}

/-! ### Work in parallel -/

namespace Outcome

/-- From two contexts the same has been done: the same writes, all to names of a list, and the same
    events, with the same result. -/
structure Parallel (ks : List String) (c d : Context) (o o' : Outcome α) : Prop where
  result : o.result = o'.result
  events : o.events = o'.events
  contexts : ∃ ws, Context.rootsOf ws ⊆ ks ∧ o.context = c.insertAll ws ∧
    o'.context = d.insertAll ws

namespace Parallel

variable {o o' : Outcome α}

/-- Work that writes nothing. -/
theorem idle {events : List Event} {result : Except ActionError α} :
    Parallel ks c d ⟨c, events, result⟩ ⟨d, events, result⟩ :=
  ⟨rfl, rfl, [], List.nil_subset ks, rfl, rfl⟩

theorem done {a : α} : Parallel ks c d (.done c a) (.done d a) := idle

theorem mono (h : Parallel ks c d o o') (hsub : ks ⊆ js) : Parallel js c d o o' := by
  obtain ⟨ws, hws, hc, hd⟩ := h.contexts
  exact ⟨h.result, h.events, ws, List.Subset.trans hws hsub, hc, hd⟩

theorem andThen (h : Parallel ks c d o o') {f f' : α → Context → Outcome β}
    (hf : ∀ a, Parallel ks o.context o'.context (f a o.context) (f' a o'.context)) :
    Parallel ks c d (o.andThen f) (o'.andThen f') := by
  cases ho : o.result with
  | error e =>
    rw [andThen_of_error ho, andThen_of_error (h.result ▸ ho)]
    exact ⟨rfl, h.events, h.contexts⟩
  | ok a =>
    rw [andThen_of_ok ho, andThen_of_ok (h.result ▸ ho)]
    obtain ⟨ws, hws, hc, hd⟩ := h.contexts
    obtain ⟨vs, hvs, hc', hd'⟩ := (hf a).contexts
    -- both runs did the writes `ws` first and then `vs`
    refine ⟨(hf a).result, ?_, ws ++ vs, ?_, ?_, ?_⟩
    · rw [h.events, (hf a).events]
    · rw [Context.rootsOf, List.map_append]
      exact List.append_subset.2 ⟨hws, hvs⟩
    · rw [hc', hc, Context.insertAll_append]
    · rw [hd', hd, Context.insertAll_append]

/-- From one context the same work leads to one outcome. -/
theorem eq (h : Parallel ks c c o o') : o = o' := by
  obtain ⟨ws, -, hc, hd⟩ := h.contexts
  cases o
  cases o'
  rw [Outcome.mk.injEq]
  exact ⟨hc.trans hd.symm, h.events, h.result⟩

/-- Contexts that agree go on to do so, on whatever they agree. -/
theorem agree (h : Parallel ks c d o o') (hagree : c.Agree js d) :
    o.context.Agree js o'.context := by
  obtain ⟨ws, -, hc, hd⟩ := h.contexts
  rw [hc, hd]
  exact hagree.insertAll

theorem lookup_left (h : Parallel ks c d o o') {k : String} (hk : k ∉ ks) :
    o.context.lookup k = c.lookup k := by
  obtain ⟨ws, hws, hc, -⟩ := h.contexts
  rw [hc]
  exact Context.lookup_insertAll_of_not_mem fun hw => hk (hws hw)

theorem lookup_right (h : Parallel ks c d o o') {k : String} (hk : k ∉ ks) :
    o'.context.lookup k = d.lookup k := by
  obtain ⟨ws, hws, -, hd⟩ := h.contexts
  rw [hd]
  exact Context.lookup_insertAll_of_not_mem fun hw => hk (hws hw)

end Parallel

end Outcome

open Outcome (Parallel)

/-! ### Actions -/

namespace Action

theorem rendered_congr {keys : List String} (h : c.Agree (keys.map rootOf) d) :
    rendered c keys = rendered d keys := by
  rw [rendered, rendered]
  congr 1
  refine List.map_congr_left fun k hk => ?_
  rw [Context.get_congr (h _ (List.mem_map_of_mem hk))]

theorem run_parallel {a : Action} (ha : a.isPlain = true) (h : c.Agree a.reads d) :
    Parallel a.writes c d (a.run clock c) (a.run clock' d) := by
  cases a with
  | set key e =>
    rw [run, run, Expression.eval_congr h]
    cases e.eval d with
    | error cause => exact .idle
    | ok v => exact ⟨rfl, rfl, [(key, v)], List.Subset.refl _, rfl, rfl⟩
  | log message keys =>
    rw [run, run, rendered_congr h]
    exact .idle
  | lottery l => cases ha
  | custom name run => cases ha

theorem runAll_parallel {as : List Action} (has : ∀ a ∈ as, a.isPlain = true)
    (h : c.Agree (as.flatMap reads) d) :
    Parallel (as.flatMap writes) c d (runAll clock as c) (runAll clock' as d) := by
  induction as generalizing c d with
  | nil => exact .done
  | cons a as ih =>
    obtain ⟨ha, has⟩ := List.forall_mem_cons.1 has
    have hfirst : Parallel a.writes c d (a.run clock c) (a.run clock' d) := run_parallel ha h.left
    rw [runAll, runAll]
    refine (hfirst.mono (List.subset_append_left ..)).andThen fun _ => ?_
    -- the first action leaves contexts that agree on what the others look at
    exact (ih has (hfirst.agree h.right)).mono (List.subset_append_right ..)

end Action

/-! ### Turns and passes -/

namespace Rule

variable {r : Rule}

theorem fires_congr (h : c.Agree r.reads d) : r.fires now c = r.fires now d := by
  rw [fires, fires, Condition.holds, Condition.holds, Condition.check_congr _ _ h.left]

theorem stops_congr (h : c.Agree r.reads d) : r.stops now c = r.stops now d := by
  rw [stops, stops, fires_congr h]

theorem faults_congr (h : c.Agree r.reads d) : r.faults c = r.faults d := by
  rw [faults, faults, Condition.check_congr _ _ h.left]

theorem turn_parallel (hr : ∀ a ∈ r.actions, a.isPlain = true) (h : c.Agree r.reads d) :
    Parallel r.writes c d (r.turn clock now c) (r.turn clock' now d) := by
  rw [turn, turn, fires_congr h]
  split
  · exact Action.runAll_parallel hr h.right
  · exact .done

end Rule

theorem Report.note_congr {r : Rule} {p : Report} (h : c.Agree r.reads d) :
    p.note now r c = p.note now r d := by
  rw [note, note, Rule.fires_congr h, Rule.stops_congr h, Rule.faults_congr h]

namespace Registry

theorem passDetailed_parallel {rules : List Rule} {p : Report}
    (hplain : ∀ r ∈ rules, ∀ a ∈ r.actions, a.isPlain = true)
    (h : c.Agree (rules.flatMap Rule.reads) d) :
    Parallel (rules.flatMap Rule.writes) c d (passDetailed clock now rules p c)
      (passDetailed clock' now rules p d) := by
  induction rules generalizing p c d with
  | nil => exact .done
  | cons r rules ih =>
    obtain ⟨hr, hrules⟩ := List.forall_mem_cons.1 hplain
    have hturn : Parallel r.writes c d (r.turn clock now c) (r.turn clock' now d) :=
      Rule.turn_parallel hr h.left
    rw [passDetailed_cons_note, passDetailed_cons_note, Rule.stops_congr h.left,
      Report.note_congr h.left]
    refine (hturn.mono (List.subset_append_left ..)).andThen fun _ => ?_
    split
    -- both passes are ended by this rule, or by none so far
    · exact .done
    · exact (ih hrules (hturn.agree h.right)).mono (List.subset_append_right ..)

/-- CONFINED: from contexts that agree on the names that the rules mention, a pass gives one report
    or one failure and one list of events, and the contexts agree on these names again. In each run
    a name that no write goes to shows what it showed before. -/
theorem fireDetailed_confined {g : Registry}
    (hplain : ∀ r ∈ g.rules, ∀ a ∈ r.actions, a.isPlain = true) (h : c.Agree g.mentions d)
    (clock clock' now : Instant) :
    let o := g.fireDetailed clock now c
    let o' := g.fireDetailed clock' now d
    o.result = o'.result ∧ o.events = o'.events ∧ o.context.Agree g.mentions o'.context ∧
      (∀ k ∉ g.writes, o.context.lookup k = c.lookup k) ∧
      ∀ k ∉ g.writes, o'.context.lookup k = d.lookup k := by
  intro o o'
  have hrun : Parallel g.writes c d o o' := passDetailed_parallel hplain h.left
  exact ⟨hrun.result, hrun.events, hrun.agree h, fun k => hrun.lookup_left,
    fun k => hrun.lookup_right⟩

/-- A rule that reads and writes parts of one map, in contexts one of which has a name more. -/
theorem fireDetailed_confined_other :
    let z : Expression := ⟨"z", .path "z" [], by cbv⟩
    let g : Registry := ⟨[⟨"a", "a", none, 0, false, none, none,
      .all [.field ⟨"user.age", .compare .ge, .int 18⟩,
      .not (.field ⟨"user.id", .contains, .null⟩)],
      [.set "user.seen" z, .log "seen" ["user.seen"]]⟩]⟩
    let user : String × Value := ("user", .map [("age", .int 20), ("id", .int 3)])
    let c : Context := ⟨[("other", .int 1), user, ("z", .bool true)]⟩
    let d : Context := ⟨[user, ("z", .bool true)]⟩
    (∀ r ∈ g.rules, ∀ a ∈ r.actions, a.isPlain = true) ∧ c.Agree g.mentions d ∧
    (g.fireDetailed ⟨0, 0⟩ ⟨0, 0⟩ c).result =
      (g.fireDetailed ⟨1, 0⟩ ⟨0, 0⟩ d).result ∧
    (g.fireDetailed ⟨0, 0⟩ ⟨0, 0⟩ c).context.lookup "other" = some (.int 1) ∧
    (g.fireDetailed ⟨1, 0⟩ ⟨0, 0⟩ d).context.lookup "other" = none := by
  intro z g user c d
  have hplain : ∀ r ∈ g.rules, ∀ a ∈ r.actions, a.isPlain = true := by
    simp [g, Action.isPlain]
  have hmentions : g.mentions = ["user", "user", "z", "user", "user"] := rfl
  have hagree : c.Agree g.mentions d := by
    rw [hmentions]
    simp [Context.Agree, c, d, user, Context.lookup, Fields.find?]
  have hwrites : g.writes = ["user"] := rfl
  have hother : "other" ∉ g.writes := by
    rw [hwrites]
    decide
  obtain ⟨hresult, -, -, hc, hd⟩ :=
    fireDetailed_confined hplain hagree ⟨0, 0⟩ ⟨1, 0⟩ ⟨0, 0⟩
  exact ⟨hplain, hagree, hresult, hc _ hother, hd _ hother⟩

end Registry

end Rulebook
