import Rulebook.Proofs.Evaluation

/-!
Where an error comes from. An evaluation that fails does so at some place of the tree, maybe deep
inside an index, where one step is refused:

    orders[lines[k]].price + 1 / n

    k               is no name of the context
    lines[k]        k is no integer, or out of range; lines is no list
    .price          what was found has no such field
    1 / n           n is zero, or no number
    the sum         the price is no number

The error of an evaluation is that of one such refusal. So what holds of the errors of single steps
holds of those of all trees.
-/

namespace Rulebook

variable {c : Context} {e f : Expr} {v : Value} {err : EvalError}

/-! ### Places -/

/-- A tree occurs in another one: it is that tree, or it occurs in one of its operands
    or indices. -/
inductive Expr.Occurs : Expr → Expr → Prop
  | self (e : Expr) : Occurs e e
  | left {x l r : Expr} {op : BinOp} : Occurs x l → Occurs x (.binary op l r)
  | right {x l r : Expr} {op : BinOp} : Occurs x r → Occurs x (.binary op l r)
  | not {x e : Expr} : Occurs x e → Occurs x (.not e)
  | all {x e : Expr} {es : List Expr} : e ∈ es → Occurs x e → Occurs x (.all es)
  | any {x e : Expr} {es : List Expr} : e ∈ es → Occurs x e → Occurs x (.any es)
  | index {x e : Expr} {root : String} {ss : List Segment} :
      .index e ∈ ss → Occurs x e → Occurs x (.path root ss)

/-- A step of a path is refused. -/
inductive Segment.Refused : Segment → EvalError → Prop
  | field {name : String} {v : Value} {err : EvalError} : v.field name = .error err →
    Refused (.field name) err
  | call {name : String} {v : Value} {err : EvalError} : v.call name = .error err →
    Refused (.call name) err
  | element {e : Expr} {items : List Value} {i : Value} {err : EvalError} :
      Value.element items i = .error err → Refused (.index e) err
  | whole {e : Expr} {v : Value} : v.kind ≠ .list → Refused (.index e) (.notIndexable v.kind)

/-- A tree whose operands have values is refused, or is an operand and has a value
    that is no truth value. -/
inductive Expr.Refused (c : Context) : Expr → EvalError → Prop
  | root {root : String} {ss : List Segment} :
      c.lookup root = none → Refused c (.path root ss) (.unboundVariable root)
  | segment {s : Segment} {root : String} {ss : List Segment} {err : EvalError} :
      s ∈ ss → s.Refused err → Refused c (.path root ss) err
  | operator {op : BinOp} {l r : Expr} {a b : Value} {err : EvalError} :
      l.eval c = .ok a → r.eval c = .ok b → op.apply a b = .error err →
      Refused c (.binary op l r) err
  | operand {e : Expr} {v : Value} {operator : String} {err : EvalError} :
      e.eval c = .ok v → v.truth operator = .error err → Refused c e err

/-- At some place of a tree there is a refusal with this error. -/
def Expr.Fails (c : Context) (e : Expr) (err : EvalError) : Prop :=
  ∃ x : Expr, x.Occurs e ∧ x.Refused c err

theorem Expr.Refused.fails (h : e.Refused c err) : e.Fails c err := ⟨e, .self e, h⟩

theorem Expr.Fails.of_operand (h : e.Fails c err) (hf : ∀ x : Expr, x.Occurs e → x.Occurs f) :
    f.Fails c err := by
  obtain ⟨x, hx, herr⟩ := h
  exact ⟨x, hf x hx, herr⟩

/-! ### Every error has a place -/

theorem Expr.truth_fails {operator : String}
    (he : ∀ {err}, e.eval c = .error err → e.Fails c err)
    (h : e.truth c operator = .error err) : e.Fails c err := by
  rcases bind_eq_error h with h | ⟨v, hv, h⟩
  · exact he h
  · exact (Expr.Refused.operand hv h).fails

mutual

/-- The error of an evaluation is that of a refusal somewhere in the tree. -/
theorem Expr.fails_of_eval :
    ∀ (e : Expr) {err : EvalError}, e.eval c = .error err → e.Fails c err
  | .literal _, _, h => by rw [Expr.eval] at h; cases h
  | .path root ss, _, h => by
    rw [Expr.eval] at h
    cases hroot : c.lookup root with
    | none =>
      rw [hroot] at h
      cases h
      exact (Expr.Refused.root hroot).fails
    | some v =>
      rw [hroot] at h
      obtain ⟨s, hs, hrefused | ⟨e, rfl, he⟩⟩ := Segment.fails_of_walk ss h
      · exact (Expr.Refused.segment hs hrefused).fails
      · exact he.of_operand fun x => .index hs
  | .binary op l r, _, h => by
    rw [Expr.eval_binary] at h
    rcases bind_eq_error h with hl | ⟨a, hl, h⟩
    · exact (l.fails_of_eval hl).of_operand fun x => .left
    rcases bind_eq_error h with hr | ⟨b, hr, h⟩
    · exact (r.fails_of_eval hr).of_operand fun x => .right
    · exact (Expr.Refused.operator hl hr h).fails
  | .not e, _, h => by
    rw [Expr.eval_not] at h
    have he : e.Fails c _ := Expr.truth_fails e.fails_of_eval (map_eq_error h)
    exact he.of_operand fun x => .not
  | .all es, _, h => by
    rw [Expr.eval] at h
    obtain ⟨e, hmem, he⟩ := Expr.fails_of_settle es (map_eq_error h)
    exact he.of_operand fun x => .all hmem
  | .any es, _, h => by
    rw [Expr.eval] at h
    obtain ⟨e, hmem, he⟩ := Expr.fails_of_settle es (map_eq_error h)
    exact he.of_operand fun x => .any hmem

theorem Expr.fails_of_settle {operator : String} {stop : Bool} :
    ∀ (es : List Expr) {err : EvalError},
    Expr.settle c operator stop es = .error err → ∃ e ∈ es, e.Fails c err
  | [], _, h => by rw [Expr.settle] at h; cases h
  | e :: es, _, h => by
    rw [Expr.settle_cons] at h
    rcases bind_eq_error h with he | ⟨b, -, h⟩
    · exact ⟨e, List.mem_cons_self, Expr.truth_fails e.fails_of_eval he⟩
    split at h
    · cases h
    · obtain ⟨e', hmem, he'⟩ := Expr.fails_of_settle es h
      exact ⟨e', List.mem_cons_of_mem _ hmem, he'⟩

theorem Segment.fails_of_walk : ∀ (ss : List Segment) {v : Value} {err : EvalError},
    Segment.walk c ss v = .error err →
    ∃ s ∈ ss, s.Refused err ∨ ∃ e, s = .index e ∧ e.Fails c err
  | [], _, _, h => by rw [Segment.walk] at h; cases h
  | s :: ss, v, _, h => by
    rw [Segment.walk_cons] at h
    rcases bind_eq_error h with hs | ⟨w, -, h⟩
    · exact ⟨s, List.mem_cons_self, s.fails_of_step hs⟩
    · obtain ⟨s', hmem, hs'⟩ := Segment.fails_of_walk ss h
      exact ⟨s', List.mem_cons_of_mem _ hmem, hs'⟩

theorem Segment.fails_of_step : ∀ (s : Segment) {v : Value} {err : EvalError},
    s.step c v = .error err → s.Refused err ∨ ∃ e, s = .index e ∧ e.Fails c err
  | .field _, _, _, h => by rw [Segment.step] at h; exact .inl (.field h)
  | .call _, _, _, h => by rw [Segment.step] at h; exact .inl (.call h)
  | .index e, v, _, h => by
    by_cases hlist : v.kind = .list
    · obtain ⟨items, rfl⟩ : ∃ items, v = .list items := by
        cases v with
        | list items => exact ⟨items, rfl⟩
        | _ => cases hlist
      rw [Segment.step_index] at h
      rcases bind_eq_error h with he | ⟨i, -, h⟩
      · exact .inr ⟨e, rfl, e.fails_of_eval he⟩
      · exact .inl (.element h)
    · have hwhole : (Segment.index e).step c v = .error (.notIndexable v.kind) := by
        cases v with
        | list items => exact absurd rfl hlist
        | _ => rfl
      rw [hwhole] at h
      cases h
      exact .inl (.whole hlist)

end

theorem Expression.fails_of_test {e : Expression} (h : e.test c = .error err) :
    e.tree.Fails c err :=
  Expr.truth_fails e.tree.fails_of_eval (e.test_eq ▸ h)

end Rulebook
