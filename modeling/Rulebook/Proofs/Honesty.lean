import Rulebook.Proofs.Mismatches

/-!
What an error says. The error of an evaluation is true of the tree and of the context, and no news
about other ones:

    orders[lines[k]].price + 1 / n

    unbound variable 'k'            a path begins with k, and the context has no k
    no field 'price' on map         .price is asked for
    index 7 out of bounds ...       7 is no place in the list
    cannot index into int           what was to be indexed is no list
    '[]' expects int, found ...     what was found is no integer
    division by zero                there is a division

All of it is read off the place where the evaluation fails, and the blame of a mismatch is fair.
-/

namespace Rulebook

variable {c : Context} {e : Expr} {err : EvalError}

/-- What an error says is true of a tree and a context. -/
def EvalError.Honest (c : Context) (e : Expr) : EvalError → Prop
  | unboundVariable name => (∃ ss, (Expr.path name ss).Occurs e) ∧ c.lookup name = none
  | noSuchField name _ => ∃ root ss, (Expr.path root ss).Occurs e ∧ .field name ∈ ss
  | noSuchMethod name _ => ∃ root ss, (Expr.path root ss).Occurs e ∧ .call name ∈ ss
  | indexOutOfBounds i size => i.toInt < 0 ∨ size ≤ i.toInt
  | notIndexable found => found ≠ .list
  | typeMismatch _ expected found => expected.admits found = false
  | divisionByZero => ∃ l r, (Expr.binary (.arith .div) l r).Occurs e
  | overflow op => ∃ l r, (Expr.binary (.arith op) l r).Occurs e

theorem Segment.Refused.honest {s : Segment} {root : String} {ss : List Segment} (h : s.Refused err)
    (hs : s ∈ ss) (hpath : (Expr.path root ss).Occurs e) : err.Honest c e := by
  cases h with
  | field h =>
    rw [Value.field_error h]
    exact ⟨root, ss, hpath, hs⟩
  | call h =>
    rw [Value.call_error h]
    exact ⟨root, ss, hpath, hs⟩
  | element h =>
    rcases Value.element_error h with ⟨rfl, hkind⟩ | ⟨n, rfl, hrange⟩
    · exact beq_eq_false_iff_ne.2 hkind
    · exact hrange
  | whole hkind => exact hkind

theorem Expr.Fails.honest (h : e.Fails c err) : err.Honest c e := by
  have hfair := h.fair
  obtain ⟨x, hx, hrefused⟩ := h
  cases hrefused with
  | root hroot => exact ⟨⟨_, hx⟩, hroot⟩
  | segment hs hrefused => exact hrefused.honest hs hx
  | operator _ _ happly =>
    rcases BinOp.apply_error happly with ⟨rfl, -⟩ | ⟨rfl, rfl⟩ | ⟨op, rfl, rfl⟩
    · exact hfair
    · exact ⟨_, _, hx⟩
    · exact ⟨_, _, hx⟩
  | operand _ htruth =>
    rw [Value.truth] at htruth
    split at htruth
    · cases htruth
    · cases htruth
      exact hfair

/-- HONEST: an expression that has no value, or no truth value, fails with an error that is
    true of it: what the error names occurs in the expression and is missing, out of range or
    of no kind that is accepted. -/
theorem Expression.error_honest (c : Context) (e : Expression) :
    (∀ err, e.eval c = .error err → err.Honest c e.tree) ∧
    ∀ err, e.test c = .error err → err.Honest c e.tree :=
  ⟨fun _ h => (e.tree.fails_of_eval h).honest, fun _ h => (e.fails_of_test h).honest⟩

/-- An index inside an index: a name that is missing, and once it is bound an element that is. -/
theorem Expression.error_honest_index :
    let tree : Expr :=
      .path "orders" [.index (.path "lines" [.index (.path "k" [])]), .field "price"]
    let c : Context :=
      ⟨[("lines", .list [.int 1]), ("orders", .list [.map [("price", .int 100)]])]⟩
    let d := c.insert "k" (.int 0)
    ∃ e : Expression, e.source = "orders[lines[k]].price" ∧
      e.eval c = .error (.unboundVariable "k") ∧ (EvalError.unboundVariable "k").Honest c tree ∧
      e.test d = .error (.indexOutOfBounds 1 1) ∧
      (EvalError.indexOutOfBounds 1 1).Honest d tree := by
  intro tree c d
  have htokens : tokenize "orders[lines[k]].price" =
      .ok ([⟨.word "orders", 0⟩, ⟨.openIndex, 6⟩, ⟨.word "lines", 7⟩,
        ⟨.openIndex, 12⟩, ⟨.word "k", 13⟩, ⟨.closeIndex, 14⟩, ⟨.closeIndex, 15⟩,
        ⟨.dot, 16⟩, ⟨.word "price", 17⟩] ++ [⟨.ending, 22⟩]) := by
    cbv
  have hk : Language.Disjunction [.word "k"] (.path "k" []) :=
    Language.Negation.disjunction (.path .nil)
  have hlines := Language.Negation.path (x := "lines") (.index hk .nil)
  have htree :=
    Language.Negation.path (x := "orders") (.index hlines.disjunction (.field (x := "price") .nil))
  have hspells : Expr.ofSource "orders[lines[k]].price" = .ok tree :=
    Expr.ofSource_of_tokens htokens (by decide) rfl htree.disjunction (by decide)
  let e : Expression := ⟨_, tree, hspells⟩
  have heval : e.eval c = .error (.unboundVariable "k") := rfl
  have htest : e.test d = .error (.indexOutOfBounds 1 1) := rfl
  exact ⟨e, rfl, heval, (error_honest c e).1 _ heval, htest, (error_honest d e).2 _ htest⟩

end Rulebook
