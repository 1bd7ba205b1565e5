import Rulebook.Proofs.Chains
import Rulebook.Proofs.Conditions
import Rulebook.Proofs.Writing

/-!
Two ways to combine conditions: the operators `&&` and `||` inside one expression, and the
connectives over several. They mean the same as long as every operand is a truth value. An operand
that fails, or is something else, ends a chain as a whole, which then is false; to a connective it
is one child that is false:

                            one expression      connective
    vip && missing          false               false
    missing && vip          false               false
    vip || missing          true                true
    missing || vip          false               true

So there is no telling `&&` from `all`, whereas `any` is weaker than `||`: it holds where the chain
does, and also where an operand holds behind one that fails.
-/

namespace Rulebook

variable {c : Context} {operator : String} {stop : Bool} {es : List Expr}

/-! ### Chains -/

namespace Expr

/-- A chain that is decided has an operand that decides it. -/
theorem exists_of_settle_eq_stop (h : settle c operator stop es = .ok stop) :
    ∃ e ∈ es, e.eval c = .ok (.bool stop) := by
  induction es with
  | nil =>
    rw [settle] at h
    cases stop <;> cases h
  | cons e es ih =>
    rw [settle_cons] at h
    cases ht : e.truth c operator with
    | error cause =>
      rw [ht] at h
      cases h
    | ok b =>
      by_cases hb : b = stop
      · exact ⟨e, List.mem_cons_self, hb ▸ truth_eq_ok_iff.1 ht⟩
      · rw [ht, ok_bind, if_neg hb] at h
        obtain ⟨x, hx, hstop⟩ := ih h
        exact ⟨x, List.mem_cons_of_mem _ hx, hstop⟩

/-- A chain is left open if and only if every operand is the truth value that leaves it open. -/
theorem settle_eq_not_stop_iff :
    settle c operator stop es = .ok (!stop) ↔ ∀ e ∈ es, e.eval c = .ok (.bool !stop) := by
  induction es with
  | nil => simp [settle]
  | cons e es ih =>
    rw [settle_cons, List.forall_mem_cons, ← ih, ← truth_eq_ok_iff]
    cases e.truth c operator with
    | error cause => simp
    | ok b =>
      by_cases hb : b = stop
      · simp [hb]
      · have hnot : b = !stop := Bool.eq_not.2 hb
        rw [ok_bind, if_neg hb, hnot]
        simp

/-- A chain of truth values has one. -/
theorem exists_settle_eq_ok (h : ∀ e ∈ es, ∃ b, e.eval c = .ok (.bool b)) :
    ∃ b, settle c operator stop es = .ok b := by
  induction es with
  | nil => exact ⟨!stop, by rw [settle]⟩
  | cons e es ih =>
    obtain ⟨⟨b, hb⟩, hes⟩ := List.forall_mem_cons.1 h
    rw [settle_cons, truth_eq_ok_iff.2 hb, ok_bind]
    split
    · exact ⟨stop, rfl⟩
    · exact ih hes

end Expr

/-- A chain of `||` that is written has two operands or more. -/
theorem Language.Disjunction.two_le_length {w : List Terminal} (h : Disjunction w (.any es)) :
    2 ≤ es.length := by
  -- below `||` no level has such a chain
  rcases h with ⟨⟨⟨⟨⟨⟨⟨⟩⟩⟩⟩⟩⟩⟩ | ⟨-, hlength⟩
  exact hlength

/-! ### Connectives -/

namespace Condition

variable {cs : List Condition} {e : Expression} {xs : List Expression}

theorem truths_eq_map : truths c cs = cs.map (truth c) := by
  induction cs with
  | nil => rfl
  | cons x cs ih => rw [truths, ih, List.map_cons]

theorem truth_all_iff : (all cs).truth c = true ↔ ∀ x ∈ cs, x.truth c = true := by
  rw [truth, truths_eq_map, List.all_map, List.all_eq_true]
  rfl

theorem truth_any_iff : (any cs).truth c = true ↔ cs = [] ∨ ∃ x ∈ cs, x.truth c = true := by
  rw [truth, truths_eq_map, Bool.or_eq_true, List.isEmpty_iff, List.any_map, List.any_eq_true]
  rfl

/-- An expression holds as a condition if and only if its value is true, under
    whatever operator it stands. -/
theorem truth_expr_iff_truth (operator : String) :
    (expr e).truth c = true ↔ e.tree.truth c operator = .ok true := by
  have hvalue : e.tree.truth c "condition" = .ok true ↔ e.tree.truth c operator = .ok true := by
    rw [Expr.truth_eq_ok_iff, Expr.truth_eq_ok_iff]
  rw [truth, Leaf.holds, Leaf.test, Expression.test_eq, ← hvalue]
  cases e.tree.truth c "condition" with
  | error cause => simp
  | ok b => cases b <;> simp

theorem truth_expr_iff : (expr e).truth c = true ↔ e.eval c = .ok (.bool true) :=
  (truth_expr_iff_truth "condition").trans Expr.truth_eq_ok_iff

theorem truth_all_expr_iff :
    (all (xs.map expr)).truth c = true ↔ ∀ x ∈ xs, x.eval c = .ok (.bool true) := by
  simp only [truth_all_iff, List.forall_mem_map, truth_expr_iff]

theorem truth_any_expr_iff : (any (xs.map expr)).truth c = true ↔
    xs = [] ∨ ∃ x ∈ xs, x.eval c = .ok (.bool true) := by
  simp only [truth_any_iff, List.map_eq_nil_iff, List.mem_map, exists_exists_and_eq_and,
    truth_expr_iff]

/-! ### One expression for several -/

theorem truth_expr_all (htree : e.tree = .all (xs.map Expression.tree)) :
    (expr e).truth c = true ↔ Expr.settle c "&&" false (xs.map Expression.tree) = .ok true := by
  rw [truth_expr_iff_truth "&&", htree, Expr.truth_all]

theorem truth_expr_any (htree : e.tree = .any (xs.map Expression.tree)) :
    (expr e).truth c = true ↔ Expr.settle c "||" true (xs.map Expression.tree) = .ok true := by
  rw [truth_expr_iff_truth "||", htree, Expr.truth_any]

/-- The operands of a chain that is written are not none. -/
theorem ne_nil_of_tree_any (htree : e.tree = .any (xs.map Expression.tree)) : xs ≠ [] := by
  rintro rfl
  have hread := (Expr.legibleRow_of_ofSource e.spells).2.1
  rw [htree] at hread
  exact absurd hread.two_le_length (by simp)

theorem truth_all_of_tree (htree : e.tree = .all (xs.map Expression.tree)) :
    (expr e).truth c = (all (xs.map expr)).truth c := by
  have hopen : Expr.settle c "&&" false (xs.map Expression.tree) = .ok (!false) ↔ _ :=
    Expr.settle_eq_not_stop_iff
  rw [Bool.eq_iff_iff, truth_all_expr_iff, truth_expr_all htree, ← Bool.not_false, hopen,
    List.forall_mem_map]
  rfl

theorem truth_any_of_tree (htree : e.tree = .any (xs.map Expression.tree))
    (h : (expr e).truth c = true) :
    (any (xs.map expr)).truth c = true := by
  obtain ⟨t, ht, hvalue⟩ := Expr.exists_of_settle_eq_stop ((truth_expr_any htree).1 h)
  obtain ⟨x, hx, rfl⟩ := List.mem_map.1 ht
  exact truth_any_expr_iff.2 (.inr ⟨x, hx, hvalue⟩)

/-- A chain of truth values that does not hold has no operand that does. -/
theorem truth_any_eq_of_tree (htree : e.tree = .any (xs.map Expression.tree))
    (hbools : ∀ x ∈ xs, ∃ b, x.eval c = .ok (.bool b)) :
    (expr e).truth c = (any (xs.map expr)).truth c := by
  refine Bool.eq_iff_iff.2 ⟨truth_any_of_tree htree, fun h => ?_⟩
  obtain ⟨x, hx, htrue⟩ := (truth_any_expr_iff.1 h).resolve_left (ne_nil_of_tree_any htree)
  obtain ⟨b, hb⟩ : ∃ b, Expr.settle c "||" true (xs.map Expression.tree) = .ok b :=
    Expr.exists_settle_eq_ok (List.forall_mem_map.2 hbools)
  cases b with
  | true => exact (truth_expr_any htree).2 hb
  | false =>
    have hfalse := Expr.settle_eq_not_stop_iff.1 hb x.tree (List.mem_map_of_mem hx)
    rw [Expression.eval, hfalse] at htrue
    cases htrue

/-- CHAINS AND CONNECTIVES: a chain of `&&` in one expression and its operands under `all` have
    one answer, whatever fails among them. A chain of `||` that holds makes its operands hold
    under `any`, and the two have one answer if every operand is a truth value. An expression
    leaves one diagnostic at most. -/
theorem check_combined (c : Context) (e : Expression) (xs : List Expression)
    (ds : List Diagnostic) :
    (e.tree = .all (xs.map Expression.tree) →
      ((expr e).check c ds).1 = ((all (xs.map expr)).check c ds).1) ∧
    (e.tree = .any (xs.map Expression.tree) →
      (((expr e).check c ds).1 = true → ((any (xs.map expr)).check c ds).1 = true) ∧
      ((∀ x ∈ xs, ∃ b, x.eval c = .ok (.bool b)) →
        ((expr e).check c ds).1 = ((any (xs.map expr)).check c ds).1)) ∧
    ∃ added, ((expr e).check c ds).2 = ds ++ added ∧ added.length ≤ 1 := by
  simp only [check_eq_truth]
  refine ⟨truth_all_of_tree,
    fun htree => ⟨truth_any_of_tree htree, truth_any_eq_of_tree htree⟩, _, rfl, ?_⟩
  rw [faults, reached]
  exact List.length_filterMap_le _ _

/-- Two names, of which the first one is missing and then bound: `&&` is as good as `all` in either
    context, and `||` is weaker than `any` where a name is missing. -/
theorem check_combined_missing :
    let c : Context := ⟨[("vip", .bool true)]⟩
    let d : Context := ⟨[("new", .bool false), ("vip", .bool true)]⟩
    ∃ new vip both either : Expression,
      new.source = "new" ∧ vip.source = "vip" ∧
      both.source = "new && vip" ∧ either.source = "new || vip" ∧
      ((expr both).check c []).1 = ((all [expr new, expr vip]).check c []).1 ∧
      ((expr either).check d []).1 = ((any [expr new, expr vip]).check d []).1 ∧
      ((any [expr new, expr vip]).check d []).1 = true ∧
      ((expr either).check c []).1 = false ∧
      ((any [expr new, expr vip]).check c []).1 = true := by
  intro c d
  have hnewTokens : tokenize "new" = .ok ([⟨.word "new", 0⟩] ++ [⟨.ending, 3⟩]) := by cbv
  have hvipTokens : tokenize "vip" = .ok ([⟨.word "vip", 0⟩] ++ [⟨.ending, 3⟩]) := by cbv
  have hbothTokens : tokenize "new && vip" =
      .ok ([⟨.word "new", 0⟩, ⟨.and, 4⟩, ⟨.word "vip", 7⟩] ++ [⟨.ending, 10⟩]) := by
    cbv
  have heitherTokens : tokenize "new || vip" =
      .ok ([⟨.word "new", 0⟩, ⟨.or, 4⟩, ⟨.word "vip", 7⟩] ++ [⟨.ending, 10⟩]) := by
    cbv
  have hnew : Language.Negation [.word "new"] (.path "new" []) := .path .nil
  have hvip : Language.Negation [.word "vip"] (.path "vip" []) := .path .nil
  have hboth : Language.Disjunction _ (.all _) :=
    .one (.many (.more hnew.equality (.one hvip.equality)) (by decide))
  have heither : Language.Disjunction _ (.any _) :=
    .many (Language.Separated.more (Language.Flat.one hnew.equality)
      (Language.Separated.one (Language.Flat.one hvip.equality))) (by decide)
  let new : Expression :=
    ⟨_, _, Expr.ofSource_of_tokens hnewTokens (by decide) rfl hnew.disjunction (by decide)⟩
  let vip : Expression :=
    ⟨_, _, Expr.ofSource_of_tokens hvipTokens (by decide) rfl hvip.disjunction (by decide)⟩
  let both : Expression :=
    ⟨_, _, Expr.ofSource_of_tokens hbothTokens (by decide) rfl hboth (by decide)⟩
  let either : Expression :=
    ⟨_, _, Expr.ofSource_of_tokens heitherTokens (by decide) rfl heither (by decide)⟩
  have hbools : ∀ x ∈ [new, vip], ∃ b, x.eval d = .ok (.bool b) :=
    List.forall_mem_cons.2 ⟨⟨false, rfl⟩, List.forall_mem_singleton.2 ⟨true, rfl⟩⟩
  have hall := (check_combined c both [new, vip] []).1 rfl
  obtain ⟨hweaker, hequal⟩ := (check_combined d either [new, vip] []).2.1 rfl
  exact ⟨new, vip, both, either, rfl, rfl, rfl, rfl, hall, hequal hbools, hweaker rfl, rfl, rfl⟩

end Condition

end Rulebook
