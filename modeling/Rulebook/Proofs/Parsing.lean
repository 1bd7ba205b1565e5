import Rulebook.Proofs.Parsing.Complete

/-!
A list of tokens is read if and only if it is in the language and its tree is not too high, and the
tree is the one that the language gives.
-/

namespace Rulebook

open Rulebook.Language

namespace Expr

variable {limit : Nat} {ts : List Token} {last : Token} {e : Expr}

/-- Nothing but the end is left when a tree has been read. -/
theorem run_of_ofTokensWithin (hlimit : 1 ≤ limit) (hts : ∀ t ∈ ts, t.terminal ≠ .ending)
    (hlast : last.terminal = .ending) (h : ofTokensWithin limit (ts ++ [last]) = .ok e) :
    ∃ t, (Production.disjunction limit last (Production.negation limit last limit)).run
      (ts ++ [last]) = .ok (t, [last]) ∧ t.expr = e := by
  simp only [ofTokensWithin, List.getLast?_concat, Option.getD_some] at h
  split at h
  · cases h
  next t rest hr =>
  split at h
  · next hp =>
    cases h
    obtain ⟨-, -, read, hread, hL⟩ := Production.disjunction_sound hlast
      (Production.negation_sound closed_terminals hlimit hlast limit) hr
    have hno : .ending ∉ read.map Token.terminal := by
      rw [InOrder.levels (fun _ _ h => h) hL]
      exact Expr.ending_not_mem _
    refine ⟨t, ?_, rfl⟩
    rcases List.eq_nil_or_concat rest with rfl | ⟨rs, y, rfl⟩
    · refine absurd ?_ hno
      rw [← List.append_nil read, ← hread, ← hlast]
      exact List.mem_map_of_mem (by simp)
    · rw [List.concat_eq_append] at hr hread hp
      rw [← List.append_assoc] at hread
      obtain ⟨rfl, hy⟩ := List.append_inj' hread rfl
      cases rs with
      | nil => rw [hr, hy]; rfl
      | cons z zs => exact absurd hp (hts z (by simp))
  · cases h

/-- What is read is in every closed language, and no higher than the limit. -/
theorem ofTokensWithin_sound {M : Language} (hM : Closed M) (hlimit : 1 ≤ limit)
    (hts : ∀ t ∈ ts, t.terminal ≠ .ending) (hlast : last.terminal = .ending)
    (h : ofTokensWithin limit (ts ++ [last]) = .ok e) :
    Levels M (ts.map Token.terminal) e ∧ e.height ≤ limit := by
  obtain ⟨t, hr, rfl⟩ := run_of_ofTokensWithin hlimit hts hlast h
  obtain ⟨hh, hle, read, hread, hL⟩ := Production.disjunction_sound hlast
    (Production.negation_sound hM hlimit hlast limit) hr
  rw [List.append_cancel_right hread]
  exact ⟨hL, hh ▸ hle⟩

/-- What is in the language is read, unless it is higher than the limit. -/
theorem ofTokensWithin_complete (limit : Nat) (hlast : last.terminal = .ending)
    (h : Disjunction (ts.map Token.terminal) e) :
    Production.Yields (limit + 1) e.height (ofTokensWithin limit (ts ++ [last])) e := by
  have hd : Production.Complete last _ Disjunction (limit + 1) 1 :=
    Production.disjunction_complete (Nat.le_refl _)
      (Production.negation_complete limit (Nat.le_refl limit))
  have hk : (peek last [last]).terminal.grip < 1 := by
    simp only [peek, List.headD_cons, hlast]; decide
  simp only [ofTokensWithin, List.getLast?_concat, Option.getD_some]
  rcases hd h hk with hr | ⟨hle, t, hr⟩
  · exact Or.inl (by simp only [hr, peek, List.headD_cons, hlast, if_pos])
  · exact Or.inr ⟨hle, t, by simp only [hr]⟩

theorem ofTokensWithin_iff (hlimit : 1 ≤ limit) (hts : ∀ t ∈ ts, t.terminal ≠ .ending)
    (hlast : last.terminal = .ending) :
    ofTokensWithin limit (ts ++ [last]) = .ok e ↔
      Disjunction (ts.map Token.terminal) e ∧ e.height ≤ limit := by
  constructor
  · exact ofTokensWithin_sound closed_negation hlimit hts hlast
  · rintro ⟨h, hle⟩
    rcases ofTokensWithin_complete limit hlast h with hr | ⟨hlt, -⟩
    · exact hr
    · omega

/-- No row spells two trees: with a limit that is high enough for both, either is what is read. -/
theorem disjunction_unique {w : List Terminal} {e f : Expr} (he : Disjunction w e)
    (hf : Disjunction w f) : e = f := by
  let ts : List Token := w.map fun x => ⟨x, 0⟩
  let last : Token := ⟨.ending, 0⟩
  have hw : ts.map Token.terminal = w := by
    rw [List.map_map]; exact List.map_id w
  have hread : ∀ {g : Expr}, Disjunction w g → g.height ≤ max e.height f.height →
      ofTokensWithin (max e.height f.height) (ts ++ [last]) = .ok g := by
    intro g hg hle
    have hlast : last.terminal = .ending := rfl
    rcases ofTokensWithin_complete (max e.height f.height) hlast (hw.symm ▸ hg) with
      hr | ⟨hlt, -⟩
    · exact hr
    · omega
  exact Except.ok.inj ((hread he (Nat.le_max_left ..)).symm.trans (hread hf (Nat.le_max_right ..)))

/-- What is in the language is in every closed language: with a limit that is high
    enough it is read. -/
theorem levels_of_disjunction {M : Language} (hM : Closed M) {w : List Terminal} {e : Expr}
    (h : Disjunction w e) : Levels M w e := by
  let ts : List Token := w.map fun x => ⟨x, 0⟩
  let last : Token := ⟨.ending, 0⟩
  let limit := max 1 e.height
  have hw : ts.map Token.terminal = w := by
    rw [List.map_map]; exact List.map_id w
  have hcomplete : Production.Complete last _ Disjunction (limit + 1) 1 :=
    Production.disjunction_complete (Nat.le_refl _)
      (Production.negation_complete limit (Nat.le_refl limit))
  have hgrip : (peek last [last]).terminal.grip < 1 := by decide
  rcases hcomplete (hw.symm ▸ h) hgrip with hr | ⟨hlt, -⟩
  · obtain ⟨-, -, read, hread, hL⟩ := Production.disjunction_sound rfl
      (Production.negation_sound hM (Nat.le_max_left ..) rfl limit) hr
    rwa [← List.append_cancel_right hread, hw] at hL
  · omega

/-- A row spells its tree in order. -/
theorem inOrder_disjunction : InOrder Disjunction :=
  fun _ _ h => InOrder.levels (fun _ _ h => h) (levels_of_disjunction closed_terminals h)

/-- EXACT: a list of tokens is read as a tree if and only if the language spells the tree with them
    and it is not higher than 64. There is no more than one such tree, and if it is higher than that
    the height is all that is found fault with. -/
theorem ofTokens_exact (hts : ∀ t ∈ ts, t.terminal ≠ .ending)
    (hlast : last.terminal = .ending) :
    (∀ e, ofTokens (ts ++ [last]) = .ok e ↔
      Disjunction (ts.map Token.terminal) e ∧ e.height ≤ 64) ∧
    (∀ e f, Disjunction (ts.map Token.terminal) e → Disjunction (ts.map Token.terminal) f →
      e = f) ∧
    (∀ e, Disjunction (ts.map Token.terminal) e → 64 < e.height →
      ∃ fault, ofTokens (ts ++ [last]) = .error fault ∧
        fault.expected.text = "at most 64 levels of nesting") := by
  refine ⟨fun e => ofTokensWithin_iff (by decide) hts hlast, fun e f => disjunction_unique, ?_⟩
  intro e h hlt
  rcases ofTokensWithin_complete maxHeight hlast h with hr | ⟨-, t, hr⟩
  · have hle := (ofTokensWithin_sound closed_negation (by decide) hts hlast hr).2
    exact absurd hle (Nat.not_le.2 hlt)
  · exact ⟨⟨t, .shallower⟩, hr, rfl⟩

/-- The tokens of `a && !b[1]`. -/
theorem ofTokens_exact_junction :
    (∀ t ∈ [⟨.word "a", 0⟩, ⟨.and, 2⟩, ⟨.not, 5⟩, ⟨.word "b", 6⟩,
      ⟨.openIndex, 7⟩, ⟨.literal (.int 1), 8⟩, (⟨.closeIndex, 9⟩ : Token)],
        t.terminal ≠ .ending) ∧
    ofTokens [⟨.word "a", 0⟩, ⟨.and, 2⟩, ⟨.not, 5⟩, ⟨.word "b", 6⟩,
      ⟨.openIndex, 7⟩, ⟨.literal (.int 1), 8⟩, ⟨.closeIndex, 9⟩, ⟨.ending, 10⟩] =
      .ok (.all [.path "a" [], .not (.path "b" [.index (.literal (.int 1))])]) := by
  have hts : ∀ t ∈ [⟨.word "a", 0⟩, ⟨.and, 2⟩, ⟨.not, 5⟩, ⟨.word "b", 6⟩,
      ⟨.openIndex, 7⟩, ⟨.literal (.int 1), 8⟩, (⟨.closeIndex, 9⟩ : Token)],
        t.terminal ≠ .ending := by decide
  have ha : Negation [.word "a"] (.path "a" []) := .path .nil
  have hb : Negation [.not, .word "b", .openIndex, .literal (.int 1), .closeIndex]
      (.not (.path "b" [.index (.literal (.int 1))])) :=
    .not (.path (Segments.index Negation.literal.disjunction .nil))
  refine ⟨hts, ((ofTokens_exact hts rfl).1 _).2
    ⟨Flat.one (Flat.many ?_ (by decide)), by decide⟩⟩
  exact Separated.more ha.equality (Separated.one hb.equality)

end Expr

end Rulebook
