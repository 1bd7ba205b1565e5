import Rulebook.Proofs.Parsing.Stuck
import Rulebook.Proofs.Writing

/-!
Where a fault of syntax is. The token that is reported is the first one that cannot be there:

    a && b == c == d        reported  ==  at 12
    a && b == c             begins an expression, and even is one
    a && b == c ==          begins none, whatever follows

What is in front of the token was read, and can be completed. That no completion has the token
behind it is because the tokens up to there decide: with another ending, and a limit that is high
enough for the tree of that ending, the same token would be reported again, where the whole row is
in the language and so has to be read.
-/

namespace Rulebook.Expr

open Rulebook.Language Rulebook.Production

variable {limit limit' : Nat} {ts : List Token} {last : Token} {fault : ParseError}

/-- The same fault is found with any other tokens behind the one that is reported. -/
theorem ofTokensWithin_sticks (hlimit : 1 ≤ limit) (hle : limit ≤ limit')
    (hlast : last.terminal = .ending) (h : ofTokensWithin limit (ts ++ [last]) = .error fault)
    (hf : fault.expected ≠ .shallower) :
    ∃ read rest, ts ++ [last] = read ++ rest ∧ peek last rest = fault.token ∧
      Begins Disjunction (read.map Token.terminal) ∧
      ∀ more, peek last (more ++ [last]) = fault.token →
        ofTokensWithin limit' (read ++ (more ++ [last])) = .error fault := by
  have hagain := (Repeats.negation hlimit hle hlast limit limit' hle).disjunction hle hlast
  have hlast? (read more : List Token) :
      (read ++ (more ++ [last])).getLast?.getD ⟨.ending, 0⟩ = last := by
    simp [← List.append_assoc]
  simp only [ofTokensWithin, List.getLast?_concat, Option.getD_some] at h
  split at h
  · next hr =>
    cases h
    obtain ⟨read, rest, hread, hpeek, hbegins, hq⟩ := hagain.sticks hr hf
    refine ⟨read, rest, hread, hpeek, hbegins, fun more hmore => ?_⟩
    simp only [ofTokensWithin, hlast?, hq _ hmore]
  next t rest hr =>
  split at h
  · cases h
  next hend =>
  cases h
  obtain ⟨read, hread, hL, hq⟩ := hagain.ok hr
  refine ⟨read, rest, hread, rfl, ⟨[], t.expr, by simpa using hL⟩, fun more hmore => ?_⟩
  replace hmore : peek last (more ++ [last]) = peek last rest := hmore
  simp only [ofTokensWithin, hlast?, hq _ hmore, hmore, if_neg hend]

/-- What begins an expression has no end in it. -/
theorem ending_not_mem_of_begins {row : List Terminal} (h : Begins Disjunction row) :
    .ending ∉ row := by
  obtain ⟨more, e, hL⟩ := h
  have hno := Expr.ending_not_mem e
  rw [← inOrder_disjunction hL] at hno
  exact fun hmem => hno (List.mem_append_left more hmem)

/-- The token that is reported has its place in the list, and no limit moves it. -/
theorem ofTokens_sticks (hnodup : (ts ++ [last]).Nodup) (hlast : last.terminal = .ending)
    (h : ofTokens (ts ++ [last]) = .error fault) (hf : fault.expected ≠ .shallower) :
    ∃ front back, ts ++ [last] = front ++ fault.token :: back ∧
      Begins Disjunction (front.map Token.terminal) ∧
      ∀ limit more, maxHeight ≤ limit → peek last (more ++ [last]) = fault.token →
        ofTokensWithin limit (front ++ (more ++ [last])) = .error fault := by
  have hplace (limit : Nat) (hle : maxHeight ≤ limit) :
      ∃ front back, ts ++ [last] = front ++ fault.token :: back ∧
        Begins Disjunction (front.map Token.terminal) ∧
        ∀ more, peek last (more ++ [last]) = fault.token →
          ofTokensWithin limit (front ++ (more ++ [last])) = .error fault := by
    obtain ⟨front, rest, hfront, hpeek, hbegins, hagain⟩ :=
      ofTokensWithin_sticks (by decide) hle hlast h hf
    cases rest with
    | nil =>
      -- the end of the list would have been read
      rw [List.append_nil] at hfront
      refine absurd ?_ (ending_not_mem_of_begins hbegins)
      rw [← hfront, ← hlast]
      simp
    | cons t back =>
      obtain rfl : t = fault.token := hpeek
      exact ⟨front, back, hfront, hbegins, hagain⟩
  obtain ⟨front, back, hfront, hbegins, -⟩ := hplace maxHeight (Nat.le_refl _)
  refine ⟨front, back, hfront, hbegins, fun limit more hle hmore => ?_⟩
  obtain ⟨front', back', hfront', -, hagain⟩ := hplace limit hle
  rw [hfront] at hnodup hfront'
  have hsame : front = front' := by
    obtain ⟨-, hback, hcross⟩ := List.nodup_append.1 hnodup
    refine ((List.append_cons_inj_of_notMem ?_ ?_).1 hfront').1
    · intro hmem
      exact hcross _ hmem _ List.mem_cons_self rfl
    · exact (List.nodup_cons.1 hback).1
  rw [hsame]
  exact hagain more hmore

/-- The tokens of a text are all different. -/
theorem nodup_of_scan {position : Nat} {operand : Bool} {cs : List Char} {tokens : List Token}
    (h : scan position operand cs = .ok tokens) : tokens.Nodup := by
  obtain ⟨tiles, last, htiling, rfl⟩ := exists_tiling_of_scan h
  have hpositions := htiling.positions_increase
  rw [List.pairwise_map] at hpositions
  refine hpositions.imp ?_
  rintro m n hlt rfl
  exact Nat.lt_irrefl _ hlt

theorem ofSource_eq_parse_iff {source : String} :
    ofSource source = .error (.parse fault) ↔
      ∃ tokens, tokenize source = .ok tokens ∧ ofTokens tokens = .error fault := by
  unfold ofSource
  split
  · next h => simp [h]
  · next tokens h =>
    split
    · next h' => simp [h, h']
    · next h' => simp [h, h']

/-- FIRST IMPOSSIBLE TOKEN: a fault of syntax other than of height is at a token of the text. The
    tokens in front of it begin an expression, and with it they begin none; if it is the end of the
    text, the tokens in front of it are no expression. -/
theorem ofSource_fault {source : String} (h : ofSource source = .error (.parse fault))
    (hf : fault.expected ≠ .shallower) :
    ∃ front back, tokenize source = .ok (front ++ fault.token :: back) ∧
      Begins Disjunction (front.map Token.terminal) ∧
      ¬ Begins Disjunction (front.map Token.terminal ++ [fault.token.terminal]) ∧
      (fault.token.terminal = .ending → ∀ e, ¬ Disjunction (front.map Token.terminal) e) := by
  obtain ⟨tokens, htokens, hfault⟩ := ofSource_eq_parse_iff.1 h
  obtain ⟨ts, last, rfl, hlast, hrow⟩ := scan_legible htokens
  obtain ⟨front, back, hfront, hbegins, hagain⟩ :=
    ofTokens_sticks (nodup_of_scan htokens) hlast hfault hf
  have hrefused (more : List Token) (e : Expr) (hmore : peek last (more ++ [last]) = fault.token) :
      ¬ Disjunction ((front ++ more).map Token.terminal) e := by
    intro hL
    have hfail := hagain (max maxHeight e.height) more (Nat.le_max_left ..) hmore
    rcases ofTokensWithin_complete (max maxHeight e.height) hlast hL with hok | ⟨hlt, -⟩
    · rw [List.append_assoc, hfail] at hok
      cases hok
    · omega
  refine ⟨front, back, by rw [htokens, hfront], hbegins, ?_, ?_⟩
  · rintro ⟨more, e, hL⟩
    refine hrefused (fault.token :: more.map fun x => ⟨x, 0⟩) e rfl ?_
    have hmap : (more.map fun x => (⟨x, 0⟩ : Token)).map Token.terminal = more := by
      rw [List.map_map]; exact List.map_id more
    rw [List.map_append, List.map_cons, hmap]
    simpa using hL
  · intro hend e hL
    have hmem : fault.token ∈ ts ++ [last] := by rw [hfront]; simp
    refine hrefused [] e ?_ (by simpa using hL)
    rcases List.mem_append.1 hmem with hmem | hmem
    · exact absurd hend (ne_ending_of_legibleRow hrow _ (List.mem_map_of_mem hmem))
    · exact (List.mem_singleton.1 hmem).symm

/-- A name where an operator is due. -/
theorem ofSource_fault_operator :
    let fault : ParseError := ⟨⟨.word "c", 6⟩, .operator⟩
    ofSource "a < b c" = .error (.parse fault) ∧ fault.expected ≠ .shallower ∧
    ∃ front back, tokenize "a < b c" = .ok (front ++ fault.token :: back) ∧
      Begins Disjunction (front.map Token.terminal) ∧
      ¬ Begins Disjunction (front.map Token.terminal ++ [.word "c"]) := by
  intro fault
  let front : List Token := [⟨.word "a", 0⟩, ⟨.lt, 2⟩, ⟨.word "b", 4⟩]
  let last : Token := ⟨.ending, 7⟩
  have htokens : tokenize "a < b c" = .ok (front ++ [⟨.word "c", 6⟩, last]) := by cbv
  have hL : Disjunction (front.map Token.terminal)
      (.binary (.compare .lt) (.path "a" []) (.path "b" [])) :=
    Negation.compare .lt (.path .nil) (.path .nil)
  have hcomplete : Complete last _ Disjunction (maxHeight + 1) 1 :=
    disjunction_complete (Nat.le_refl _) (negation_complete maxHeight (Nat.le_refl _))
  have hlast : (front ++ [⟨.word "c", 6⟩, last]).getLast?.getD ⟨.ending, 0⟩ = last := rfl
  have hgrip : (peek last [⟨.word "c", 6⟩, last]).terminal.grip < 1 := by decide
  have hfault : ofSource "a < b c" = .error (.parse fault) := by
    refine ofSource_eq_parse_iff.2 ⟨_, htokens, ?_⟩
    rcases hcomplete hL hgrip with hr | ⟨hle, -⟩
    · simp only [ofTokens, ofTokensWithin, hlast, hr]
      rfl
    · exact absurd hle (by decide)
  have hf : fault.expected ≠ .shallower := by decide
  obtain ⟨front, back, htokens, hbegins, hno, -⟩ := ofSource_fault hfault hf
  exact ⟨hfault, hf, front, back, htokens, hbegins, hno⟩

end Rulebook.Expr
