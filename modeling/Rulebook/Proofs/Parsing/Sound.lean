import Rulebook.Proofs.Language

/-!
What a production reads is in its language. If that holds of the operands it holds of what is made
of them, operator by operator, and `negation` follows by induction on the room that it has. The same
lemmas say that a tree comes with its height, and that it is no higher than the limit.
-/

namespace Rulebook.Production

open Rulebook.Language

variable {limit : Nat} {last : Token} {p : Production} {L M : Language}
  {op? : Terminal → Option BinOp}

/-- A production that reads nothing but `L`, knows the heights of its trees and keeps them low. -/
def Sound (limit : Nat) (p : Production) (L : Language) : Prop :=
  ∀ ⦃ts t rest⦄, p.run ts = .ok (t, rest) →
    t.height = t.expr.height ∧ t.height ≤ limit ∧
    ∃ read, ts = read ++ rest ∧ L (read.map Token.terminal) t.expr

theorem build_ok {e : Expr} {n : Nat} {top : Token} {t : Subtree}
    (h : Subtree.build limit e n top = .ok t) : t = ⟨e, n⟩ ∧ n ≤ limit := by
  unfold Subtree.build at h
  split at h
  · cases h
  · cases h; exact ⟨rfl, by omega⟩

/-! ### Operators -/

theorem chainFrom_sound (hp : Sound limit p L) {left t : Subtree} {ts rest : List Token}
    {v : List Terminal} (h : chainFrom limit p op? left ts = .ok (t, rest))
    (hh : left.height = left.expr.height) (hl : left.height ≤ limit)
    (hL : Chain op? L v left.expr) :
    t.height = t.expr.height ∧ t.height ≤ limit ∧
      ∃ read, ts = read ++ rest ∧ Chain op? L (v ++ read.map Token.terminal) t.expr := by
  fun_induction chainFrom limit p op? left ts generalizing v with
  | case1 => cases h; exact ⟨hh, hl, [], rfl, by simpa using hL⟩
  | case2 => cases h; exact ⟨hh, hl, [], rfl, by simpa using hL⟩
  | case3 => cases h
  | case4 => cases h
  | case5 left t' ts op hop right r hr node hn _ ih =>
    obtain ⟨hrh, hrl, read, rfl, hrL⟩ := hp hr
    obtain ⟨rfl, hnl⟩ := build_ok hn
    obtain ⟨hth, htl, read', rfl, htL⟩ :=
      ih h (by simp [Expr.height, hh, hrh]) hnl (.more hL hop hrL)
    exact ⟨hth, htl, t' :: read ++ read', by simp, by simpa using htL⟩

theorem chain_sound (hp : Sound limit p L) : Sound limit (chain limit op? p) (Chain op? L) := by
  intro ts t rest h
  simp only [chain] at h
  split at h
  · cases h
  next left r hl =>
  obtain ⟨hh, hle, read, rfl, hL⟩ := hp hl
  obtain ⟨hth, htl, read', rfl, htL⟩ := chainFrom_sound hp h hh hle (.one hL)
  exact ⟨hth, htl, read ++ read', by simp, by simpa using htL⟩

theorem once_sound (hp : Sound limit p L) (hlast : op? last.terminal = none) :
    Sound limit (once limit last op? p) (Once op? L) := by
  intro ts t rest h
  simp only [once] at h
  split at h
  · cases h
  next left r hl =>
  obtain ⟨hlh, hll, read, rfl, hlL⟩ := hp hl
  split at h
  · cases h; exact ⟨hlh, hll, read, rfl, .one hlL⟩
  next op hop =>
  split at h
  · cases h
  next right r' hr =>
  obtain ⟨hrh, hrl, read', hread', hrL⟩ := hp hr
  split at h
  · cases h
  simp only [Subtree.join, Except.map] at h
  split at h
  · cases h
  next node hn =>
  obtain ⟨rfl, hnl⟩ := build_ok hn
  cases h
  cases r with
  | nil => simp only [peek, List.headD_nil, hlast] at hop; cases hop
  | cons x xs =>
    simp only [List.tail_cons] at hread'
    subst hread'
    replace hop : op? x.terminal = some op := hop
    refine ⟨by simp [Expr.height, hlh, hrh], hnl, read ++ x :: read', by simp, ?_⟩
    simpa using Once.two hlL hop hrL

theorem foldl_max_height (xs : List Subtree) (h : ∀ x ∈ xs, x.height = x.expr.height)
    (n : Nat) :
    (xs.map Subtree.height).foldl max n = max n (Expr.heights (xs.map Subtree.expr)) := by
  induction xs generalizing n with
  | nil => simp [Expr.heights]
  | cons x xs ih =>
    rw [List.map_cons, List.foldl_cons, ih fun y hy => h y (List.mem_cons_of_mem _ hy),
      h x List.mem_cons_self, List.map_cons, Expr.heights, Nat.max_assoc]

theorem operands_sound {sep : Terminal} (hp : Sound limit p L) {ts rest : List Token}
    {xs : List Subtree} (h : operands p sep ts = .ok (xs, rest)) :
    (∀ x ∈ xs, x.height = x.expr.height) ∧ ∃ read, ts = read ++ rest ∧
      ∀ {v e}, L v e →
        Separated sep L (v ++ read.map Token.terminal) (e :: xs.map Subtree.expr) := by
  fun_induction operands p sep ts generalizing xs rest with
  | case1 => cases h; exact ⟨by simp, [], rfl, fun hL => by simpa using .one hL⟩
  | case2 => cases h
  | case3 => cases h
  | case4 t ts ht x r hx _ xs' r' hxs ih =>
    cases h
    obtain ⟨hh, -, read, rfl, hxL⟩ := hp hx
    obtain ⟨hhs, read', rfl, hxsL⟩ := ih hxs
    refine ⟨?_, t :: (read ++ read'), by simp, fun hL => ?_⟩
    · rintro y hy
      rcases List.mem_cons.1 hy with rfl | hy
      · exact hh
      · exact hhs y hy
    · simpa [ht] using Separated.more hL (hxsL hxL)
  | case5 => cases h; exact ⟨by simp, [], rfl, fun hL => by simpa using .one hL⟩

theorem flat_sound {sep : Terminal} {node : List Expr → Expr} (hp : Sound limit p L)
    (hnode : ∀ es, (node es).height = Expr.heights es + 1) :
    Sound limit (flat limit last sep node p) (Flat sep node L) := by
  intro ts t rest h
  simp only [flat] at h
  split at h
  · cases h
  next x r hx =>
  obtain ⟨hh, hle, read, rfl, hL⟩ := hp hx
  split at h
  · cases h
  · cases h; exact ⟨hh, hle, read, rfl, .one hL⟩
  next y ys r' hys =>
  obtain ⟨hhs, read', rfl, hsL⟩ := operands_sound hp hys
  simp only [Except.map] at h
  split at h
  · cases h
  next n hn =>
  obtain ⟨rfl, hnl⟩ := build_ok hn
  cases h
  refine ⟨?_, hnl, read ++ read', by simp, ?_⟩
  · rw [foldl_max_height (x :: y :: ys), hnode, Nat.zero_max]
    rintro z hz
    rcases List.mem_cons.1 hz with rfl | hz
    · exact hh
    · exact hhs z hz
  · simpa using Flat.many (hsL hL) (by simp)

/-! ### Paths -/

/-- A terminal that is not the end is that of a token of the list. -/
theorem eq_cons_of_peek {ts : List Token} {x : Terminal} (hlast : last.terminal ≠ x)
    (h : (peek last ts).terminal = x) : ∃ t, ts = t :: ts.tail ∧ t.terminal = x := by
  cases ts with
  | nil => exact absurd h hlast
  | cons t ts => exact ⟨t, rfl, h⟩

theorem segments_sound {index : Production} (hp : Sound limit index L)
    (hlast : last.terminal = .ending) {ts rest : List Token} {ss : List Segment} {n : Nat}
    (h : segments limit last index ts = .ok (ss, n, rest)) :
    n = Segment.heights ss ∧ n ≤ limit ∧
      ∃ read, ts = read ++ rest ∧ Segments L (read.map Token.terminal) ss := by
  fun_induction segments limit last index ts generalizing ss n rest with
  | case1 => cases h; exact ⟨rfl, Nat.zero_le _, [], rfl, .nil⟩
  | case2 => cases h
  | case3 t ht x i j ts hc ss' n' r hs ih =>
    cases h
    obtain ⟨c, hts, hc⟩ := eq_cons_of_peek (by rw [hlast]; decide) hc
    obtain ⟨hn, hle, read, hread, hL⟩ := ih hs
    refine ⟨hn.trans (by simp [Segment.heights, Segment.height]), hle,
      t :: ⟨.word x, i⟩ :: ⟨.openCall, j⟩ :: c :: read, ?_, ?_⟩
    · rw [hts, hread]; rfl
    · simpa [ht, hc] using Segments.call hL
  | case4 => cases h
  | case5 => cases h
  | case6 t ht x i ts hno ss' n' r hs ih =>
    cases h
    obtain ⟨hn, hle, read, rfl, hL⟩ := ih hs
    refine ⟨hn.trans (by simp [Segment.heights, Segment.height]), hle,
      t :: ⟨.word x, i⟩ :: read, rfl, ?_⟩
    simpa [ht] using Segments.field hL
  | case7 => cases h
  | case8 => cases h
  | case9 => cases h
  | case10 => cases h
  | case11 t ts ht x r hx _ hc node hb ss' n' r' hs ih =>
    cases h
    obtain ⟨c, hr, hc⟩ := eq_cons_of_peek (by rw [hlast]; decide) hc
    obtain ⟨hxh, hxl, read, rfl, hxL⟩ := hp hx
    obtain ⟨rfl, hnl⟩ := build_ok hb
    obtain ⟨hn, hle, read', hread, hL⟩ := ih hs
    refine ⟨by simp [Segment.heights, Segment.height, hn, hxh], Nat.max_le.2 ⟨hnl, hle⟩,
      t :: (read ++ c :: read'), ?_, ?_⟩
    · rw [hr, hread]; simp
    · simpa [ht, hc] using Segments.index hxL hL
  | case12 => cases h
  | case13 => cases h; exact ⟨rfl, Nat.zero_le _, [], rfl, .nil⟩

/-! ### All levels -/

theorem simple_sound {M : Language} (hM : Closed M) {nested index : Production}
    (hlimit : 1 ≤ limit) (hlast : last.terminal = .ending) (hn : Sound limit nested M)
    (hi : Sound limit index (Levels M)) :
    Sound limit (simple limit last nested index) M := by
  intro ts t rest h
  simp only [simple] at h
  split at h
  · next ht =>
    obtain ⟨x, hts, hx⟩ := eq_cons_of_peek (by rw [hlast]; decide) ht
    split at h
    · cases h
    next y r hy =>
    obtain ⟨hh, hle, read, hread, hL⟩ := hn hy
    simp only [Except.map] at h
    split at h
    · cases h
    next z hz =>
    obtain ⟨rfl, hzl⟩ := build_ok hz
    cases h
    refine ⟨by simp [Expr.height, hh], hzl, x :: read, by rw [hts, hread]; rfl, ?_⟩
    simpa [hx] using hM.not hL
  · next l ht =>
    obtain ⟨x, hts, hx⟩ := eq_cons_of_peek (by rw [hlast]; exact Terminal.noConfusion) ht
    cases h
    exact ⟨rfl, hlimit, [x], hts, by simpa [hx] using hM.literal⟩
  · next root ht =>
    obtain ⟨x, hts, hx⟩ := eq_cons_of_peek (by rw [hlast]; exact Terminal.noConfusion) ht
    split at h
    · cases h
    next ss n r hs =>
    obtain ⟨hn', hle, read, hread, hL⟩ := segments_sound hi hlast hs
    cases h
    refine ⟨by simp [Expr.height, hn'], Nat.max_le.2 ⟨hlimit, hle⟩, x :: read,
      by rw [hts, hread]; rfl, ?_⟩
    simpa [hx] using hM.path hL
  · cases h

theorem disjunction_sound {M : Language} (hlast : last.terminal = .ending) (hp : Sound limit p M) :
    Sound limit (disjunction limit last p) (Levels M) :=
  flat_sound (flat_sound
    (once_sound (once_sound (chain_sound (chain_sound hp)) (by rw [hlast]; rfl))
      (by rw [hlast]; rfl))
    fun _ => rfl) fun _ => rfl

theorem refuse_sound {e : Expectation} : Sound limit (refuse last e) L := by
  intro ts t rest h
  cases h

theorem negation_sound {M : Language} (hM : Closed M) (hlimit : 1 ≤ limit)
    (hlast : last.terminal = .ending) (room : Nat) : Sound limit (negation limit last room) M := by
  induction room with
  | zero => exact simple_sound hM hlimit hlast refuse_sound refuse_sound
  | succ room ih => exact simple_sound hM hlimit hlast ih (disjunction_sound hlast ih)

end Rulebook.Production
