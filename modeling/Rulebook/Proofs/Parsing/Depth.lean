import Rulebook.Proofs.Parsing.Returns

/-!
How deep the machine goes. In every state that it comes to

    the counter    is the number of `!` and `[` that wait on the stack, and no more than the limit
    a subtree      comes with its height, on the stack as well as on its way back
    a path         has the greater of 1 and what its segments lend it, also while it waits

whatever the tokens are. One step keeps that, so that a run does; and since what is called comes
back to the stack that it was called on, it comes back with the counter that it was called with.
-/

namespace Rulebook.Machine

variable {limit : Nat} {last : Token} {ts : List Token} {depth : Nat}
  {stack : List Frame} {s s' : State}

/-! ### Heights -/

theorem heights_concat (es : List Expr) (e : Expr) :
    Expr.heights (es ++ [e]) = max (Expr.heights es) e.height := by
  induction es with
  | nil => simp [Expr.heights]
  | cons f es ih => simp only [List.cons_append, Expr.heights, ih, Nat.max_assoc]

theorem segmentHeights_concat (ss : List Segment) (x : Segment) :
    Segment.heights (ss ++ [x]) = max (Segment.heights ss) x.height := by
  induction ss with
  | nil => simp [Segment.heights]
  | cons y ss ih => simp only [List.cons_append, Segment.heights, ih, Nat.max_assoc]

/-- A subtree that comes with its height, and is no higher than the limit. -/
def Sized (limit : Nat) (t : Subtree) : Prop := t.height = t.expr.height ∧ t.height ≤ limit

/-- The height of a path so far, which is no higher than the limit. -/
def PathSized (limit : Nat) (ss : List Segment) (height : Nat) : Prop :=
  height = max 1 (Segment.heights ss) ∧ height ≤ limit

theorem PathSized.name {ss : List Segment} {height : Nat} (h : PathSized limit ss height)
    {x : Segment} (hx : x.height = 0) : PathSized limit (ss ++ [x]) height := by
  refine ⟨?_, h.2⟩
  rw [segmentHeights_concat, hx, Nat.max_zero]
  exact h.1

theorem PathSized.index {ss : List Segment} {height : Nat} (h : PathSized limit ss height)
    {e : Expr} (he : e.height + 1 ≤ limit) :
    PathSized limit (ss ++ [.index e]) (max height (e.height + 1)) := by
  refine ⟨?_, Nat.max_le.2 ⟨h.2, he⟩⟩
  rw [segmentHeights_concat, h.1, Nat.max_assoc]
  rfl

/-! ### Sound states -/

/-- A frame that knows the heights of what it has. -/
def Frame.Sound (limit : Nat) : Frame → Prop
  | .flatNext _ es height _ => height = Expr.heights es
  | .onceSecond _ _ left _ | .chainNext _ _ left _ => Sized limit left
  | .indexing _ ss height _ => PathSized limit ss height
  | _ => True

/-- A control that knows the heights of what it has, with the tokens ahead that it can deal with. -/
def Control.Sound (limit : Nat) (last : Token) (ts : List Token) : Control → Prop
  | .call n => n.Ready last ts
  | .walk _ ss height => PathSized limit ss height ∧ Settled last ts
  | .give (.ok t) => Sized limit t
  | .give (.error _) => True

/-- What every step keeps, whatever is to be done next: the counter is the number of `!` and `[`
    that are open, no more of them are than allowed, and the frames know their heights. -/
structure Kept (limit : Nat) (last : Token) (ts : List Token) (depth : Nat) (stack : List Frame) :
    Prop where
  ends : Ends last ts
  depth_eq : depth = opened stack
  depth_le : depth ≤ limit
  frames : ∀ F ∈ stack, F.Sound limit

/-- A state with a true counter and true heights. -/
structure State.Sound (limit : Nat) (last : Token) (s : State) : Prop where
  kept : Kept limit last s.ahead s.depth s.stack
  control : s.control.Sound limit last s.ahead

theorem Kept.tail (h : Kept limit last ts depth stack) : Kept limit last ts.tail depth stack :=
  { h with ends := h.ends.tail }

/-- A frame that opens nothing leaves the counter as it is. -/
theorem Kept.push (h : Kept limit last ts depth stack) {F : Frame} (hF : F.opens = false)
    (hs : F.Sound limit) : Kept limit last ts depth (F :: stack) where
  ends := h.ends
  depth_eq := by
    rw [opened, List.countP_cons_of_neg (by rw [hF]; decide)]
    exact h.depth_eq
  depth_le := h.depth_le
  frames := List.forall_mem_cons.2 ⟨hs, h.frames⟩

/-- A frame of `!` or `[` is counted, and there has to be room for it. -/
theorem Kept.open (h : Kept limit last ts depth stack) {F : Frame} (hF : F.opens = true)
    (hs : F.Sound limit) (hlt : depth < limit) : Kept limit last ts (depth + 1) (F :: stack) where
  ends := h.ends
  depth_eq := by
    rw [opened, List.countP_cons_of_pos hF, h.depth_eq, opened]
  depth_le := hlt
  frames := List.forall_mem_cons.2 ⟨hs, h.frames⟩

/-- The counter goes down where a frame is taken off that is counted. -/
theorem Frame.leave_eq (F : Frame) (depth : Nat) :
    F.leave depth = if F.opens then depth - 1 else depth := by
  cases F <;> rfl

theorem Kept.pop {F : Frame} (h : Kept limit last ts depth (F :: stack)) :
    Kept limit last ts (F.leave depth) stack where
  ends := h.ends
  depth_eq := by
    rw [Frame.leave_eq, h.depth_eq, opened, List.countP_cons, opened]
    split <;> omega
  depth_le := by
    have hle := h.depth_le
    rw [Frame.leave_eq]
    split <;> omega
  frames := (List.forall_mem_cons.1 h.frames).2

theorem Kept.frame {F : Frame} (h : Kept limit last ts depth (F :: stack)) : F.Sound limit :=
  (List.forall_mem_cons.1 h.frames).1

/-! ### One step -/

theorem ready_junction (j : Junction) (h : Ends last ts) : j.operand.Ready last ts := by
  cases j <;> exact h

theorem ready_comparing (c : Comparing) (h : Ends last ts) : c.operand.Ready last ts := by
  cases c <;> exact h

theorem ready_folding (f : Folding) (h : Ends last ts) : f.operand.Ready last ts := by
  cases f <;> exact h

theorem sound_error (h : Kept limit last ts depth stack) (e : ParseError) :
    State.Sound limit last ⟨.give (.error e), ts, depth, stack⟩ :=
  ⟨h, trivial⟩

/-- A node is not given back if it is too high. -/
theorem sound_build (h : Kept limit last ts depth stack) {e : Expr} {n : Nat} (hn : n = e.height)
    (top : Token) :
    State.Sound limit last ⟨.give (Subtree.build limit e n top), ts, depth, stack⟩ := by
  rcases hb : Subtree.build limit e n top with fault | t
  · exact sound_error h fault
  · obtain ⟨rfl, hle⟩ := Production.build_ok hb
    exact ⟨h, hn, hle⟩

theorem sound_descend (h : Kept limit last ts depth stack) {F : Frame} (hF : F.opens = true)
    (hs : F.Sound limit) {n : Nonterminal} (hn : n.Ready last ts) :
    State.Sound limit last (descend limit last F n ts depth stack) := by
  rw [descend]
  split
  · exact sound_error h _
  · next hlt => exact ⟨h.open hF hs (Nat.not_le.1 hlt), hn⟩

theorem sound_flatLoop (h : Kept limit last ts depth stack) (j : Junction) {es : List Expr}
    {height : Nat} (hes : height = Expr.heights es) (top : Token) :
    State.Sound limit last (flatLoop limit last j es height top ts depth stack) := by
  rw [flatLoop]
  split
  · exact ⟨h.tail.push rfl hes, ready_junction j h.ends.tail⟩
  · refine sound_build h ?_ top
    rw [hes]
    cases j <;> rfl

theorem sound_chainLoop (h : Kept limit last ts depth stack) (f : Folding) {left : Subtree}
    (hl : Sized limit left) : State.Sound limit last (chainLoop last f left ts depth stack) := by
  rw [chainLoop]
  split
  · exact ⟨h, hl⟩
  · exact ⟨h.tail.push rfl hl, ready_folding f h.ends.tail⟩

/-- The height of an operator's node is the height of the tree. -/
theorem height_join {left right : Subtree} (hl : Sized limit left) (hr : Sized limit right)
    (op : BinOp) :
    max left.height right.height + 1 = (Expr.binary op left.expr right.expr).height := by
  rw [Expr.height, hl.1, hr.1]

theorem sound_enter (hlimit : 1 ≤ limit) (h : Kept limit last ts depth stack) {n : Nonterminal}
    (hn : n.Ready last ts) : State.Sound limit last (enter limit last ts depth stack n) := by
  cases n with
  | flat j => exact ⟨h.push rfl trivial, ready_junction j h.ends⟩
  | once c => exact ⟨h.push rfl trivial, ready_comparing c h.ends⟩
  | chain f => exact ⟨h.push rfl trivial, ready_folding f h.ends⟩
  | negation =>
    simp only [enter]
    split
    · exact sound_descend (F := .negated _) h.tail rfl trivial h.ends.tail
    · exact ⟨h, h.ends⟩
  | primary =>
    simp only [enter]
    split
    · exact ⟨h.tail, rfl, hlimit⟩
    · next root hroot => exact ⟨h.tail, h.ends.settled (by rw [hroot]; rfl)⟩
    · exact sound_error h _
  | path root => exact ⟨h, ⟨rfl, hlimit⟩, hn⟩

theorem sound_walk (h : Kept limit last ts depth stack) (root : String) {ss : List Segment}
    {height : Nat} (hss : PathSized limit ss height) :
    State.Sound limit last (walk limit last root ss height ts depth stack) := by
  rw [walk]
  split
  · split
    · next name hname =>
      split
      · split
        · next hc =>
          exact ⟨h.tail.tail.tail.tail, hss.name rfl,
            h.tail.tail.tail.ends.settled (by rw [hc]; rfl)⟩
        · exact sound_error h.tail.tail.tail _
      · exact ⟨h.tail.tail, hss.name rfl, h.tail.ends.settled (by rw [hname]; rfl)⟩
    · exact sound_error h.tail _
  · exact sound_descend (F := .indexing ..) h.tail rfl hss h.ends.tail
  · exact ⟨h, hss⟩

theorem sound_resume (h : Kept limit last ts depth stack) {x : Subtree} (hx : Sized limit x)
    {F : Frame} (hF : F.Sound limit) :
    State.Sound limit last (resume limit last x ts depth stack F) := by
  cases F with
  | flatFirst j =>
    simp only [resume]
    split
    · exact sound_flatLoop h j (by rw [hx.1, Expr.heights, Expr.heights, Nat.max_zero]) _
    · exact ⟨h, hx⟩
  | flatNext j es height top =>
    replace hF : height = Expr.heights es := hF
    exact sound_flatLoop h j (by rw [heights_concat, hF, hx.1]) top
  | onceFirst c =>
    simp only [resume]
    split
    · exact ⟨h, hx⟩
    · exact ⟨h.tail.push rfl hx, ready_comparing c h.ends.tail⟩
  | onceSecond c op left top =>
    simp only [resume]
    split
    · exact sound_error h _
    · exact sound_build h (height_join hF hx op) top
  | chainFirst f => exact sound_chainLoop h f hx
  | chainNext f op left top =>
    simp only [resume]
    split
    · exact sound_error h _
    · next node hn =>
      obtain ⟨rfl, hle⟩ := Production.build_ok hn
      exact sound_chainLoop h f ⟨height_join hF hx op, hle⟩
  | negated top =>
    refine sound_build h ?_ top
    rw [Expr.height, hx.1]
  | indexing root ss height top =>
    simp only [resume]
    split
    · next hc =>
      split
      · exact sound_error h.tail _
      · next y hy =>
        obtain ⟨rfl, hle⟩ := Production.build_ok hy
        rw [hx.1] at hle ⊢
        exact ⟨h.tail, PathSized.index hF hle, h.ends.settled (by rw [hc]; rfl)⟩
    · exact sound_error h _

/-- One step keeps a state sound. -/
theorem State.Sound.step (hlimit : 1 ≤ limit) (h : s.Sound limit last)
    (hs : step limit last s = some s') :
    s'.Sound limit last := by
  obtain ⟨control, ts, depth, stack⟩ := s
  obtain ⟨hkept, hcontrol⟩ := h
  match control, stack with
  | .call n, stack =>
    cases hs
    exact sound_enter hlimit hkept hcontrol
  | .walk root ss height, stack =>
    cases hs
    exact sound_walk hkept root hcontrol.1
  | .give _, [] => cases hs
  | .give (.error e), F :: stack =>
    cases hs
    exact sound_error hkept.pop e
  | .give (.ok x), F :: stack =>
    cases hs
    exact sound_resume hkept.pop hcontrol hkept.frame

/-! ### All runs -/

theorem sound_start (limit : Nat) (tokens : List Token) :
    (start tokens).Sound limit (lastOf tokens) where
  kept := ⟨ends_lastOf tokens, rfl, Nat.zero_le limit, fun _ hF => by cases hF⟩
  control := ends_lastOf tokens

/-- A run keeps a state sound. -/
theorem State.Sound.reaches (hlimit : 1 ≤ limit) (h : s.Sound limit last)
    (hs : Reaches limit last s s') :
    s'.Sound limit last := by
  induction hs with
  | refl => exact h
  | tail _ hstep ih => exact ih.step hlimit hstep

/-- What is called in a sound state comes back to its stack, with the counter as it was and with
    what is read there in the room that is left. -/
theorem State.Sound.returns (h : s.Sound limit last) {n : Nonterminal} (hn : s.control = .call n) :
    ∃ rest, Runs limit last s.stack s
      ⟨.give ((n.read limit last (limit - s.depth) s.ahead).map Prod.fst), rest, s.depth,
        s.stack⟩ := by
  obtain ⟨_, ts, depth, stack⟩ := s
  obtain rfl := hn
  have hroom : depth + (limit - depth) = limit := Nat.add_sub_cancel' h.kept.depth_le
  have hreturns : Returns limit last depth stack _ _ :=
    Nonterminal.returns (limit - depth) hroom h.control
  dsimp only
  rcases hr : n.read limit last (limit - depth) ts with e | ⟨t, rest⟩
  · rw [hr] at hreturns
    exact hreturns
  · rw [hr] at hreturns
    exact ⟨rest, hreturns.1⟩

/-- BOUNDED: whatever the tokens are, the machine comes to its end with what is read of them. On its
    way no more than 64 of `!` and `[` are open at a time, the counter is their number, what is
    called comes back to its stack with the counter that it was called with, be it with a subtree or
    with a fault, and no subtree is given back but with its height, which is 64 at the most. -/
theorem nesting_bounded (tokens : List Token) :
    (∃ r rest, Reaches 64 (lastOf tokens) (start tokens) ⟨.give r, rest, 0, []⟩ ∧
      finish (lastOf tokens) rest r = Expr.ofTokens tokens) ∧
    ∀ s, Reaches 64 (lastOf tokens) (start tokens) s →
      opened s.stack ≤ 64 ∧ s.depth = opened s.stack ∧
      (∀ n, s.control = .call n → ∃ rest, Runs 64 (lastOf tokens) s.stack s
        ⟨.give ((n.read 64 (lastOf tokens) (64 - s.depth) s.ahead).map Prod.fst), rest, s.depth,
          s.stack⟩) ∧
      ∀ t, s.control = .give (.ok t) → t.height = t.expr.height ∧ t.height ≤ 64 := by
  refine ⟨start_reaches 64 tokens, fun s hs => ?_⟩
  have hsound := (sound_start 64 tokens).reaches (by decide) hs
  refine ⟨?_, hsound.kept.depth_eq, fun n hn => hsound.returns hn, fun t ht => ?_⟩
  · rw [← hsound.kept.depth_eq]
    exact hsound.kept.depth_le
  · have hcontrol := hsound.control
    rw [ht] at hcontrol
    exact hcontrol

end Rulebook.Machine
