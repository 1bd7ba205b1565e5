import Rulebook.Proofs.Widening

/-!
Whether equality and order carry over from one value to the next. Two integers compare exactly, and
so do two doubles; an integer and a double compare as doubles, and widening may bring two integers
together:

    9007199254740993  ==  9007199254740992.0  ==  9007199254740992  !=  9007199254740993
    9007199254740993  <=  9007199254740992.0  <=  9007199254740992  <   9007199254740993

This is all that can go wrong: what is equal to the same value is equal unless a double stands
between two different integers, in the values or at one place inside them, and in the same way for
the order. Where integers lie between `-2 ^ 53` and `2 ^ 53` no double stands between two of them.
-/

namespace Rulebook

variable {x y z : Float} {m n : Int64}

/-! ### Doubles -/

/-- Whether one double is at most another. -/
def atMost (x y : Float) : Bool := (doubleOrder x y).any Comparison.le.accepts

theorem atMost_iff :
    atMost x y = true ↔ ∃ i j, rankOf x = some i ∧ rankOf y = some j ∧ i ≤ j := by
  rw [atMost, doubleOrder_eq]
  cases rankOf x with
  | none => simp
  | some i =>
    cases rankOf y with
    | none => simp
    | some j => simp [Comparison.accepts, compare_gt_iff_gt]

theorem atMost_trans (hxy : atMost x y = true) (hyz : atMost y z = true) : atMost x z = true := by
  obtain ⟨i, j, hx, hy, hij⟩ := atMost_iff.1 hxy
  obtain ⟨j', k, hy', hz, hjk⟩ := atMost_iff.1 hyz
  cases hy.symm.trans hy'
  exact atMost_iff.2 ⟨i, k, hx, hz, Int.le_trans hij hjk⟩

theorem atMost_of_beq (h : (x == y) = true) : atMost x y = true ∧ atMost y x = true := by
  obtain ⟨i, hx, hy⟩ := (beq_iff_rank x y).1 h
  exact ⟨atMost_iff.2 ⟨i, i, hx, hy, Int.le_refl i⟩,
    atMost_iff.2 ⟨i, i, hy, hx, Int.le_refl i⟩⟩

theorem atMost_widen (h : m ≤ n) : atMost (widen m) (widen n) = true :=
  atMost_iff.2 ⟨_, _, rankOf_widen m, rankOf_widen n, place_mono (Int64.le_iff_toInt_le.1 h)⟩

theorem beq_trans (hxy : (x == y) = true) (hyz : (y == z) = true) : (x == z) = true := by
  obtain ⟨i, hx, hy⟩ := (beq_iff_rank x y).1 hxy
  obtain ⟨j, hy', hz⟩ := (beq_iff_rank y z).1 hyz
  cases hy.symm.trans hy'
  exact (beq_iff_rank x z).2 ⟨i, hx, hz⟩

/-! ### Where a double stands between two integers -/

namespace Value

mutual

/-- Whether somewhere in three values a double stands between two different integers. -/
def parted : Value → Value → Value → Bool
  | int m, float _, int n => m != n
  | list as, list bs, list cs => partedItems as bs cs
  | map as, map bs, map cs => partedFields as bs cs
  | _, _, _ => false

/-- `parted` for some elements at one place. -/
def partedItems : List Value → List Value → List Value → Bool
  | a :: as, b :: bs, c :: cs => parted a b c || partedItems as bs cs
  | _, _, _ => false

/-- `parted` for some fields at one place. -/
def partedFields :
    List (String × Value) → List (String × Value) → List (String × Value) → Bool
  | (_, a) :: as, (_, b) :: bs, (_, c) :: cs => parted a b c || partedFields as bs cs
  | _, _, _ => false

end

/-- Whether a double stands between two integers of which the first is the greater. -/
def overtaken : Value → Value → Value → Bool
  | int m, float _, int n => decide (n < m)
  | _, _, _ => false

mutual

/-- Whether all integers in a value lie between `-2 ^ 53` and `2 ^ 53`. -/
def small : Value → Bool
  | int n => decide (n.toInt.natAbs ≤ 2 ^ 53)
  | list vs => smallItems vs
  | map fs => smallFields fs
  | _ => true

/-- `small` for all elements. -/
def smallItems : List Value → Bool
  | [] => true
  | v :: vs => small v && smallItems vs

/-- `small` for all fields. -/
def smallFields : List (String × Value) → Bool
  | [] => true
  | (_, v) :: fs => small v && smallFields fs

end

/-! ### Equality -/

variable {a b c : Value} {as bs : List Value} {fs gs : List (String × Value)}

theorem equals_list_iff :
    (list as).equals b = true ↔ ∃ bs, b = list bs ∧ equalItems as bs = true := by
  cases b <;> simp [equals, sameAtom]

theorem equals_map_iff :
    (map fs).equals b = true ↔ ∃ gs, b = map gs ∧ equalFields fs gs = true := by
  cases b <;> simp [equals, sameAtom]

theorem equalItems_cons_iff {as : List Value} : equalItems (a :: as) bs = true ↔
    ∃ b' bs', bs = b' :: bs' ∧ a.equals b' = true ∧ equalItems as bs' = true := by
  cases bs <;> simp [equalItems]

theorem equalFields_cons_iff {k : String} : equalFields ((k, a) :: fs) gs = true ↔
    ∃ b' gs', gs = (k, b') :: gs' ∧ a.equals b' = true ∧ equalFields fs gs' = true := by
  cases gs with
  | nil => simp [equalFields]
  | cons g gs =>
    obtain ⟨l, b'⟩ := g
    constructor
    · intro h
      simp only [equalFields, Bool.and_eq_true, beq_iff_eq] at h
      obtain ⟨⟨rfl, hb⟩, hgs⟩ := h
      exact ⟨b', gs, rfl, hb, hgs⟩
    · rintro ⟨c, hs, hcons, hc, hhs⟩
      cases hcons
      simp [equalFields, hc, hhs]

theorem isNumeric_iff_exists :
    a.isNumeric = true ↔ (∃ n, a = int n) ∨ ∃ x, a = float x := by
  cases a <;> simp [isNumeric]

theorem isNumeric_of_equals (h : a.equals b = true) : b.isNumeric = a.isNumeric := by
  cases a <;> cases b <;> first | rfl | simp [equals, sameAtom] at h

/-- Numbers that equal the same number are equal unless that is a double between two integers. -/
theorem equals_through_number (ha : a.isNumeric = true) (hab : a.equals b = true)
    (hbc : b.equals c = true) :
    a.equals c = !parted a b c := by
  have hb := (isNumeric_of_equals hab).trans ha
  have hc := (isNumeric_of_equals hbc).trans hb
  rcases isNumeric_iff_exists.1 hb with ⟨k, rfl⟩ | ⟨y, rfl⟩
  · -- beside an integer in the middle, an integer is the same one
    rcases isNumeric_iff_exists.1 ha with ⟨m, rfl⟩ | ⟨x, rfl⟩
    · obtain rfl : m = k := by simpa [equals] using hab
      simp [hbc, parted]
    · rcases isNumeric_iff_exists.1 hc with ⟨n, rfl⟩ | ⟨z, rfl⟩
      · obtain rfl : k = n := by simpa [equals] using hbc
        simp [hab, parted]
      · simpa [equals, parted] using beq_trans hab hbc
  · rcases isNumeric_iff_exists.1 ha with ⟨m, rfl⟩ | ⟨x, rfl⟩ <;>
    rcases isNumeric_iff_exists.1 hc with ⟨n, rfl⟩ | ⟨z, rfl⟩
    · simp [equals, parted, bne]
    · simpa [equals, parted] using beq_trans hab hbc
    · simpa [equals, parted] using beq_trans hab hbc
    · simpa [equals, parted] using beq_trans hab hbc

mutual

theorem equals_through : ∀ (a : Value) {b c : Value}, a.equals b = true → b.equals c = true →
    a.equals c = !parted a b c
  | int _, _, _, hab, hbc => equals_through_number rfl hab hbc
  | float _, _, _, hab, hbc => equals_through_number rfl hab hbc
  | list as, _, _, hab, hbc => by
    obtain ⟨bs, rfl, hbs⟩ := equals_list_iff.1 hab
    obtain ⟨cs, rfl, hcs⟩ := equals_list_iff.1 hbc
    rw [equals, parted]
    exact equalItems_through as hbs hcs
  | map fs, _, _, hab, hbc => by
    obtain ⟨gs, rfl, hgs⟩ := equals_map_iff.1 hab
    obtain ⟨hs, rfl, hhs⟩ := equals_map_iff.1 hbc
    rw [equals, parted]
    exact equalFields_through fs hgs hhs
  | bool _, b, c, hab, hbc | str _, b, c, hab, hbc | object .., b, c, hab, hbc | null, b, c, hab,
      hbc => by
    cases b <;> cases c <;> simp_all [equals, sameAtom, parted]

theorem equalItems_through : ∀ (as : List Value) {bs cs : List Value}, equalItems as bs = true →
    equalItems bs cs = true → equalItems as cs = !partedItems as bs cs
  | [], bs, cs, hab, hbc => by
    cases bs <;> cases cs <;> simp_all [equalItems, partedItems]
  | a :: as, _, _, hab, hbc => by
    obtain ⟨b, bs, rfl, hb, hbs⟩ := equalItems_cons_iff.1 hab
    obtain ⟨c, cs, rfl, hc, hcs⟩ := equalItems_cons_iff.1 hbc
    rw [equalItems, partedItems, equals_through a hb hc, equalItems_through as hbs hcs, Bool.not_or]

theorem equalFields_through : ∀ (fs : List (String × Value)) {gs hs : List (String × Value)},
    equalFields fs gs = true → equalFields gs hs = true →
    equalFields fs hs = !partedFields fs gs hs
  | [], gs, hs, hab, hbc => by
    cases gs <;> cases hs <;> simp_all [equalFields, partedFields]
  | (k, a) :: fs, _, _, hab, hbc => by
    obtain ⟨b, gs, rfl, hb, hgs⟩ := equalFields_cons_iff.1 hab
    obtain ⟨c, hs, rfl, hc, hhs⟩ := equalFields_cons_iff.1 hbc
    rw [equalFields, partedFields, equals_through a hb hc, equalFields_through fs hgs hhs,
      Bool.not_or, beq_self_eq_true, Bool.true_and]

end

/-! ### Order -/

theorem compares_le_int (m n : Int64) : compares .le (int m) (int n) = some (decide (m ≤ n)) := by
  refine congrArg some ?_
  rw [Bool.eq_iff_iff, decide_eq_true_iff]
  simp [Comparison.accepts, Std.compare_eq_gt]

theorem le_of_compares_le (h : compares .le (int m) (int n) = some true) : m ≤ n := by
  rw [compares_le_int] at h
  simpa using h

theorem isNumeric_of_compares_le (h : compares .le a b = some true) :
    a.isNumeric = true ∧ b.isNumeric = true := by
  cases a <;> cases b <;> first | exact ⟨rfl, rfl⟩ | cases h

/-- Numbers that are at most one another are in order unless a double is between two integers. -/
theorem compares_le_through (hab : compares .le a b = some true)
    (hbc : compares .le b c = some true) :
    compares .le a c = some (!overtaken a b c) := by
  obtain ⟨ha, hb⟩ := isNumeric_of_compares_le hab
  obtain ⟨-, hc⟩ := isNumeric_of_compares_le hbc
  rcases isNumeric_iff_exists.1 hb with ⟨k, rfl⟩ | ⟨y, rfl⟩ <;>
  rcases isNumeric_iff_exists.1 ha with ⟨m, rfl⟩ | ⟨x, rfl⟩ <;>
  rcases isNumeric_iff_exists.1 hc with ⟨n, rfl⟩ | ⟨z, rfl⟩
  · -- an integer is in the middle; one at an end is widened before it meets a double at the other
    rw [compares_le_int]
    simpa [overtaken] using Int64.le_trans (le_of_compares_le hab) (le_of_compares_le hbc)
  · exact congrArg some (atMost_trans (atMost_widen (le_of_compares_le hab)) (Option.some.inj hbc))
  · exact congrArg some (atMost_trans (Option.some.inj hab) (atMost_widen (le_of_compares_le hbc)))
  · exact congrArg some (atMost_trans (Option.some.inj hab) (Option.some.inj hbc))
  · -- a double is in the middle; two integers at the ends compare without it
    rw [compares_le_int]
    simp [overtaken, ← Int64.not_lt]
  · exact congrArg some (atMost_trans (Option.some.inj hab) (Option.some.inj hbc))
  · exact congrArg some (atMost_trans (Option.some.inj hab) (Option.some.inj hbc))
  · exact congrArg some (atMost_trans (Option.some.inj hab) (Option.some.inj hbc))

/-! ### Integers that are kept apart -/

theorem le_of_atMost (hm : (int m).small = true) (hn : (int n).small = true)
    (hmy : atMost (widen m) y = true) (hyn : atMost y (widen n) = true) : m ≤ n := by
  simp only [small, decide_eq_true_eq] at hm hn
  obtain ⟨i, j, hi, hj, hij⟩ := atMost_iff.1 (atMost_trans hmy hyn)
  rw [rankOf_widen] at hi hj
  cases hi
  cases hj
  rw [Int64.le_iff_toInt_le, ← Int.not_lt]
  intro hlt
  have hplace := place_lt hlt hn hm
  omega

theorem overtaken_eq_false (ha : a.small = true) (hc : c.small = true)
    (hab : compares .le a b = some true) (hbc : compares .le b c = some true) :
    overtaken a b c = false := by
  unfold overtaken
  split
  · simpa [← Int64.not_le] using le_of_atMost ha hc (Option.some.inj hab) (Option.some.inj hbc)
  · rfl

theorem eq_of_beq (hm : (int m).small = true) (hn : (int n).small = true)
    (hmy : (widen m == y) = true) (hyn : (y == widen n) = true) : m = n := by
  obtain ⟨hmy₁, hmy₂⟩ := atMost_of_beq hmy
  obtain ⟨hyn₁, hyn₂⟩ := atMost_of_beq hyn
  exact Int64.le_antisymm (le_of_atMost hm hn hmy₁ hyn₁) (le_of_atMost hn hm hyn₂ hmy₂)

mutual

theorem parted_eq_false : ∀ (a : Value) {b c : Value}, a.small = true → c.small = true →
    a.equals b = true → b.equals c = true → parted a b c = false
  | int _, b, c, ha, hc, hab, hbc => by
    unfold parted
    split
    · next hm =>
      cases hm
      simpa [bne] using eq_of_beq ha hc hab hbc
    · next hm => cases hm
    · next hm => cases hm
    · rfl
  | list as, _, _, ha, hc, hab, hbc => by
    obtain ⟨bs, rfl, hbs⟩ := equals_list_iff.1 hab
    obtain ⟨cs, rfl, hcs⟩ := equals_list_iff.1 hbc
    rw [parted]
    exact partedItems_eq_false as ha hc hbs hcs
  | map fs, _, _, ha, hc, hab, hbc => by
    obtain ⟨gs, rfl, hgs⟩ := equals_map_iff.1 hab
    obtain ⟨hs, rfl, hhs⟩ := equals_map_iff.1 hbc
    rw [parted]
    exact partedFields_eq_false fs ha hc hgs hhs
  | float _, _, _, _, _, _, _ | bool _, _, _, _, _, _, _ | str _, _, _, _, _, _, _
  | object .., _, _, _, _, _, _ | null, _, _, _, _, _, _ => by simp [parted]

theorem partedItems_eq_false : ∀ (as : List Value) {bs cs : List Value}, smallItems as = true →
    smallItems cs = true → equalItems as bs = true → equalItems bs cs = true →
    partedItems as bs cs = false
  | [], _, _, _, _, _, _ => by simp [partedItems]
  | a :: as, _, _, ha, hc, hab, hbc => by
    obtain ⟨b, bs, rfl, hb, hbs⟩ := equalItems_cons_iff.1 hab
    obtain ⟨c, cs, rfl, hc', hcs⟩ := equalItems_cons_iff.1 hbc
    rw [smallItems, Bool.and_eq_true] at ha hc
    rw [partedItems, parted_eq_false a ha.1 hc.1 hb hc', partedItems_eq_false as ha.2 hc.2 hbs hcs,
      Bool.or_self]

theorem partedFields_eq_false : ∀ (fs : List (String × Value)) {gs hs : List (String × Value)},
    smallFields fs = true → smallFields hs = true → equalFields fs gs = true →
    equalFields gs hs = true →
    partedFields fs gs hs = false
  | [], _, _, _, _, _, _ => by simp [partedFields]
  | (k, a) :: fs, _, _, ha, hc, hab, hbc => by
    obtain ⟨b, gs, rfl, hb, hgs⟩ := equalFields_cons_iff.1 hab
    obtain ⟨c, hs, rfl, hc', hhs⟩ := equalFields_cons_iff.1 hbc
    rw [smallFields, Bool.and_eq_true] at ha hc
    rw [partedFields, parted_eq_false a ha.1 hc.1 hb hc',
      partedFields_eq_false fs ha.2 hc.2 hgs hhs, Bool.or_self]

end

/-- CARRYING OVER: what equals the same value is equal, and numbers that are at most one
    another are in order, unless a double stands between two different integers. No double does
    between two small ones. -/
theorem equals_and_le_trans (a b c : Value) :
    (a.equals b = true → b.equals c = true → a.equals c = !parted a b c) ∧
    (compares .le a b = some true → compares .le b c = some true →
      compares .le a c = some (!overtaken a b c)) ∧
    (a.small = true → c.small = true →
      (a.equals b = true → b.equals c = true → a.equals c = true) ∧
      (compares .le a b = some true → compares .le b c = some true →
        compares .le a c = some true)) := by
  refine ⟨equals_through a, compares_le_through,
    fun ha hc => ⟨fun hab hbc => ?_, fun hab hbc => ?_⟩⟩
  · rw [equals_through a hab hbc, parted_eq_false a ha hc hab hbc, Bool.not_false]
  · rw [compares_le_through hab hbc, overtaken_eq_false ha hc hab hbc, Bool.not_false]

/-- A double between two small integers, and one between two lists with an integer at
    one place in each. -/
theorem equals_and_le_trans_nested :
    let one := float 1.0
    let a := list [int 1, map [("count", int 1)]]
    let b := list [one, map [("count", one)]]
    (a.equals b = true ∧ b.equals a = true ∧ parted a b a = false) ∧
      (compares .le (int 1) one = some true ∧ compares .le one (int 2) = some true ∧
        compares .le (int 1) (int 2) = some true) := by
  intro one a b
  have hab : a.equals b = true := by decide
  have hba : b.equals a = true := by decide
  have hle : compares .le (int 1) one = some true := by decide
  have hle' : compares .le one (int 2) = some true := by decide
  obtain ⟨hequals, -, hsmall⟩ := equals_and_le_trans a b a
  obtain ⟨-, horder, -⟩ := equals_and_le_trans (int 1) one (int 2)
  have haa := (hsmall (by decide) (by decide)).1 hab hba
  refine ⟨⟨hab, hba, ?_⟩, hle, hle', horder hle hle'⟩
  simpa [haa] using hequals hab hba

/-- Two integers that equal one double. They are not equal, and in one direction not
    in order either. -/
theorem equals_and_le_not_trans :
    let a := int 9007199254740993
    let b := float 9007199254740992.0
    let c := int 9007199254740992
    a.equals b = true ∧ b.equals c = true ∧ a.equals c = false ∧
      compares .le a b = some true ∧ compares .le b c = some true ∧
      compares .le a c = some false := by
  decide

end Value

end Rulebook
