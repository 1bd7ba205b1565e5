import Rulebook.Proofs.Mismatches
import Rulebook.Proofs.Widening

/-!
How the six comparisons fit together. Any two numbers stand to each other in one of four ways, and
each operator is an answer to this alone:

                        ==      !=      <       <=      >       >=
    less                        yes     yes     yes
    equal               yes                     yes             yes
    greater                     yes                     yes     yes
    with a NaN                  yes

Equality and order are computed apart, each with cases of its own for two integers and for the rest,
and that they agree comes down to doubles: one equals another if and only if neither is less and
none is a NaN.
-/

namespace Rulebook

/-! ### Doubles -/

section Doubles

variable {x y : Float}

theorem rankOf_eq_none_iff : rankOf x = none ↔ x.isNaN = true := by
  change rank x.toModel.unpack = none ↔ x.toModel.unpack.isNaN = true
  cases x.toModel.unpack with
  | notANumber => simp [rank, Float.Model.UnpackedFloat.isNaN]
  | zero s => simp [rank, Float.Model.UnpackedFloat.isNaN]
  | infinity s | finite s m e hm => cases s <;> simp [rank, Float.Model.UnpackedFloat.isNaN]

theorem doubleOrder_eq_none_iff : doubleOrder x y = none ↔ x.isNaN = true ∨ y.isNaN = true := by
  rw [doubleOrder_eq, ← rankOf_eq_none_iff, ← rankOf_eq_none_iff]
  cases rankOf x <;> cases rankOf y <;> simp

theorem doubleOrder_swap (x y : Float) : doubleOrder y x = (doubleOrder x y).map Ordering.swap := by
  rw [doubleOrder_eq, doubleOrder_eq]
  cases rankOf x with
  | none => cases rankOf y <;> rfl
  | some i =>
    cases rankOf y with
    | none => rfl
    | some j => exact congrArg some Std.OrientedOrd.eq_swap

theorem beq_eq_doubleOrder (x y : Float) : (x == y) = (doubleOrder x y == some .eq) := by
  rw [Bool.eq_iff_iff, beq_iff_rank, doubleOrder_eq]
  cases rankOf x with
  | none => simp
  | some i =>
    cases rankOf y with
    | none => simp
    | some j => simpa using eq_comm

theorem isNaN_widen (n : Int64) : (widen n).isNaN = false := by
  rw [Bool.eq_false_iff, ne_eq, ← rankOf_eq_none_iff, rankOf_widen]
  simp

end Doubles

/-! ### Numbers -/

namespace Value

/-- Whether a value is a double that is no number. -/
def isNaN : Value → Bool
  | float x => x.isNaN
  | _ => false

/-- How two numbers stand to each other, for every way to ask; in no way, if a NaN is among them. -/
structure Stand (a b : Value) (o : Option Ordering) : Prop where
  order : numericOrder a b = some o
  swapped : numericOrder b a = some (o.map Ordering.swap)
  equals : a.equals b = (o == some .eq)
  nan : o = none ↔ a.isNaN = true ∨ b.isNaN = true

variable {a b : Value} {o : Option Ordering} {c : Comparison}

theorem stand_int (m n : Int64) : Stand (int m) (int n) (some (compare m n)) where
  order := rfl
  swapped := congrArg (some ∘ some) Std.OrientedOrd.eq_swap
  equals := by
    rw [Bool.eq_iff_iff]
    simp [Value.equals]
  nan := by simp [isNaN]

/-- Two numbers that are not both integers stand as doubles. -/
theorem stand_double {x y : Float} (horder : numericOrder a b = some (doubleOrder x y))
    (hswapped : numericOrder b a = some (doubleOrder y x)) (hequals : a.equals b = (x == y))
    (ha : a.isNaN = x.isNaN) (hb : b.isNaN = y.isNaN) : Stand a b (doubleOrder x y) where
  order := horder
  swapped := by rw [hswapped, doubleOrder_swap]
  equals := by rw [hequals, beq_eq_doubleOrder]
  nan := by rw [ha, hb, doubleOrder_eq_none_iff]

theorem exists_stand (ha : a.isNumeric = true) (hb : b.isNumeric = true) : ∃ o, Stand a b o := by
  cases a with
  | int m =>
    cases b with
    | int n => exact ⟨_, stand_int m n⟩
    | float y => exact ⟨_, stand_double rfl rfl rfl (isNaN_widen m).symm rfl⟩
    | _ => cases hb
  | float x =>
    cases b with
    | int n => exact ⟨_, stand_double rfl rfl rfl rfl (isNaN_widen n).symm⟩
    | float y => exact ⟨_, stand_double rfl rfl rfl rfl rfl⟩
    | _ => cases hb
  | _ => cases ha

theorem Stand.swap (ha : a.isNumeric = true) (hb : b.isNumeric = true) (h : Stand a b o) :
    Stand b a (o.map Ordering.swap) := by
  obtain ⟨o', h'⟩ := exists_stand hb ha
  cases h.swapped.symm.trans h'.order
  exact h'

theorem compares_of_order (hc : c ∈ [.gt, .ge, .lt, .le]) :
    compares c a b = (numericOrder a b).map fun o => o.any c.accepts := by
  cases c with
  | eq | ne => simp at hc
  | gt | ge | lt | le => rfl

/-- Every operator is an answer to how two numbers stand to each other. -/
theorem Stand.apply_eq (h : Stand a b o) (c : Comparison) :
    c.apply a b = .ok (o.elim (c == .ne) c.accepts) := by
  have hcompares : compares c a b = some (o.elim (c == .ne) c.accepts) := by
    cases c with
    | eq | ne =>
      rw [compares, h.equals]
      cases o <;> rfl
    | gt | ge | lt | le =>
      rw [compares_of_order (by decide), h.order]
      cases o <;> rfl
  rw [Comparison.apply, hcompares]

theorem numericOrder_of_not_numeric (h : a.isNumeric = false ∨ b.isNumeric = false) :
    numericOrder a b = none := by
  rcases h with h | h
  · cases a <;> cases h <;> rfl
  · cases a <;> cases b <;> cases h <;> rfl

end Value

/-! ### The operators -/

namespace Comparison

variable {a b : Value} {o : Ordering} {c : Comparison}

/-- The operator that says no more than how two numbers stand to each other. -/
def exactly : Ordering → Comparison
  | .lt => lt
  | .eq => eq
  | .gt => gt

theorem exactly_mem (o : Ordering) : exactly o ∈ [lt, eq, gt] := by cases o <;> decide

theorem accepts_iff_exactly (hc : c ∈ [lt, eq, gt]) : c.accepts o = true ↔ c = exactly o := by
  cases c with
  | ne | ge | le => simp at hc
  | lt | eq | gt => cases o <;> decide

theorem existsUnique_of_stand (h : Value.Stand a b (some o)) :
    ∃! c, c ∈ [lt, eq, gt] ∧ c.apply a b = .ok true := by
  simp only [h.apply_eq, Except.ok.injEq]
  refine ⟨exactly o, ⟨exactly_mem o, (accepts_iff_exactly (exactly_mem o)).2 rfl⟩, ?_⟩
  rintro c ⟨hc, hholds⟩
  exact (accepts_iff_exactly hc).1 hholds

/-- To swap two numbers is to turn the operator round. -/
theorem apply_swap (ha : a.isNumeric = true) (hb : b.isNumeric = true) :
    gt.apply a b = lt.apply b a ∧ ge.apply a b = le.apply b a := by
  obtain ⟨o, h⟩ := Value.exists_stand ha hb
  rw [h.apply_eq, h.apply_eq, (h.swap ha hb).apply_eq, (h.swap ha hb).apply_eq]
  cases o with
  | none => exact ⟨rfl, rfl⟩
  | some o => cases o <;> exact ⟨rfl, rfl⟩

/-- Order is refused if and only if an operand is no number. -/
theorem mismatch_iff (hc : c ∈ [gt, ge, lt, le]) :
    (∃ found, c.apply a b = .error (.typeMismatch c.text .number found)) ↔
      a.isNumeric = false ∨ b.isNumeric = false := by
  constructor
  · rintro ⟨found, h⟩
    obtain ⟨-, hfloats⟩ := apply_error h
    rwa [Value.float?_eq_none_iff, Value.float?_eq_none_iff] at hfloats
  · intro h
    refine ⟨blame a b, ?_⟩
    rw [apply, Value.compares_of_order hc, Value.numericOrder_of_not_numeric h]
    rfl

/-- CONSISTENT: for two numbers every comparison has an answer. If neither is a NaN, exactly one
    of `<`, `==` and `>` holds, `<=` is `<` or `==`, and `>=` is the contrary of `<`; beside a
    NaN only `!=` holds. To swap the numbers is to turn the operator round. An order is refused
    if and only if an operand is no number, whichever it is. For all values `==` has an answer,
    and `!=` the contrary one. -/
theorem apply_consistent (a b : Value) :
    (a.isNumeric = true → b.isNumeric = true →
      (∀ c, ∃ r, Comparison.apply c a b = .ok r) ∧
      (a.isNaN = false → b.isNaN = false →
        (∃! c, c ∈ [lt, eq, gt] ∧ c.apply a b = .ok true) ∧
        (le.apply a b = .ok true ↔ lt.apply a b = .ok true ∨ eq.apply a b = .ok true) ∧
        (ge.apply a b = .ok true ↔ lt.apply a b = .ok false)) ∧
      (a.isNaN = true ∨ b.isNaN = true →
        ∀ c, Comparison.apply c a b = .ok (decide (c = ne))) ∧
      gt.apply a b = lt.apply b a ∧ ge.apply a b = le.apply b a) ∧
    (∀ c ∈ [gt, ge, lt, le],
      ((∃ found, c.apply a b = .error (.typeMismatch c.text .number found)) ↔
        a.isNumeric = false ∨ b.isNumeric = false) ∧
      ((∃ found, c.apply a b = .error (.typeMismatch c.text .number found)) ↔
        ∃ found, c.apply b a = .error (.typeMismatch c.text .number found))) ∧
    ∃ r, eq.apply a b = .ok r ∧ ne.apply a b = .ok (!r) := by
  refine ⟨fun ha hb => ?_, fun c hc => ⟨mismatch_iff hc, ?_⟩, a.equals b, rfl, rfl⟩
  · obtain ⟨o, h⟩ := Value.exists_stand ha hb
    refine ⟨fun c => ⟨_, h.apply_eq c⟩, fun ha' hb' => ?_, fun hnan c => ?_,
      apply_swap ha hb⟩
    · cases o with
      | none =>
        have hnan := h.nan.1 rfl
        simp [ha', hb'] at hnan
      | some o =>
        refine ⟨existsUnique_of_stand h, ?_, ?_⟩
        · simp only [h.apply_eq, Except.ok.injEq]
          cases o <;> decide
        · simp only [h.apply_eq, Except.ok.injEq]
          cases o <;> decide
    · rw [h.apply_eq, h.nan.2 hnan]
      rfl
  · rw [mismatch_iff hc, mismatch_iff hc, or_comm]

/-- An integer beside the double that it is widened to, beside a NaN and beside null. -/
theorem apply_consistent_widened :
    let n : Value := .int 9007199254740993
    let x : Value := .float 9007199254740992.0
    let nan : Value := .float (0.0 / 0.0)
    (n.isNaN = false ∧ x.isNaN = false ∧ nan.isNaN = true) ∧ eq.apply n x = .ok true ∧
      (∃! c, c ∈ [lt, eq, gt] ∧ c.apply n x = .ok true) ∧ ge.apply n x = le.apply x n ∧
      (∀ c, Comparison.apply c n nan = .ok (decide (c = ne))) ∧
      ∃ found, le.apply .null n = .error (.typeMismatch "<=" .number found) := by
  intro n x nan
  have hx : x.isNaN = false := by decide
  have hnan : nan.isNaN = true := by decide
  obtain ⟨-, hexact, -, -, hge⟩ := (apply_consistent n x).1 rfl rfl
  obtain ⟨-, -, hbeside, -⟩ := (apply_consistent n nan).1 rfl rfl
  obtain ⟨hmismatch, -⟩ := (apply_consistent .null n).2.1 le (by decide)
  exact ⟨⟨rfl, hx, hnan⟩, by decide, (hexact rfl hx).1, hge, hbeside (.inr hnan),
    hmismatch.2 (.inl rfl)⟩

end Comparison

end Rulebook
