import Mathlib
import Rulebook.Value.Order

/-!
How doubles stand to each other. All of them but NaN stand in a row, and each has a rank in it; the
two zeros share one. A positive double `m * 2 ^ e` has

    key e m = (e + 1074) * 2 ^ 52 + m

and a negative one that of the opposite double, negated. Mantissas have fifty-three bits, so that
what is full at one exponent is the beginning of the next, and infinity comes last:

    key e (2 ^ 53) = key (e + 1) (2 ^ 52)        infinity = key 972 (2 ^ 52)

Whether one double is less than another or equal to it is a matter of their ranks alone, and beside
a NaN nothing is either.
-/

namespace Rulebook

open Float.Model Float.Model.UnpackedFloat

variable {m n k : Nat} {e : Int} {m₁ m₂ : Nat} {e₁ e₂ : Int} {s : Sign} {i j : Int}

/-! ### The row of doubles -/

/-- The rank of a positive double. -/
def key (e : Int) (m : Nat) : Int := (e + 1074) * 2 ^ 52 + m

/-- The rank of a double; a NaN has none. -/
def rank : UnpackedFloat → Option Int
  | .notANumber => none
  | .infinity .negative => some (-key 972 (2 ^ 52))
  | .finite .negative m e _ => some (-key e m)
  | .zero _ => some 0
  | .finite .positive m e _ => some (key e m)
  | .infinity .positive => some (key 972 (2 ^ 52))

/-- The exponent and the mantissa of a double: the mantissa is full unless the
    exponent is the least. -/
structure Fitted (e : Int) (m : Nat) : Prop where
  least : -1074 ≤ e
  greatest : e ≤ 971
  bounded : m < 2 ^ 53
  full : e = -1074 ∨ 2 ^ 52 ≤ m

/-- A double that is written as doubles are stored. -/
def Canonical : UnpackedFloat → Prop
  | .finite _ m e _ => Fitted e m
  | _ => True

theorem key_lt_key_iff (h₁ : Fitted e₁ m₁) (h₂ : Fitted e₂ m₂) :
    key e₁ m₁ < key e₂ m₂ ↔ e₁ < e₂ ∨ e₁ = e₂ ∧ m₁ < m₂ := by
  obtain ⟨hleast₁, -, hbounded₁, hfull₁⟩ := h₁
  obtain ⟨hleast₂, -, hbounded₂, hfull₂⟩ := h₂
  unfold key
  omega

theorem key_pos (h : Fitted e m) (hm : 0 < m) : 0 < key e m := by
  have hleast := h.least
  unfold key
  omega

theorem key_lt_infinity (h : Fitted e m) : key e m < key 972 (2 ^ 52) := by
  have hgreatest := h.greatest
  have hbounded := h.bounded
  unfold key
  omega

/-- The exponent counts first, then the mantissa. -/
theorem compare_key (h₁ : Fitted e₁ m₁) (h₂ : Fitted e₂ m₂) :
    (compare e₁ e₂).then (compare m₁ m₂) = compare (key e₁ m₁) (key e₂ m₂) := by
  have hlt := key_lt_key_iff h₁ h₂
  have hgt := key_lt_key_iff h₂ h₁
  rcases Int.lt_trichotomy e₁ e₂ with h | rfl | h
  · rw [compare_lt_iff_lt.2 h, compare_lt_iff_lt.2 (hlt.2 (.inl h))]
    rfl
  · rcases Nat.lt_trichotomy m₁ m₂ with h | rfl | h
    · rw [compare_eq_iff_eq.2 rfl, compare_lt_iff_lt.2 h,
        compare_lt_iff_lt.2 (hlt.2 (.inr ⟨rfl, h⟩))]
      rfl
    · simp
    · rw [compare_eq_iff_eq.2 rfl, compare_gt_iff_gt.2 h,
        compare_gt_iff_gt.2 (hgt.2 (.inr ⟨rfl, h⟩))]
      rfl
  · rw [compare_gt_iff_gt.2 h, compare_gt_iff_gt.2 (hgt.2 (.inl h))]
    rfl

theorem compare_neg_neg (i j : Int) : compare (-i) (-j) = (compare i j).swap := by
  rcases Int.lt_trichotomy i j with h | rfl | h
  · rw [compare_lt_iff_lt.2 h, compare_gt_iff_gt.2 (by omega)]
    rfl
  · simp
  · rw [compare_gt_iff_gt.2 h, compare_lt_iff_lt.2 (by omega)]
    rfl

theorem lt_eq_compare (h : i < j) : some Ordering.lt = some (compare i j) := by
  rw [compare_lt_iff_lt.2 h]

theorem gt_eq_compare (h : j < i) : some Ordering.gt = some (compare i j) := by
  rw [compare_gt_iff_gt.2 h]

/-- Doubles stand to each other as their ranks do. -/
theorem compare_eq {x y : UnpackedFloat} (hx : Canonical x) (hy : Canonical y) :
    x.compare y = (rank x).bind fun i => (rank y).map fun j => compare i j := by
  cases x with
  | notANumber => rfl
  | infinity s =>
    cases y with
    | notANumber => cases s <;> rfl
    | infinity s' => cases s <;> cases s' <;> rfl
    | zero s' => cases s <;> rfl
    | finite s' m' e' hm' =>
      have hpos := key_pos hy hm'
      have htop := key_lt_infinity hy
      cases s <;> cases s'
      · exact lt_eq_compare (by omega)
      · exact lt_eq_compare (by omega)
      · exact gt_eq_compare (by omega)
      · exact gt_eq_compare (by omega)
  | zero s =>
    cases y with
    | notANumber => rfl
    | infinity s' => cases s' <;> rfl
    | zero s' => rfl
    | finite s' m' e' hm' =>
      have hpos := key_pos hy hm'
      cases s'
      · exact gt_eq_compare (by omega)
      · exact lt_eq_compare hpos
  | finite s m e hm =>
    have hpos := key_pos hx hm
    have htop := key_lt_infinity hx
    cases y with
    | notANumber => cases s <;> rfl
    | infinity s' =>
      cases s <;> cases s'
      · exact gt_eq_compare (by omega)
      · exact lt_eq_compare (by omega)
      · exact gt_eq_compare (by omega)
      · exact lt_eq_compare (by omega)
    | zero s' =>
      cases s
      · exact lt_eq_compare (by omega)
      · exact gt_eq_compare hpos
    | finite s' m' e' hm' =>
      have hpos' := key_pos hy hm'
      have hkeys := compare_key hx hy
      cases s <;> cases s'
      · exact congrArg some ((congrArg Ordering.swap hkeys).trans (compare_neg_neg _ _).symm)
      · exact lt_eq_compare (by omega)
      · exact gt_eq_compare (by omega)
      · exact congrArg some hkeys

/-! ### Stored doubles -/

theorem toNat_implicit (mantissa : BitVec 52) :
    (1#1 ++ mantissa).toNat = 2 ^ 52 + mantissa.toNat := by
  rw [BitVec.toNat_append, ← Nat.shiftLeft_add_eq_or_of_lt mantissa.isLt]
  rfl

theorem canonical_unpack (x : Float.Model) : Canonical x.unpack := by
  unfold Float.Model.unpack UnpackedFloat.unpack
  extract_lets mantissa exponent e sign s
  have hmantissa : mantissa.toNat < 2 ^ 52 := mantissa.isLt
  have hexponent : exponent.toNat < 2 ^ 11 := exponent.isLt
  have he : e = exponent.toNat - 1075 := rfl
  split
  · split <;> exact trivial
  next hlast =>
  split
  · next hzero =>
    split
    · exact trivial
    · have hleast : e + 1 = -1074 := by rw [he, hzero]; rfl
      exact ⟨by omega, by omega, Nat.lt_trans hmantissa (by decide), .inl hleast⟩
  · next hzero =>
    have hpos : exponent.toNat ≠ 0 := fun h => hzero (BitVec.eq_of_toNat_eq h)
    have hmax : exponent.toNat ≠ 2047 := fun h => hlast (BitVec.eq_of_toNat_eq h)
    have hfull := toNat_implicit mantissa
    exact ⟨by omega, by omega, by omega, .inr (by omega)⟩

theorem unpackSign_packComponents {spec : Format} {exponent : BitVec spec.exponentBits}
    {mantissa : BitVec spec.mantissaBitsWithoutImplicit} :
    unpackSign (packComponents spec s exponent mantissa) = s.toBitVec := by
  ext i hi
  obtain rfl : i = 0 := by omega
  simp [unpackSign, packComponents, BitVec.getLsbD_eq_getElem, BitVec.getLsbD_append,
    BitVec.getElem_append]

theorem ofBitVec_toBitVec (s : Sign) : Sign.ofBitVec s.toBitVec = s := by cases s <;> rfl

theorem finite_congr {h₁ : 0 < m₁} {h₂ : 0 < m₂} (hm : m₁ = m₂) (he : e₁ = e₂) :
    finite s m₁ e₁ h₁ = finite s m₂ e₂ h₂ := by
  subst hm he
  rfl

/-- A double with a full mantissa is stored as it is. -/
theorem unpack_pack {h : 0 < m} (hfitted : Fitted e m) (hfull : 2 ^ 52 ≤ m) :
    (Float.Model.pack (.finite s m e h)).unpack = .finite s m e h := by
  obtain ⟨hleast, hgreatest, hbounded, -⟩ := hfitted
  have hlog : m.log2 = 52 := (Nat.log2_eq_iff (by omega)).2 ⟨hfull, hbounded⟩
  have hpack : UnpackedFloat.pack Format.binary64 (.finite s m e h) =
      packComponents Format.binary64 s (BitVec.ofNat 11 (e + 1075).toNat) (BitVec.ofNat 52 m) := by
    simp only [UnpackedFloat.pack, Format.exponentBias, Format.mantissaBits, hlog]
    rw [if_neg (by omega), if_pos trivial]
    congr 3
    omega
  have hexponent : (BitVec.ofNat 11 (e + 1075).toNat).toNat = (e + 1075).toNat := by
    rw [BitVec.toNat_ofNat, Nat.mod_eq_of_lt (by omega)]
  have hne {b : BitVec 11} (hb : b.toNat ≠ (e + 1075).toNat) :
      BitVec.ofNat 11 (e + 1075).toNat ≠ b := by
    rintro rfl
    exact hb hexponent
  have hlast := hne (b := -1#11) (show 2047 ≠ (e + 1075).toNat by omega)
  have hzero := hne (b := 0#11) (show 0 ≠ (e + 1075).toNat by omega)
  change UnpackedFloat.unpack Format.binary64
    (UnpackedFloat.pack Format.binary64 (.finite s m e h)) = _
  rw [hpack, UnpackedFloat.unpack]
  simp only [unpackMantissa_packComponents, unpackExponent_packComponents,
    unpackSign_packComponents, ofBitVec_toBitVec]
  rw [if_neg hlast, if_neg hzero]
  refine finite_congr ?_ ?_
  · rw [toNat_implicit, BitVec.toNat_ofNat]
    omega
  · rw [hexponent]
    simp only [Format.exponentBias]
    omega

/-! ### Comparing doubles -/

/-- The rank of a double in the row; a NaN has none. -/
def rankOf (x : Float) : Option Int := rank x.toModel.unpack

theorem compare_ranks (x y : Float) :
    x.toModel.unpack.compare y.toModel.unpack =
      (rankOf x).bind fun i => (rankOf y).map fun j => compare i j :=
  compare_eq (canonical_unpack _) (canonical_unpack _)

theorem lt_iff_rank (x y : Float) :
    x < y ↔ ∃ i j, rankOf x = some i ∧ rankOf y = some j ∧ i < j := by
  change decide ((x.toModel.unpack.compare y.toModel.unpack == some .lt) = true) = true ↔ _
  rw [compare_ranks, decide_eq_true_iff]
  cases rankOf x <;> cases rankOf y <;> simp [compare_lt_iff_lt]

theorem beq_iff_rank (x y : Float) :
    (x == y) = true ↔ ∃ i, rankOf x = some i ∧ rankOf y = some i := by
  change (x.toModel.unpack.compare y.toModel.unpack == some .eq) = true ↔ _
  rw [compare_ranks]
  cases rankOf x with
  | none => simp
  | some i =>
    cases rankOf y with
    | none => simp
    | some j => simpa using eq_comm

/-- The order of two doubles is that of their ranks. -/
theorem doubleOrder_eq (x y : Float) :
    doubleOrder x y = (rankOf x).bind fun i => (rankOf y).map fun j => compare i j := by
  cases hx : rankOf x with
  | none => simp [doubleOrder, lt_iff_rank, beq_iff_rank, hx]
  | some i =>
    cases hy : rankOf y with
    | none => simp [doubleOrder, lt_iff_rank, beq_iff_rank, hx, hy]
    | some j =>
      have hlt : x < y ↔ i < j := by simp [lt_iff_rank, hx, hy]
      have hgt : y < x ↔ j < i := by simp [lt_iff_rank, hx, hy]
      have heq : (x == y) = true ↔ i = j := by simpa [beq_iff_rank, hx, hy] using eq_comm
      rcases Int.lt_trichotomy i j with h | rfl | h
      · simp [doubleOrder, hlt, h, compare_lt_iff_lt.2 h]
      · simp [doubleOrder, hlt, hgt, heq]
      · simp [doubleOrder, hlt, hgt, h, Int.not_lt.2 (Int.le_of_lt h), compare_gt_iff_gt.2 h]

end Rulebook
