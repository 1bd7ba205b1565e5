import Rulebook.Proofs.Doubles

/-!
Where integers end up among the doubles. An integer is widened in two steps. It is moved until its
first bit is that of `2 ^ 52`, and the bits that fall off on the right round what is left, to an
even mantissa in the middle between two.

    9007199254740991     9007199254740992  9007199254740993     9007199254740994
            │                    │        ╱                            │
    9007199254740991.0   9007199254740992.0                     9007199254740994.0

Neither step turns two integers round, so that widening keeps their order. Up to `2 ^ 53` no bit
falls off that is set, and integers are kept apart as well.
-/

namespace Rulebook

open Float.Model Float.Model.UnpackedFloat

variable {m n k : Nat} {e i j : Int} {s : Sign} {a b : ExtendedMantissa}

/-! ### Rounding -/

/-- A mantissa with the bits behind it as one number. -/
def weight (a : ExtendedMantissa) : Nat := 4 * a.mantissa + 2 * a.roundBit.toNat + a.stickyBit.toNat

/-- A mantissa with nothing behind it. -/
def whole (m : Nat) : ExtendedMantissa := ⟨m, false, false⟩

theorem weight_shiftRightOne (a : ExtendedMantissa) :
    weight a.shiftRightOne = 2 * a.mantissa + (a.roundBit || a.stickyBit).toNat := by
  rw [weight, ExtendedMantissa.shiftRightOne]
  rcases Nat.mod_two_eq_zero_or_one a.mantissa with h | h <;> simp [h] <;> omega

theorem shiftRightOne_mono (h : weight a ≤ weight b) :
    weight a.shiftRightOne ≤ weight b.shiftRightOne := by
  rw [weight_shiftRightOne, weight_shiftRightOne]
  obtain ⟨m, r, s⟩ := a
  obtain ⟨n, r', s'⟩ := b
  simp only [weight] at h ⊢
  cases r <;> cases s <;> cases r' <;> cases s' <;> simp at h ⊢ <;> omega

theorem shiftRight_mono (h : weight a ≤ weight b) (k : Nat) :
    weight (a >>> k) ≤ weight (b >>> k) := by
  induction k with
  | zero => exact h
  | succ k ih => exact shiftRightOne_mono ih

theorem mantissa_shiftRight (a : ExtendedMantissa) (k : Nat) :
    (a >>> k).mantissa = a.mantissa / 2 ^ k := by
  induction k with
  | zero => exact (Nat.div_one _).symm
  | succ k ih =>
    rw [Nat.pow_succ, ← Nat.div_div_eq_div_mul, ← ih]
    rfl

theorem roundedMantissa_mono (h : weight a ≤ weight b) :
    a.roundedMantissa ≤ b.roundedMantissa := by
  obtain ⟨m, r, s⟩ := a
  obtain ⟨n, r', s'⟩ := b
  simp only [weight] at h
  cases r <;> cases s <;> cases r' <;> cases s' <;>
    simp [ExtendedMantissa.roundedMantissa, ExtendedMantissa.accuracy,
      Accuracy.roundToNearestEven] at h ⊢ <;>
    omega

theorem roundedMantissa_bounds (a : ExtendedMantissa) :
    a.mantissa ≤ a.roundedMantissa ∧ a.roundedMantissa ≤ a.mantissa + 1 := by
  obtain ⟨m, r, s⟩ := a
  cases r <;> cases s <;>
    simp [ExtendedMantissa.roundedMantissa, ExtendedMantissa.accuracy, Accuracy.roundToNearestEven]
  omega

/-! ### The nearest double -/

/-- An integer moved until its first bit is that of `2 ^ 52`. -/
def scaled (m : Nat) : ExtendedMantissa := whole (m <<< (52 - m.log2)) >>> (m.log2 - 52)

/-- The mantissa of the double that is nearest to an integer. -/
def nearest (m : Nat) : Nat := (scaled m).roundedMantissa

/-- The rank of the double that is nearest to a positive integer. -/
def magnitude (m : Nat) : Int := key ((m.log2 : Int) - 52) (nearest m)

theorem mantissa_scaled (m : Nat) :
    (scaled m).mantissa = m * 2 ^ (52 - m.log2) / 2 ^ (m.log2 - 52) := by
  rw [scaled, mantissa_shiftRight, whole, Nat.shiftLeft_eq]

theorem mantissa_scaled_bounds (hm : 0 < m) :
    2 ^ 52 ≤ (scaled m).mantissa ∧ (scaled m).mantissa < 2 ^ 53 := by
  have hlow := Nat.log2_self_le (Nat.ne_of_gt hm)
  have hhigh := Nat.lt_log2_self (n := m)
  rw [mantissa_scaled]
  rcases Nat.le_total m.log2 52 with h | h
  · have hpow (l : Nat) : 2 ^ (m.log2 + l) * 2 ^ (52 - m.log2) = 2 ^ (52 + l) := by
      rw [← Nat.pow_add]
      congr 1
      omega
    rw [Nat.sub_eq_zero_of_le h, Nat.pow_zero, Nat.div_one, ← hpow 0, ← hpow 1]
    exact ⟨Nat.mul_le_mul_right _ hlow, Nat.mul_lt_mul_of_pos_right hhigh (Nat.two_pow_pos _)⟩
  · have hpow (l : Nat) : 2 ^ (52 + l) * 2 ^ (m.log2 - 52) = 2 ^ (m.log2 + l) := by
      rw [← Nat.pow_add]
      congr 1
      omega
    rw [Nat.sub_eq_zero_of_le h, Nat.pow_zero, Nat.mul_one,
      Nat.le_div_iff_mul_le (Nat.two_pow_pos _), Nat.div_lt_iff_lt_mul (Nat.two_pow_pos _)]
    exact ⟨(hpow 0).trans_le hlow, hhigh.trans_eq (hpow 1).symm⟩

theorem nearest_bounds (hm : 0 < m) : 2 ^ 52 ≤ nearest m ∧ nearest m ≤ 2 ^ 53 := by
  have hscaled := mantissa_scaled_bounds hm
  have hrounded := roundedMantissa_bounds (scaled m)
  unfold nearest
  omega

theorem nearest_mono (h : m ≤ n) (hlog : m.log2 = n.log2) : nearest m ≤ nearest n := by
  rw [nearest, nearest, scaled, scaled, hlog]
  refine roundedMantissa_mono (shiftRight_mono ?_ _)
  have hscaled := Nat.mul_le_mul_right (2 ^ (52 - n.log2)) h
  simp only [weight, whole, Nat.shiftLeft_eq]
  omega

/-- An integer of at most fifty-three bits is moved and not rounded. -/
theorem nearest_of_small (h : m.log2 ≤ 52) : nearest m = m * 2 ^ (52 - m.log2) := by
  rw [nearest, scaled, Nat.sub_eq_zero_of_le h, Nat.shiftLeft_eq]
  rfl

theorem magnitude_pos (hm : 0 < m) : 0 < magnitude m := by
  have hnearest := nearest_bounds hm
  unfold magnitude key
  omega

theorem log2_mono (hm : 0 < m) (h : m ≤ n) : m.log2 ≤ n.log2 :=
  (Nat.le_log2 (by omega)).2 (Nat.le_trans (Nat.log2_self_le (Nat.ne_of_gt hm)) h)

theorem magnitude_mono (hm : 0 < m) (h : m ≤ n) : magnitude m ≤ magnitude n := by
  have hlow := nearest_bounds hm
  have hhigh := nearest_bounds (Nat.lt_of_lt_of_le hm h)
  unfold magnitude key
  rcases Nat.lt_or_eq_of_le (log2_mono hm h) with hlog | hlog
  · omega
  · have hnearest := nearest_mono h hlog
    omega

theorem magnitude_lt (hm : 0 < m) (h : m < n) (hn : n ≤ 2 ^ 53) : magnitude m < magnitude n := by
  have hsmall : m.log2 ≤ 52 :=
    Nat.lt_succ_iff.1 ((Nat.log2_lt (Nat.ne_of_gt hm)).2 (Nat.lt_of_lt_of_le h hn))
  have hmantissa := mantissa_scaled_bounds hm
  rw [mantissa_scaled, Nat.sub_eq_zero_of_le hsmall, Nat.pow_zero, Nat.div_one,
    ← nearest_of_small hsmall] at hmantissa
  have hhigh := nearest_bounds (Nat.zero_lt_of_lt h)
  unfold magnitude key
  rcases Nat.lt_or_eq_of_le (log2_mono hm (Nat.le_of_lt h)) with hlog | hlog
  · omega
  · have hnearest : nearest m < nearest n := by
      rw [nearest_of_small hsmall, nearest_of_small (hlog ▸ hsmall), hlog]
      exact Nat.mul_lt_mul_of_pos_right h (Nat.two_pow_pos _)
    omega

/-! ### Widening -/

theorem log2_shiftLeft (hm : 0 < m) (k : Nat) : (m <<< k).log2 = m.log2 + k := by
  have hpos := Nat.mul_pos hm (Nat.two_pow_pos k)
  rw [Nat.shiftLeft_eq, Nat.log2_eq_iff (Nat.ne_of_gt hpos), Nat.add_right_comm, Nat.pow_add,
    Nat.pow_add]
  exact ⟨Nat.mul_le_mul_right _ (Nat.log2_self_le (Nat.ne_of_gt hm)),
    Nat.mul_lt_mul_of_pos_right Nat.lt_log2_self (Nat.two_pow_pos k)⟩

/-- A mantissa whose first bit is too far left is moved to the right. -/
theorem shiftToTargetExponent_exact (h : -1022 ≤ m.log2 + e) :
    shiftToTargetExponent Format.binary64 m e .exact =
      (whole m >>> (m.log2 - 52), e + (m.log2 - 52 : Nat)) := by
  have hshift : (Format.binary64.targetExponent (totalExponent m e) - e).toNat = m.log2 - 52 := by
    simp only [Format.targetExponent, totalExponent, Format.mantissaBits, Format.minExponent]
    omega
  simp only [shiftToTargetExponent, shiftToExponent, hshift]
  rfl

/-- Rounding an integer begins with moving it. -/
theorem shiftToTargetExponent_scaled (hm : 0 < m) :
    shiftToTargetExponent Format.binary64 (m <<< (52 - m.log2)) (-(52 - m.log2 : Nat)) .exact =
      (scaled m, (m.log2 : Int) - 52) := by
  have hlog := log2_shiftLeft hm (52 - m.log2)
  rw [shiftToTargetExponent_exact (by omega), hlog, scaled]
  congr 2 <;> omega

/-- It ends with moving it once more if all its bits were rounded away upwards. -/
theorem exists_shiftToTargetExponent (hlow : 2 ^ 52 ≤ m) (hhigh : m ≤ 2 ^ 53)
    (he : -1074 ≤ e) :
    ∃ a i, shiftToTargetExponent Format.binary64 m e .exact = (a, i) ∧ 2 ^ 52 ≤ a.mantissa ∧
      a.mantissa < 2 ^ 53 ∧ e ≤ i ∧ i ≤ e + 1 ∧ key i a.mantissa = key e m := by
  rcases Nat.lt_or_eq_of_le hhigh with h | rfl
  · have hlog : m.log2 = 52 := (Nat.log2_eq_iff (by omega)).2 ⟨hlow, h⟩
    refine ⟨whole m, e, ?_, hlow, h, by omega, by omega, rfl⟩
    rw [shiftToTargetExponent_exact (by omega), hlog]
    exact Prod.ext rfl (Int.add_zero e)
  · have hlog : (2 ^ 53).log2 = 53 := by decide
    refine ⟨whole (2 ^ 52), e + 1, ?_, Nat.le_refl _, by decide, by omega, by omega, ?_⟩
    · rw [shiftToTargetExponent_exact (by omega), hlog]
      rfl
    · simp only [whole, key]
      omega

theorem round_eq (hm : 0 < m) (hmax : m ≤ 2 ^ 63) :
    ∃ n e h, UnpackedFloat.round Format.binary64 s m 0 = .finite s n e h ∧
      2 ^ 52 ≤ n ∧ Fitted e n ∧ key e n = magnitude m := by
  have hshift : (0 - Format.binary64.targetExponent (totalExponent m 0)).toNat = 52 - m.log2 := by
    simp only [Format.targetExponent, totalExponent, Format.mantissaBits, Format.minExponent]
    omega
  have hlog : m.log2 ≤ 63 := log2_mono hm hmax
  obtain ⟨hlow, hhigh⟩ := nearest_bounds hm
  obtain ⟨a, i, hsecond, hfull, hbounded, hleast, hgreatest, hkey⟩ :=
    exists_shiftToTargetExponent hlow hhigh (show -1074 ≤ (m.log2 : Int) - 52 by omega)
  have hpos : 0 < a.mantissa := by omega
  refine ⟨a.mantissa, i, hpos, ?_, hfull, ⟨by omega, by omega, hbounded, .inr hfull⟩, hkey⟩
  simp only [UnpackedFloat.round, decreaseExponent, hshift]
  rw [Int.zero_sub]
  rw [nearest] at hsecond
  simp only [roundWithAccuracy, shiftToTargetExponent_scaled hm, hsecond]
  exact dif_neg (Nat.ne_of_gt hpos)

/-- The rank of the double that is nearest to an integer. -/
def place (i : Int) : Int := i.sign * magnitude i.natAbs

theorem place_cases (i : Int) :
    i < 0 ∧ place i = -magnitude i.natAbs ∧ 0 < magnitude i.natAbs ∨ i = 0 ∧ place i = 0 ∨
      0 < i ∧ place i = magnitude i.natAbs ∧ 0 < magnitude i.natAbs := by
  unfold place
  rcases Int.lt_trichotomy i 0 with h | rfl | h
  · exact .inl
      ⟨h, by rw [Int.sign_eq_neg_one_of_neg h, Int.neg_one_mul], magnitude_pos (by omega)⟩
  · exact .inr (.inl ⟨rfl, rfl⟩)
  · exact .inr
      (.inr ⟨h, by rw [Int.sign_eq_one_of_pos h, Int.one_mul], magnitude_pos (by omega)⟩)

theorem place_mono (h : i ≤ j) : place i ≤ place j := by
  have hup : 0 < i.natAbs → i.natAbs ≤ j.natAbs → magnitude i.natAbs ≤ magnitude j.natAbs :=
    magnitude_mono
  have hdown : 0 < j.natAbs → j.natAbs ≤ i.natAbs →
    magnitude j.natAbs ≤ magnitude i.natAbs := magnitude_mono
  have hi := place_cases i
  have hj := place_cases j
  omega

theorem place_lt (h : i < j) (hi : i.natAbs ≤ 2 ^ 53) (hj : j.natAbs ≤ 2 ^ 53) :
    place i < place j := by
  have hup : 0 < i.natAbs → i.natAbs < j.natAbs → magnitude i.natAbs < magnitude j.natAbs :=
    fun hpos hlt => magnitude_lt hpos hlt hj
  have hdown : 0 < j.natAbs → j.natAbs < i.natAbs → magnitude j.natAbs < magnitude i.natAbs :=
    fun hpos hlt => magnitude_lt hpos hlt hi
  have hi := place_cases i
  have hj := place_cases j
  omega

theorem rank_ofInt (h : i.natAbs ≤ 2 ^ 63) :
    rank (Float.Model.ofInt i).unpack = some (place i) := by
  unfold Float.Model.ofInt UnpackedFloat.ofInt UnpackedFloat.normalize
  rcases place_cases i with ⟨hi, hplace, -⟩ | ⟨rfl, -⟩ | ⟨hi, hplace, -⟩
  · obtain ⟨n, e, hn, hround, hfull, hfitted, hkey⟩ :=
      round_eq (s := .negative) (m := i.natAbs) (by omega) h
    rw [compare_lt_iff_lt.2 hi, show (-i).toNat = i.natAbs by omega, hround, hplace, ← hkey]
    exact congrArg rank (unpack_pack hfitted hfull)
  · rfl
  · obtain ⟨n, e, hn, hround, hfull, hfitted, hkey⟩ :=
      round_eq (s := .positive) (m := i.natAbs) (by omega) h
    rw [compare_gt_iff_gt.2 hi, show i.toNat = i.natAbs by omega, hround, hplace, ← hkey]
    exact congrArg rank (unpack_pack hfitted hfull)

/-- An integer is widened to the double that is nearest to it. -/
theorem rankOf_widen (n : Int64) : rankOf (widen n) = some (place n.toInt) := by
  have hfits := fits_toInt n
  unfold Fits at hfits
  exact rank_ofInt (by omega)

end Rulebook
