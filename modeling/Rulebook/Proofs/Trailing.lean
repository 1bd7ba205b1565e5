import Rulebook.Window

/-!
What a trailing window takes in. Outside leap seconds an instant is one number of nanoseconds, moves
add to it, and the order is that of the numbers:

    total ⟨s, n⟩ = s * 1000000000 + n

A window that trails by some length thus takes in the instants between `now - length` and now. If
its start cannot be represented, it has none. That costs nothing where the start is too early, as
nothing that can be represented lies before it. But with a negative length the start lies behind
now, and may be too late:

    length > 0    start |-----| now      the stretch
    length > 0    * <---------| now      too early: all of it can be taken in
    length < 0      now |  | start       nothing
    length < 0    * <---| now            too late: nothing should be, all up to now is
-/

namespace Rulebook

namespace Instant

variable {a b t : Instant} {l : Length}

/-! ### Instants as numbers -/

/-- The nanoseconds since 1970 began. -/
def total (a : Instant) : Int := a.second * nanosPerSecond + a.nano

/-- The nanoseconds of the earliest instant. -/
def earliestTotal : Int := earliest * nanosPerSecond

/-- The nanoseconds of the last instant before the end of the latest second. -/
def latestTotal : Int := latest * nanosPerSecond + (nanosPerSecond - 1)

theorem le_def :
    a ≤ b ↔ a.second < b.second ∨ a.second = b.second ∧ a.nano ≤ b.nano := Iff.rfl

theorem nano_lt (h : ¬ a.Leap) : a.nano < 1000000000 := Nat.lt_of_not_le h

theorem le_iff_total_le (ha : ¬ a.Leap) (hb : ¬ b.Leap) : a ≤ b ↔ a.total ≤ b.total := by
  have hna := nano_lt ha
  have hnb := nano_lt hb
  rw [le_def, total, total, nanosPerSecond]
  omega

theorem representable_iff (ha : ¬ a.Leap) :
    a.Representable ↔ earliestTotal ≤ a.total ∧ a.total ≤ latestTotal := by
  have hna := nano_lt ha
  rw [Representable, total, earliestTotal, latestTotal, earliest, latest, nanosPerSecond]
  omega

/-! ### Moves -/

theorem not_leap_shift {seconds nanos : Int} : ¬ (a.shift seconds nanos).Leap := by
  have h := Int.emod_lt_of_pos (a.nano + nanos) (show (0 : Int) < 1000000000 by decide)
  simp only [Leap, shift, nanosPerSecond]
  omega

theorem total_shift (a : Instant) (seconds nanos : Int) :
    (a.shift seconds nanos).total = a.total + seconds * nanosPerSecond + nanos := by
  have hdiv := Int.mul_ediv_add_emod (a.nano + nanos) nanosPerSecond
  have hmod := Int.emod_nonneg (a.nano + nanos) (show (nanosPerSecond : Int) ≠ 0 by decide)
  simp only [total, shift, nanosPerSecond] at *
  omega

theorem move_of_not_leap (ha : ¬ a.Leap) :
    a.move l = a.shift (l.nanos.tdiv nanosPerSecond) (l.nanos.tmod nanosPerSecond) := if_neg ha

theorem total_move (ha : ¬ a.Leap) : (a.move l).total = a.total + l.nanos := by
  have hl := Int.mul_tdiv_add_tmod l.nanos nanosPerSecond
  rw [move_of_not_leap ha, total_shift, Int.add_assoc, Int.mul_comm, hl]

theorem not_leap_move (ha : ¬ a.Leap) : ¬ (a.move l).Leap := by
  rw [move_of_not_leap ha]
  exact not_leap_shift

theorem before?_eq_none_iff (ha : ¬ a.Leap) :
    a.before? l = none ↔
      a.total - l.nanos < earliestTotal ∨ latestTotal < a.total - l.nanos := by
  have htotal : (a.move (-l)).total = a.total - l.nanos := total_move ha
  simp only [before?]
  rw [ite_eq_right_iff, representable_iff (not_leap_move ha), htotal]
  simp only [reduceCtorEq, imp_false]
  omega

theorem of_before?_eq_some (ha : ¬ a.Leap) (h : a.before? l = some b) :
    ¬ b.Leap ∧ b.total = a.total - l.nanos := by
  simp only [before?] at h
  split at h
  · cases h
    exact ⟨not_leap_move ha, total_move ha⟩
  · cases h

end Instant

/-! ### Trailing windows -/

namespace Window

open Instant

variable {length : Length} {now t : Instant}

/-- The start of a trailing window lets in what is not before it, and everything if it
    is too late. -/
theorem start_le_iff (hnow : ¬ now.Leap) (ht : ¬ t.Leap) (hr : t.Representable) :
    (now.before? length).all (· ≤ t) = true ↔
      now.total - length.nanos ≤ t.total ∨ latestTotal < now.total - length.nanos := by
  obtain ⟨hfirst, hlast⟩ := (representable_iff ht).1 hr
  cases hstart : now.before? length with
  | none =>
    rw [before?_eq_none_iff hnow] at hstart
    simp only [Option.all_none, true_iff]
    omega
  | some start =>
    have hsome : now.before? length ≠ none := by simp [hstart]
    obtain ⟨hleap, htotal⟩ := of_before?_eq_some hnow hstart
    rw [ne_eq, before?_eq_none_iff hnow] at hsome
    simp only [Option.all_some, decide_eq_true_eq]
    rw [le_iff_total_le hleap ht, htotal]
    omega

theorem contains_trailing_iff (hnow : ¬ now.Leap) (ht : ¬ t.Leap) :
    (trailing length now).contains t = true ↔
      (now.before? length).all (· ≤ t) = true ∧ t.total ≤ now.total := by
  rw [contains, Bool.and_eq_true, ← le_iff_total_le ht hnow]
  simp only [trailing, Option.all_some, decide_eq_true_eq]

/-- A window of some length or none is the stretch up to now, since it does not start too late. -/
theorem contains_trailing_of_nonneg (hl : 0 ≤ length.nanos) (hnow : ¬ now.Leap)
    (hrnow : now.Representable) (ht : ¬ t.Leap) (hr : t.Representable) :
    (trailing length now).contains t = true ↔
      now.total - length.nanos ≤ t.total ∧ t.total ≤ now.total := by
  obtain ⟨-, hlast⟩ := (representable_iff hnow).1 hrnow
  rw [contains_trailing_iff hnow ht, start_le_iff hnow ht hr]
  omega

/-- TRAILING: of the instants that can be represented, a trailing window takes in those that are
    not before its start and not after now, however long it is. If the start is too late, it
    takes in all up to now. -/
theorem contains_trailing (length : Length) (hnow : ¬ now.Leap) (ht : ¬ t.Leap)
    (hr : t.Representable) :
    (trailing length now).contains t = true ↔
      (now.total - length.nanos ≤ t.total ∨ latestTotal < now.total - length.nanos) ∧
        t.total ≤ now.total := by
  rw [contains_trailing_iff hnow ht, start_le_iff hnow ht hr]

/-- An instant at the start, in the second before. -/
theorem contains_trailing_start :
    let now : Instant := ⟨946684799, 500000000⟩
    let t : Instant := ⟨946684798, 999999999⟩
    let length : Length := ⟨500000001⟩
    ¬ now.Leap ∧ ¬ t.Leap ∧ t.Representable ∧ (trailing length now).contains t = true := by
  intro now t length
  have hnow : ¬ now.Leap := by decide
  have ht : ¬ t.Leap := by decide
  have hr : t.Representable := by decide
  exact ⟨hnow, ht, hr, (contains_trailing length hnow ht hr).2 (by decide)⟩

/-- A window with nothing in it, as it would have to start long after now, takes in now. -/
theorem contains_trailing_late :
    let now : Instant := ⟨0, 0⟩
    let length := Length.ofMillis (-9223372036854775807)
    ¬ now.Leap ∧ now.Representable ∧ (trailing length now).contains now = true ∧
      ¬ (now.total - length.nanos ≤ now.total ∧ now.total ≤ now.total) := by
  decide

end Window

end Rulebook
