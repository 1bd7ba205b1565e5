/-!
Instants count seconds from the start of 1970, with nanoseconds inside the second. A leap second has
no number of its own: it is second `s` with a thousand million nanoseconds or more, and so comes
after all of second `s` and before second `s + 1`.

    ⟨s, 999999999⟩  <  ⟨s, 1000000000⟩  <  ⟨s, 1999999999⟩  <  ⟨s + 1, 0⟩

Lengths of time are whole nanoseconds, of either sign and without bounds.
-/

namespace Rulebook

/-- The nanoseconds of a second. -/
def nanosPerSecond : Nat := 1000000000

/-- A moment: a second, and the nanoseconds since it began. -/
structure Instant where
  second : Int
  nano : Nat
  deriving DecidableEq, Repr

/-- A length of time. -/
structure Length where
  nanos : Int
  deriving DecidableEq, Repr

/-- A number of milliseconds. -/
def Length.ofMillis (ms : Int) : Length := ⟨ms * 1000000⟩

/-- A number that stands for a length counts milliseconds. -/
instance : Coe Int Length := ⟨Length.ofMillis⟩

/-- The same length of time in the other direction. -/
instance : Neg Length := ⟨fun l => ⟨-l.nanos⟩⟩

namespace Instant

/-- Seconds first, then nanoseconds. -/
instance : LE Instant where
  le a b := a.second < b.second ∨ a.second = b.second ∧ a.nano ≤ b.nano

instance (a b : Instant) : Decidable (a ≤ b) :=
  inferInstanceAs (Decidable (a.second < b.second ∨ a.second = b.second ∧ a.nano ≤ b.nano))

/-- The first second of the years from -262143 to 262142, which are those that can be
    represented. -/
def earliest : Int := -8334601228800

/-- The last second. -/
def latest : Int := 8210266876799

/-- Whether an instant lies in those years. -/
def Representable (a : Instant) : Prop := earliest ≤ a.second ∧ a.second ≤ latest

instance (a : Instant) : Decidable a.Representable := inferInstanceAs (Decidable (_ ∧ _))

/-- Whether an instant lies in a leap second. -/
def Leap (a : Instant) : Prop := nanosPerSecond ≤ a.nano

instance (a : Instant) : Decidable a.Leap := inferInstanceAs (Decidable (_ ≤ _))

/-- The instant a number of milliseconds after the start of 1970, if it can be represented. -/
def ofMillis (ms : Int) : Option Instant :=
  let a : Instant := ⟨ms / 1000, (ms % 1000).toNat * 1000000⟩
  if a.Representable then some a else none

/-- Add seconds and nanoseconds, with a carry, to an instant that lies in no leap second. -/
def shift (a : Instant) (seconds nanos : Int) : Instant :=
  let n := a.nano + nanos
  ⟨a.second + seconds + n / nanosPerSecond, (n % nanosPerSecond).toNat⟩

/-- Move by a length of time. A move that stays inside a leap second or ends in the second before it
    counts nanoseconds only; one that leaves it forwards starts from the second that it belongs to,
    one that leaves it backwards from the second after. -/
def move (a : Instant) (l : Length) : Instant :=
  let seconds := l.nanos.tdiv nanosPerSecond
  let nanos := l.nanos.tmod nanosPerSecond
  if a.Leap then
    let plain := a.nano - nanosPerSecond
    if 0 < seconds ∨ 0 < nanos ∧ 2 * (nanosPerSecond : Int) ≤ a.nano + nanos then
      shift ⟨a.second, plain⟩ seconds nanos
    else if seconds < 0 then shift ⟨a.second + 1, plain⟩ seconds nanos
    else ⟨a.second, (a.nano + nanos).toNat⟩
  else shift a seconds nanos

/-- The instant a length of time before, if it can be represented. -/
def before? (a : Instant) (l : Length) : Option Instant :=
  let b := a.move (-l)
  if b.Representable then some b else none

end Instant

end Rulebook
