import Rulebook.Instant.Stamp

/-!
Windows of time take in both their ends, and either end may be open.

    between a b   [a, b]        since a   [a, *]        until b   [*, b]        unbounded   [*, *]

A trailing window ends now and starts a length of time earlier, or has no start if that instant
cannot be represented.
-/

namespace Rulebook

/-- A stretch of time with its ends, where there are any. -/
structure Window where
  start : Option Instant
  stop : Option Instant
  deriving DecidableEq, Repr

namespace Window

/-- From one instant to another; nothing, if the second comes first. -/
def between (a b : Instant) : Window := ⟨some a, some b⟩

/-- Everything from an instant on. -/
def since (a : Instant) : Window := ⟨some a, none⟩

/-- Everything up to an instant. -/
def upTo (b : Instant) : Window := ⟨none, some b⟩

/-- All of time. -/
def unbounded : Window := ⟨none, none⟩

/-- The last stretch of some length up to `now`. -/
def trailing (length : Length) (now : Instant) : Window := ⟨now.before? length, some now⟩

/-- Whether an instant lies in the window. -/
def contains (w : Window) (t : Instant) : Bool := w.start.all (· ≤ t) && w.stop.all (t ≤ ·)

/-- A window as it is shown. -/
def text (w : Window) : String :=
  let bound (b : Option Instant) := (b.map Instant.stamp).getD "*"
  "[" ++ bound w.start ++ ", " ++ bound w.stop ++ "]"

end Window

end Rulebook
