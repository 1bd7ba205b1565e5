import Rulebook.Lots
import Rulebook.Outcome

/-!
A lottery draws winners from a list in the context and writes them back. A candidate is a map or an
object whose time field holds milliseconds since 1970 or a timestamp; without a time it is never
drawn. If any candidate's time cannot be read, the lottery fails at the first such candidate and
writes nothing, however many winners are asked for.

    candidates missing or null       the result is the empty list
    candidates some other value      a fault at the path of the candidates
    candidates [c₀, c₁, …]           a fault at `path[i]`, or at most k of those in the window
-/

namespace Rulebook

/-- The window of a lottery: fixed, or ending whenever the lottery runs. -/
inductive Period where
  | fixed (w : Window)
  | trailing (length : Length)
  deriving DecidableEq, Repr

/-- The window in force at an instant. -/
def Period.window (now : Instant) : Period → Window
  | .fixed w => w
  | .trailing length => .trailing length now

/-- Where the candidates are and the winners go, how many there are, and how they are drawn. -/
structure Lottery where
  name : String := "lottery"
  candidates : String
  result : String
  winners : Nat
  timeField : String := "purchaseTime"
  period : Period := .fixed .unbounded
  lots : Lots

namespace Lottery

/-- What stands in the time field: a field of a map, a field or else a call of an object. -/
def rawTime (l : Lottery) : Value → Except EntryFault (Option Value)
  | .map fs => .ok (Fields.find? l.timeField fs)
  | .object _ _ field call => .ok ((field l.timeField).or (call l.timeField))
  | v => .error (.noRecord v.kind)

/-- The instant that a time field holds, if it is not null. -/
def readTime (l : Lottery) : Value → Except EntryFault (Option Instant)
  | .null => .ok none
  | .int n =>
    match Instant.ofMillis n.toInt with
    | some t => .ok (some t)
    | none => .error (.outOfRange n)
  | .str s =>
    match Instant.ofStamp s with
    | .ok t => .ok (some t)
    | .error e => .error (.badStamp s e)
  | v => .error (.noTime l.timeField v.kind)

/-- The time of a candidate, if it has one. -/
def time (l : Lottery) (v : Value) : Except EntryFault (Option Instant) :=
  match l.rawTime v with
  | .error e => .error e
  | .ok none => .ok none
  | .ok (some raw) => l.readTime raw

/-- The candidates with their times, or the first one whose time cannot be read, where `i`
    candidates have come before. -/
def timed (l : Lottery) (i : Nat) :
    List Value → Except (Nat × EntryFault) (List (Value × Option Instant))
  | [] => .ok []
  | v :: vs =>
    match l.time v with
    | .error e => .error (i, e)
    | .ok t => (timed l (i + 1) vs).map ((v, t) :: ·)

/-- The winners among candidates with times. -/
def draw (l : Lottery) (now : Instant) (vs : List (Value × Option Instant)) : List Value :=
  (l.lots.draw (l.period.window now) Prod.snd l.winners vs).map Prod.fst

/-- Draw, and write the winners; nothing is written if a candidate cannot be read. -/
def run (now : Instant) (l : Lottery) (ctx : Context) : Outcome Unit :=
  match (ctx.get l.candidates).getD .null with
  | .null => .done (ctx.insert l.result (.list [])) ()
  | .list vs =>
    match l.timed 0 vs with
    | .error (i, e) =>
      ⟨ctx, [], .error (.invalidInput l.name (l.candidates ++ "[" ++ toString i ++ "]") e)⟩
    | .ok ts => .done (ctx.insert l.result (.list (l.draw now ts))) ()
  | v => ⟨ctx, [], .error (.invalidInput l.name l.candidates (.noList v.kind))⟩

end Lottery

end Rulebook
