import Rulebook.Instant
import Rulebook.Instant.Calendar
import Rulebook.Number
import Rulebook.Text

/-!
Timestamps, the text form of instants of RFC 3339: a date, a time of day with any number of
decimals, and the offset from universal time.

    2024-02-29T12:30:05.25+01:00       1990-12-31T23:59:60Z       2024-01-01 00:00:00z

Reading goes from left to right, and the first fault is the result; a time of day is looked at as a
whole once its decimals are read, and an offset once the text has ended. Second 60 is a leap second
and keeps its extra second whatever the offset. What is written has no offset, and no decimals,
three, six or nine.
-/

namespace Rulebook

/-- Why a text is no timestamp. -/
inductive StampError where | invalid | range | short | long
  deriving DecidableEq, Repr

/-- The message of a cause. -/
def StampError.message : StampError → String
  | .invalid => "input contains invalid characters"
  | .range => "input is out of range"
  | .short => "premature end of input"
  | .long => "trailing input"

namespace Stamp

/-- Exactly `n` digits. -/
def digits (n : Nat) (cs : List Char) : Except StampError (Nat × List Char) :=
  let ds := cs.take n
  if ds.length = n ∧ ds.all Char.isDigit then .ok (digitsValue ds, cs.drop n) else .error .invalid

/-- One character of a kind. -/
def one (p : Char → Bool) : List Char → Except StampError (List Char)
  | [] => .error .invalid
  | c :: cs => if p c then .ok cs else .error .invalid

/-- One character of a kind, where the text may have ended too early. -/
def next (p : Char → Bool) (cs : List Char) : Except StampError (List Char) :=
  if cs.isEmpty then .error .short else one p cs

/-- Two digits, where the text may have ended too early. -/
def pair (cs : List Char) : Except StampError (Nat × List Char) :=
  if bytes cs < 2 then .error .short else digits 2 cs

/-- Year, month and day, which have to be a date of the calendar. -/
def date (cs : List Char) : Except StampError (Date × List Char) := do
  let (year, cs) ← digits 4 cs
  let cs ← one (· == '-') cs
  let (month, cs) ← digits 2 cs
  let cs ← one (· == '-') cs
  let (day, cs) ← digits 2 cs
  let d : Date := ⟨year, month, day⟩
  if d.Valid then .ok (d, cs) else .error .range

/-- The decimals of a second as nanoseconds; those after the ninth are passed over. -/
def decimals : List Char → Except StampError (Nat × List Char)
  | '.' :: cs =>
    let ds := cs.takeWhile Char.isDigit
    if cs.isEmpty then .error .short
    else if ds.isEmpty then .error .invalid
    else .ok (digitsValue (ds.take 9) * Nat.pow 10 (9 - ds.length), cs.dropWhile Char.isDigit)
  | cs => .ok (0, cs)

/-- The time of day as its second and nanosecond. -/
def time (cs : List Char) : Except StampError (Nat × Nat × List Char) := do
  let (hour, cs) ← digits 2 cs
  let cs ← one (· == ':') cs
  let (minute, cs) ← digits 2 cs
  let cs ← one (· == ':') cs
  let (second, cs) ← digits 2 cs
  let (nano, cs) ← decimals cs
  let (second, nano) := if second = 60 then (59, nano + nanosPerSecond) else (second, nano)
  if 23 < hour ∨ 59 < minute ∨ 59 < second then .error .range
  else .ok (hour * 3600 + minute * 60 + second, nano, cs)

/-- The minutes of an offset, below sixty. -/
def offsetMinutes (cs : List Char) : Except StampError (Nat × List Char) := do
  let (minutes, cs) ← pair cs
  if 59 < minutes then .error .range else .ok (minutes, cs)

/-- The offset from universal time in seconds. -/
def offset : List Char → Except StampError (Int × List Char)
  | [] => .error .short
  | c :: cs =>
    if c == 'Z' || c == 'z' then .ok (0, cs)
    else if c == '+' || c == '-' || c == '\u2212' then do
      let (hours, cs) ← pair cs
      let cs ← next (· == ':') cs
      let (minutes, cs) ← offsetMinutes cs
      let seconds : Int := hours * 3600 + minutes * 60
      .ok (if c == '+' then seconds else -seconds, cs)
    else .error .invalid

/-- The instant that a text names. -/
def read (cs : List Char) : Except StampError Instant := do
  if bytes cs < 19 then .error .short
  else
    let (day, cs) ← date cs
    let cs ← one (fun c => c == 'T' || c == 't' || c == ' ') cs
    let (second, nano, cs) ← time cs
    let (seconds, cs) ← offset cs
    if !cs.isEmpty then .error .long
    else if 86400 ≤ seconds.natAbs then .error .range
    else .ok ⟨day.number * 86400 + second - seconds, nano⟩

/-- The digits of a number, with zeros before them up to a width. -/
def padded (width n : Nat) : String :=
  let ds := Nat.toDigits 10 n
  String.ofList (List.replicate (width - ds.length) '0' ++ ds)

/-- A year in four digits, with a sign if it needs more or is negative. -/
def yearText (y : Int) : String :=
  if 0 ≤ y ∧ y ≤ 9999 then padded 4 y.toNat
  else (if y < 0 then "-" else "+") ++ padded 4 y.natAbs

/-- The fewest decimals of none, three, six and nine. -/
def decimalsText (nano : Nat) : String :=
  if nano = 0 then ""
  else if nano % 1000000 = 0 then "." ++ padded 3 (nano / 1000000)
  else if nano % 1000 = 0 then "." ++ padded 6 (nano / 1000)
  else "." ++ padded 9 nano

end Stamp

/-- The instant that a timestamp names. -/
def Instant.ofStamp (s : String) : Except StampError Instant := Stamp.read s.toList

/-- An instant as a timestamp of universal time; a leap second shows as the second after. -/
def Instant.stamp (a : Instant) : String :=
  let d := Date.ofNumber (a.second / 86400)
  let s := (a.second % 86400).toNat
  let (extra, nano) := if a.Leap then (1, a.nano - nanosPerSecond) else (0, a.nano)
  Stamp.yearText d.year ++ "-" ++ Stamp.padded 2 d.month ++ "-" ++ Stamp.padded 2 d.day ++ "T" ++
    Stamp.padded 2 (s / 3600) ++ ":" ++ Stamp.padded 2 (s / 60 % 60) ++ ":" ++
    Stamp.padded 2 (s % 60 + extra) ++ Stamp.decimalsText nano ++ "+00:00"

end Rulebook
