import StreamTopology.Number.Decimal

/-!
# Lengths of time

A length of time is a number of nanoseconds. It is written in the largest unit of which it has at
least one, from nanoseconds to seconds, with no more digits after the point than it needs.
-/

namespace StreamTopology

namespace Duration

/-- A second. -/
def second : Nat := 1000000000

/-- A millisecond. -/
def millisecond : Nat := 1000000

/-- A microsecond. -/
def microsecond : Nat := 1000

/-- What stands after the point for a part of a unit that is counted with `width` digits: the point
and the digits up to the last that is not zero, or nothing. -/
def fractionChars (width part : Nat) : List Char :=
  let digits := Nat.toDigits 10 part
  let padded := List.replicate (width - digits.length) '0' ++ digits
  match (padded.reverse.dropWhile fun c => c == '0').reverse with
  | [] => []
  | ds => '.' :: ds

/-- The text of a length of time in a unit, parts of which are counted with `width` digits. -/
def inUnit (name : String) (unit width nanoseconds : Nat) : String :=
  Decimal.intText (nanoseconds / unit : Nat)
    ++ String.ofList (fractionChars width (nanoseconds % unit)) ++ name

/-- The text of a length of time. -/
def text (nanoseconds : Nat) : String :=
  if second ≤ nanoseconds then inUnit "s" second 9 nanoseconds
  else if millisecond ≤ nanoseconds then inUnit "ms" millisecond 6 nanoseconds
  else if microsecond ≤ nanoseconds then inUnit "µs" microsecond 3 nanoseconds
  else inUnit "ns" 1 0 nanoseconds

example : [0, 2500, 5000000, 60000000010].map text = ["0ns", "2.5µs", "5ms", "60.00000001s"] := by
  decide +kernel

end Duration

end StreamTopology
