import StreamTopology.Number.Ieee

/-!
# Shortest decimal digits

The fewest decimal digits that read back as a given floating point number, and of those the
nearest to it.

A finite number is `4 · m` quarter units of its last place, and the reals that round to it are an
interval around it, ends included when `m` is even. `Shortest.search` walks down the decimal grids
`10 ^ j` until one of the two grid points next to the number lies in that interval.
-/

namespace StreamTopology

/-- A positive decimal in scientific form: the first digit is followed by the point. -/
structure Scientific where
  digits : List Nat
  exponent : Int
  deriving DecidableEq, Repr

namespace Shortest

/-- Which of two equally near decimals is taken. -/
inductive Tie where
  | toEven
  | upward
  deriving DecidableEq, Repr

/-- The number as a count of quarter units of its last place, with the distances to the two ends
of the interval of reals that round to it. -/
structure Interval where
  value : Nat
  below : Nat
  above : Nat
  /-- The power of two that one count stands for. -/
  unit : Int
  /-- The ends round to the number as well. -/
  closed : Bool
  deriving DecidableEq, Repr

/-- The interval of `m · 2 ^ e`. Below a power of two the neighbours are nearer. -/
def Interval.of (f : Ieee.Format) (m : Nat) (e : Int) : Interval where
  value := 4 * m
  below := if m = 1 <<< f.fractionBits ∧ f.minExponent < e then 1 else 2
  above := 2
  unit := e - 2
  closed := m % 2 == 0

/-- Every interval ends below this power of ten. -/
def Interval.top (v : Interval) : Int :=
  ((v.value.log2 : Int) + 2 + v.unit) * 30103 / 100000 + 2

/-- The grid of `10 ^ this` holds the number itself. -/
def Interval.bottom (v : Interval) : Int := min 0 v.unit

/-- The point of the grid `10 ^ j` to write the number with, if one next to it is in its interval:
the nearer of two, by `tie` when both are equally near. -/
def Interval.gridPoint? (tie : Tie) (v : Interval) (j : Int) : Option Nat :=
  let step := Nat.pow 10 j.toNat <<< (-v.unit).toNat
  let scale := Nat.pow 10 (-j).toNat <<< v.unit.toNat
  let lower := v.value * scale / step
  let rest := v.value * scale % step
  let inside (distance room : Nat) : Bool :=
    distance < room || (v.closed && distance == room)
  let down := inside rest (v.below * scale)
  let up := inside (step - rest) (v.above * scale)
  let preferUp := 2 * rest > step || (2 * rest == step && match tie with
    | .upward => true
    | .toEven => lower % 2 == 1)
  if up && (!down || preferUp) then some (lower + 1)
  else if down then some lower
  else none

/-- The first grid, going down from `10 ^ j`, with a point in the interval, and that point. -/
def Interval.search (tie : Tie) (v : Interval) : Nat → Int → Nat × Int
  | 0, j => (v.value, j)
  | fuel + 1, j =>
    match v.gridPoint? tie j with
    | some point => (point, j)
    | none => v.search tie fuel (j - 1)

/-- The shortest digits of the positive number `m · 2 ^ e`. -/
def digits (tie : Tie) (f : Ieee.Format) (m : Nat) (e : Int) : Scientific :=
  let v := Interval.of f m e
  let found := v.search tie (v.top - v.bottom + 1).toNat v.top
  let written := (Nat.toDigits 10 found.1).map fun c => c.toNat - '0'.toNat
  { digits := written, exponent := found.2 + written.length - 1 }

end Shortest

end StreamTopology
