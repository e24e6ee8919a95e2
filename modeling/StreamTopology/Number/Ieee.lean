import StreamTopology.Number.Word

/-!
# Binary floating point

The interchange formats of IEEE 754 with a sign bit, a biased exponent and a stored fraction,
handled by exact arithmetic on natural numbers.

## Main definitions

* `Ieee.Format`, with `Ieee.binary64` and `Ieee.binary32`.
* `Ieee.Format.decode`: what a bit pattern stands for.
* `Ieee.Format.ofRatio`: the pattern nearest to a quotient, ties to the even significand,
  infinity beyond the largest finite value.
* `Binary64` and `Binary32`: bit patterns of the two formats.
-/

namespace StreamTopology

namespace Ieee

/-- A binary interchange format, by the widths of its fields. -/
structure Format where
  /-- Stored fraction bits. -/
  fractionBits : Nat
  /-- Exponent bits. -/
  exponentBits : Nat
  deriving DecidableEq, Repr

/-- Double precision. -/
def binary64 : Format := ⟨52, 11⟩

/-- Single precision. -/
def binary32 : Format := ⟨23, 8⟩

/-- What a bit pattern stands for: not a number, an infinity, or `± significand · 2 ^ exponent`. -/
inductive Datum where
  | nan
  | infinite (negative : Bool)
  | finite (negative : Bool) (significand : Nat) (exponent : Int)
  deriving DecidableEq, Repr

namespace Format

/-- The biased exponent of infinities and of what is not a number. -/
def topExponent (f : Format) : Nat := 1 <<< f.exponentBits - 1

/-- The exponent of the last place of the smallest values. -/
def minExponent (f : Format) : Int :=
  2 - (1 <<< (f.exponentBits - 1) : Nat) - f.fractionBits

/-- The pattern of positive infinity. -/
def infinityBits (f : Format) : Nat := f.topExponent <<< f.fractionBits

/-- The pattern that holds the sign bit alone. -/
def signBit (f : Format) : Nat := 1 <<< (f.fractionBits + f.exponentBits)

/-- The bit pattern with the given sign and magnitude. -/
def withSign (f : Format) (negative : Bool) (magnitude : Nat) : Nat :=
  if negative then f.signBit + magnitude else magnitude

/-- What a bit pattern stands for. -/
def decode (f : Format) (bits : Nat) : Datum :=
  let negative := bits / f.signBit % 2 == 1
  let biased := bits >>> f.fractionBits % 1 <<< f.exponentBits
  let fraction := bits % 1 <<< f.fractionBits
  if biased = f.topExponent then
    if fraction = 0 then .infinite negative else .nan
  else if biased = 0 then .finite negative fraction f.minExponent
  else .finite negative (1 <<< f.fractionBits + fraction) (f.minExponent + biased - 1)

/-- The integer nearest to `num / den`, ties to even. -/
def nearestEven (num den : Nat) : Nat :=
  let quotient := num / den
  let rest := num % den
  if 2 * rest > den || (2 * rest == den && quotient % 2 == 1) then quotient + 1 else quotient

/-- `num / den` divided by `2 ^ exponent`, again as a quotient. -/
def scaleDown (num den : Nat) (exponent : Int) : Nat × Nat :=
  (num <<< (-exponent).toNat, den <<< exponent.toNat)

/-- The exponent of the last place of `num / den`: the least one, not below `minExponent`, that
leaves fewer than `2 ^ (fractionBits + 1)` units. -/
def lastPlace (f : Format) (num den : Nat) : Int :=
  let guess := max f.minExponent ((num.log2 : Int) - den.log2 - (f.fractionBits + 1))
  let scaled := scaleDown num den guess
  if scaled.2 <<< (f.fractionBits + 1) ≤ scaled.1 then guess + 1 else guess

/-- The pattern, without its sign, nearest to `num / den`. The biased exponent and the fraction
are one number, so a significand that rounds up to the next power of two carries by itself. -/
def magnitudeOfRatio (f : Format) (num den : Nat) : Nat :=
  if num = 0 then 0
  else
    let exponent := f.lastPlace num den
    let scaled := scaleDown num den exponent
    let bits := (exponent - f.minExponent).toNat <<< f.fractionBits
      + nearestEven scaled.1 scaled.2
    min bits f.infinityBits

/-- The pattern nearest to `± num / den`. -/
def ofRatio (f : Format) (negative : Bool) (num den : Nat) : Nat :=
  f.withSign negative (f.magnitudeOfRatio num den)

/-- The pattern nearest to `± coefficient · 10 ^ exponent`. Exponents far outside the format's
range are settled without computing the power of ten. -/
def ofDecimal (f : Format) (negative : Bool) (coefficient : Nat) (exponent : Int) : Nat :=
  let places := (Nat.toDigits 10 coefficient).length + exponent
  if coefficient = 0 || places < -400 then f.withSign negative 0
  else if places > 400 then f.withSign negative f.infinityBits
  else
    f.ofRatio negative (coefficient * Nat.pow 10 exponent.toNat) (Nat.pow 10 (-exponent).toNat)

end Format

end Ieee

/-- A double precision number, kept as its bit pattern. -/
structure Binary64 where
  bits : UInt64
  deriving DecidableEq, Repr, Inhabited

/-- A single precision number, kept as its bit pattern. -/
structure Binary32 where
  bits : UInt32
  deriving DecidableEq, Repr, Inhabited

namespace Binary64

/-- What the pattern stands for. -/
def decode (x : Binary64) : Ieee.Datum := Ieee.binary64.decode x.bits.toNat

/-- The number nearest to `± num / den`. -/
def ofRatio (negative : Bool) (num den : Nat) : Binary64 :=
  ⟨(Ieee.binary64.ofRatio negative num den).toUInt64⟩

/-- The number nearest to `± coefficient · 10 ^ exponent`. -/
def ofDecimal (negative : Bool) (coefficient : Nat) (exponent : Int) : Binary64 :=
  ⟨(Ieee.binary64.ofDecimal negative coefficient exponent).toUInt64⟩

/-- The number nearest to an integer. -/
def ofInt (n : Int) : Binary64 := ofRatio (n < 0) n.natAbs 1

/-- An infinity. -/
def infinity (negative : Bool) : Binary64 :=
  ⟨(Ieee.binary64.withSign negative Ieee.binary64.infinityBits).toUInt64⟩

/-- The quiet pattern that is not a number. -/
def nan : Binary64 := ⟨0x7FF8000000000000⟩

/-- Neither an infinity nor outside the numbers. -/
def isFinite (x : Binary64) : Bool :=
  match x.decode with
  | .finite _ _ _ => true
  | _ => false

/-- The quotient by a positive integer, rounded once. -/
def divideBy (x : Binary64) (divisor : Nat) : Binary64 :=
  match x.decode with
  | .finite negative m e =>
    ofRatio negative (m <<< e.toNat) (divisor <<< (-e).toNat)
  | _ => x

/-- The integer part, kept within the signed 64-bit range; zero for what is not a number. -/
def truncate (x : Binary64) : Int :=
  match x.decode with
  | .nan => 0
  | .infinite negative => if negative then Word.int64Min else Word.int64Max
  | .finite negative m e =>
    let magnitude : Int := (m <<< e.toNat >>> (-e).toNat : Nat)
    Word.clampInt64 (if negative then -magnitude else magnitude)

/-- The nearest single precision number. -/
def toBinary32 (x : Binary64) : Binary32 :=
  match x.decode with
  | .nan => ⟨0x7FC00000⟩
  | .infinite negative =>
    ⟨(Ieee.binary32.withSign negative Ieee.binary32.infinityBits).toUInt32⟩
  | .finite negative m e =>
    ⟨(Ieee.binary32.ofRatio negative (m <<< e.toNat) (1 <<< (-e).toNat)).toUInt32⟩

end Binary64

/-- What the pattern stands for. -/
def Binary32.decode (x : Binary32) : Ieee.Datum := Ieee.binary32.decode x.bits.toNat

end StreamTopology
