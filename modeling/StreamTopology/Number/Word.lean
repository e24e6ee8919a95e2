/-!
# Machine words

The ends of the ranges of integers that fit a machine word, the nearest integer in a range, and the
integers that the lowest bits of a word stand for.
-/

namespace StreamTopology

namespace Word

/-- The least integer of 64 bits with a sign. -/
abbrev int64Min : Int := -0x8000000000000000

/-- The greatest integer of 64 bits with a sign. -/
abbrev int64Max : Int := 0x7FFFFFFFFFFFFFFF

/-- The greatest integer of 32 bits without a sign. -/
abbrev uint32Max : Int := 0xFFFFFFFF

/-- The greatest integer of 64 bits without a sign. -/
abbrev uint64Max : Int := 0xFFFFFFFFFFFFFFFF

/-- The nearest integer of 64 bits with a sign. -/
def clampInt64 (n : Int) : Int := max int64Min (min int64Max n)

/-- The 64 bits of an integer that fits them, with a sign or, failing that, without one. -/
def bits? (n : Int) : Option (BitVec 64) :=
  if int64Min ≤ n ∧ n ≤ int64Max then some (BitVec.ofInt 64 n)
  else if 0 ≤ n ∧ n ≤ uint64Max then some (BitVec.ofNat 64 n.toNat)
  else none

/-- Ones in as many of the lowest places. -/
def mask (width : Nat) : BitVec 64 :=
  if width = 64 then BitVec.allOnes 64 else (1#64 <<< width) - 1#64

/-- The integer that the lowest bits of a word stand for. A sign among them is spread by a shift to
the front and back. -/
def narrow (width : Nat) (unsigned : Bool) (word : BitVec 64) : Int :=
  let masked := word &&& mask width
  if unsigned then masked.toNat
  else ((masked <<< (64 - width)).sshiftRight (64 - width)).toInt

end Word

end StreamTopology
