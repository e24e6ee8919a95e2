import StreamTopology.Number.Word
import Mathlib.Data.Int.ModEq

/-!
# The lowest bits of a word

An integer is narrowed to fewer bits by way of a word of 64: its bits are taken, with a sign or
without, those above the width are masked, and if the type has a sign the highest of the rest is
spread by a shift to the front and back.

Both ways to the bits of an integer lead to its remainder by `2 ^ 64`, of which `2 ^ width` is a
divisor, and the shift to the front and back is an extension of the sign. So the outcome is
congruent to the integer, and its range leaves no choice.

## Main definitions

* `Word.InRange`: the integers of a width, with a sign or without.

## Main results

* `Word.bits?_eq`: the bits of an integer that fits 64 of them.
* `Word.narrow_modEq`, `Word.narrow_inRange`: what narrowing gives.
* `Word.InRange.eq`: no two integers of a range are congruent.
-/

namespace StreamTopology

namespace Word

variable {width : Nat} {unsigned : Bool} {n u v : Int} {word : BitVec 64}

/-- The integers of a width. -/
def InRange (width : Nat) (unsigned : Bool) (u : Int) : Prop :=
  if unsigned then 0 ≤ u ∧ u < 2 ^ width
  else -2 ^ (width - 1) ≤ u ∧ u < 2 ^ (width - 1)

/-! ### The word of an integer -/

/-- Both ways to the bits of an integer lead to its remainder. -/
theorem bits?_eq (hlo : -2 ^ 63 ≤ n) (hhi : n < 2 ^ 64) : bits? n = some (BitVec.ofInt 64 n) := by
  rw [bits?]
  by_cases hsigned : int64Min ≤ n ∧ n ≤ int64Max
  · rw [if_pos hsigned]
  · have hnonneg : 0 ≤ n := by
      by_contra hneg
      exact hsigned ⟨hlo, (not_le.mp hneg).le.trans (by decide)⟩
    have hmax : n ≤ uint64Max := Int.le_sub_one_of_lt hhi
    rw [if_neg hsigned, if_pos ⟨hnonneg, hmax⟩, ← BitVec.ofInt_natCast,
      Int.toNat_of_nonneg hnonneg]

/-! ### Masking -/

theorem toNat_mask (h : width ≤ 64) : (mask width).toNat = 2 ^ width - 1 := by
  have hall : ∀ k < 65, (mask k).toNat = 2 ^ k - 1 := by decide
  exact hall width (by omega)

theorem toNat_and_mask (h : width ≤ 64) :
    (word &&& mask width).toNat = word.toNat % 2 ^ width := by
  rw [BitVec.toNat_and, toNat_mask h, Nat.and_two_pow_sub_one_eq_mod]

/-- What is left under the mask is the remainder of the integer. -/
theorem toNat_ofInt_and_mask (h : width ≤ 64) :
    ((BitVec.ofInt 64 n &&& mask width).toNat : Int) = n % (2 ^ width : Nat) := by
  have hdvd : ((2 ^ width : Nat) : Int) ∣ (2 ^ 64 : Nat) :=
    Int.natCast_dvd_natCast.mpr (Nat.pow_dvd_pow 2 h)
  rw [toNat_and_mask h, BitVec.toNat_ofInt, Int.natCast_emod, Int.toNat_of_nonneg (by omega),
    Int.emod_emod_of_dvd n hdvd]

/-! ### Spreading the sign -/

/-- A shift to the front and back extends the sign of the lowest bits. -/
theorem sshiftRight_shiftLeft (h0 : 0 < width) (h : width ≤ 64) :
    (word <<< (64 - width)).sshiftRight (64 - width) = (word.setWidth width).signExtend 64 := by
  ext i hi
  rw [BitVec.getElem_sshiftRight, BitVec.getElem_signExtend]
  by_cases hw : i < width
  · rw [dif_pos (by omega), dif_pos hw, BitVec.getElem_shiftLeft, BitVec.getElem_setWidth]
    simp [show ¬ 64 - width + i < 64 - width by omega, hi]
  · rw [dif_neg (by omega), dif_neg hw, BitVec.msb_shiftLeft, BitVec.msb_setWidth,
      BitVec.getMsbD_eq_getLsbD, show 64 - 1 - (64 - width) = width - 1 by omega,
      decide_eq_true h0, decide_eq_true (show 64 - width < 64 by omega)]

/-- **The balanced remainder** is what the spread sign makes of the masked word. -/
theorem toInt_sshiftRight_shiftLeft (h0 : 0 < width) (h : width ≤ 64) :
    ((word <<< (64 - width)).sshiftRight (64 - width)).toInt =
      (word.toNat : Int).bmod (2 ^ width) := by
  rw [sshiftRight_shiftLeft h0 h, BitVec.toInt_signExtend_of_le h, BitVec.toInt_setWidth]

/-! ### Narrowing -/

theorem narrow_ofInt (h0 : 0 < width) (h : width ≤ 64) :
    narrow width unsigned (BitVec.ofInt 64 n) =
      if unsigned then n % (2 ^ width : Nat) else n.bmod (2 ^ width) := by
  cases unsigned with
  | true => exact toNat_ofInt_and_mask h
  | false =>
    have hspread : narrow width false (BitVec.ofInt 64 n) =
        ((BitVec.ofInt 64 n &&& mask width).toNat : Int).bmod (2 ^ width) :=
      toInt_sshiftRight_shiftLeft h0 h
    rwa [toNat_ofInt_and_mask h, Int.emod_bmod] at hspread

theorem natCast_two_pow : ((2 ^ width : Nat) : Int) = 2 ^ width := by
  push_cast
  rfl

/-- **Narrowing keeps an integer modulo the width.** -/
theorem narrow_modEq (h0 : 0 < width) (h : width ≤ 64) :
    narrow width unsigned (BitVec.ofInt 64 n) ≡ n [ZMOD 2 ^ width] := by
  rw [narrow_ofInt h0 h, Int.ModEq, ← natCast_two_pow]
  cases unsigned with
  | true => exact Int.emod_emod_of_dvd n dvd_rfl
  | false => exact Int.bmod_emod

/-- Half of a power of two. -/
theorem two_pow_eq (h0 : 0 < width) : (2 : Int) ^ width = 2 * 2 ^ (width - 1) := by
  rw [← pow_succ', Nat.sub_add_cancel h0]

/-- **Narrowing ends in the range of the width.** -/
theorem narrow_inRange (h0 : 0 < width) (h : width ≤ 64) :
    InRange width unsigned (narrow width unsigned (BitVec.ofInt 64 n)) := by
  have hpos : 0 < 2 ^ width := Nat.two_pow_pos width
  rw [narrow_ofInt h0 h, InRange]
  cases unsigned with
  | true =>
    have hlo := Int.emod_nonneg n (Int.natCast_ne_zero.mpr hpos.ne')
    have hhi := Int.emod_lt_of_pos n (Int.natCast_pos.mpr hpos)
    rw [natCast_two_pow] at hlo hhi
    simpa [natCast_two_pow] using And.intro hlo hhi
  | false =>
    have hlo := Int.le_bmod (x := n) hpos
    have hhi := Int.bmod_lt (x := n) hpos
    rw [natCast_two_pow, two_pow_eq h0] at hlo hhi
    simp only [Bool.false_eq_true, if_false]
    omega

/-- **No two integers of a range are congruent.** -/
theorem InRange.eq (h0 : 0 < width) (hu : InRange width unsigned u) (hv : InRange width unsigned v)
    (h : u ≡ v [ZMOD 2 ^ width]) : u = v := by
  have hhalf := two_pow_eq h0
  have hdist : |v - u| < 2 ^ width := by
    cases unsigned with
    | true =>
      simp only [InRange, if_true] at hu hv
      exact abs_lt.mpr ⟨by omega, by omega⟩
    | false =>
      simp only [InRange, Bool.false_eq_true, if_false] at hu hv
      exact abs_lt.mpr ⟨by omega, by omega⟩
  have hzero := Int.eq_zero_of_abs_lt_dvd h.dvd hdist
  omega

end Word

end StreamTopology
