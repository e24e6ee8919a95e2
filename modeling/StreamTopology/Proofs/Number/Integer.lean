import StreamTopology.Number.Decimal
import Mathlib.Data.Int.Basic

/-!
# The text of an integer

An integer is spelled by digits with a sign or none before them, and exactly such texts are read as
integers. Its own text is one of these, so it is read back, and different integers have different
texts.

## Main definitions

* `Decimal.Digits`: the texts of digits alone.
* `Decimal.Spells`: the texts of an integer.

## Main results

* `Decimal.parseInt?_eq_some_iff`: what is read as an integer.
* `Decimal.parseInt?_intChars`: an integer is read back.
* `Decimal.intText_injective`, `Decimal.intText_eq_toString`
* `Decimal.numbered_injective`: names that are numbered are told apart.
-/

namespace StreamTopology

namespace Decimal

variable {c : Char} {cs ds : List Char} {n : Int}

/-- All characters are decimal digits. -/
def Digits (cs : List Char) : Prop := ∀ c ∈ cs, c.isDigit = true

theorem digits_toDigits {n : Nat} : Digits (Nat.toDigits 10 n) := fun _ hc =>
  Nat.isDigit_of_mem_toDigits (by decide) (by decide) hc

/-- The texts of an integer: at least one digit, with a sign or none before the digits. -/
inductive Spells : List Char → Int → Prop
  | plain {ds : List Char} : Digits ds → ds ≠ [] → Spells ds (ofDigitChars ds)
  | plus {ds : List Char} : Digits ds → ds ≠ [] → Spells ('+' :: ds) (ofDigitChars ds)
  | minus {ds : List Char} : Digits ds → ds ≠ [] → Spells ('-' :: ds) (-(ofDigitChars ds : Int))

/-! ### Reading -/

/-- A digit at the front is no sign. -/
theorem splitSign_of_isDigit (hc : c.isDigit = true) : splitSign (c :: cs) = (false, c :: cs) := by
  have hminus : c ≠ '-' := by
    rintro rfl
    exact absurd hc (by decide)
  have hplus : c ≠ '+' := by
    rintro rfl
    exact absurd hc (by decide)
  simp [splitSign, hminus, hplus]

theorem parseNat?_eq_some_iff {m : Nat} :
    parseNat? ds = some m ↔ Digits ds ∧ ds ≠ [] ∧ m = ofDigitChars ds := by
  simp only [parseNat?, Digits, List.isEmpty_iff, Bool.or_eq_true, Bool.not_eq_true',
    ite_eq_iff, reduceCtorEq, and_false, false_or, not_or, Option.some.injEq, List.all_eq_true,
    Bool.not_eq_false]
  constructor
  · rintro ⟨⟨hne, hall⟩, rfl⟩
    exact ⟨hall, hne, rfl⟩
  · rintro ⟨hall, hne, rfl⟩
    exact ⟨⟨hne, hall⟩, rfl⟩

theorem parseInt?_eq {negative : Bool} (h : splitSign cs = (negative, ds)) :
    parseInt? cs =
      Option.map (fun m : Nat => if negative then -(m : Int) else m) (parseNat? ds) := by
  rw [parseInt?, h]
  dsimp only
  cases parseNat? ds <;> rfl

/-- **Exactly the texts of an integer are read as it.** -/
theorem parseInt?_eq_some_iff : parseInt? cs = some n ↔ Spells cs n := by
  constructor
  · intro h
    obtain ⟨negative, ds, hsign⟩ : ∃ negative ds, splitSign cs = (negative, ds) := ⟨_, _, rfl⟩
    rw [parseInt?_eq hsign, Option.map_eq_some_iff] at h
    obtain ⟨m, hm, rfl⟩ := h
    obtain ⟨hd, hne, rfl⟩ := parseNat?_eq_some_iff.mp hm
    unfold splitSign at hsign
    split at hsign <;> cases hsign
    · exact Spells.minus hd hne
    · exact Spells.plus hd hne
    · exact Spells.plain hd hne
  · rintro (@⟨ds, hd, hne⟩ | @⟨ds, hd, hne⟩ | @⟨ds, hd, hne⟩)
    · obtain ⟨c, cs, rfl⟩ := List.exists_cons_of_ne_nil hne
      rw [parseInt?_eq (splitSign_of_isDigit (hd c List.mem_cons_self)),
        parseNat?_eq_some_iff.mpr ⟨hd, hne, rfl⟩]
      rfl
    · have hsign : splitSign ('+' :: ds) = (false, ds) := rfl
      rw [parseInt?_eq hsign, parseNat?_eq_some_iff.mpr ⟨hd, hne, rfl⟩]
      rfl
    · have hsign : splitSign ('-' :: ds) = (true, ds) := rfl
      rw [parseInt?_eq hsign, parseNat?_eq_some_iff.mpr ⟨hd, hne, rfl⟩]
      rfl

/-! ### Writing -/

theorem spells_intChars : Spells (intChars n) n := by
  have hvalue : ofDigitChars (Nat.toDigits 10 n.natAbs) = n.natAbs :=
    Nat.ofDigitChars_ten_toDigits
  rw [intChars]
  split
  · have hminus := Spells.minus (digits_toDigits (n := n.natAbs)) Nat.toDigits_ne_nil
    rwa [hvalue, show (-(n.natAbs : Int)) = n by omega] at hminus
  · have hplain := Spells.plain (digits_toDigits (n := n.natAbs)) Nat.toDigits_ne_nil
    rwa [hvalue, show (n.natAbs : Int) = n by omega] at hplain

/-- **An integer is read back from its text.** -/
theorem parseInt?_intChars : parseInt? (intChars n) = some n :=
  parseInt?_eq_some_iff.mpr spells_intChars

theorem intText_injective {m n : Int} (h : intText m = intText n) : m = n := by
  have hchars := congrArg parseInt? (String.ofList_injective h)
  rw [parseInt?_intChars, parseInt?_intChars] at hchars
  exact Option.some.inj hchars

/-- **Numbered names**, a number behind what they begin with, differ if their numbers do. -/
theorem numbered_injective (start : String) :
    Function.Injective fun n : Nat => start ++ intText n := fun _ _ h =>
  Int.natCast_inj.mp (intText_injective ((String.append_right_inj start).mp h))

/-- The text of an integer is the usual one. -/
theorem intText_eq_toString : intText n = toString n := by
  cases n with
  | ofNat n => rfl
  | negSucc n =>
    rw [intText, intChars, if_pos (Int.negSucc_lt_zero n)]
    exact String.ofList_cons

end Decimal

end StreamTopology
