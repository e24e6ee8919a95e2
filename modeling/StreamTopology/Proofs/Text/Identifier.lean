import StreamTopology.Text.Identifier
import Mathlib.Data.List.Basic
import Mathlib.Data.Char

/-!
# When names share an identifier

Among names that have to be escaped, different ones have different identifiers: no written form of a
character is the beginning of that of another, an underscore being doubled. But a name that is legal
already stands for itself, and it may well be what another name is escaped to, as `a_u002db` is for
`a-b`. This is the only way in which two names share an identifier.

The two halves of a character outside the basic plane are escaped one by one. They lie in a range
that no character has for its number, so that the first of them already tells such a character from
one inside the plane.

## Main definitions

* `Identifier.Legal`: the names that are identifiers themselves.

## Main results

* `Identifier.ofName_ofName`: identifiers are not changed again.
* `Identifier.ofName_inj`: names that are changed are told apart.
* `Identifier.ofName_eq_iff`: when two names share an identifier.
* `Identifier.ofName_separates`: of two names with one identifier, one is that identifier.
-/

namespace StreamTopology

namespace Identifier

variable {c d : Char} {cs ds r s : List Char}

/-! ### Code units -/

theorem digitChar_inj {m n : Nat} (hm : m < 16) (hn : n < 16)
    (h : Nat.digitChar m = Nat.digitChar n) : m = n := by
  have hall : ∀ m < 16, ∀ n < 16, Nat.digitChar m = Nat.digitChar n → m = n := by decide
  exact hall m hm n hn h

theorem hexDigits_inj {m n : Nat} (hm : m < 0x10000) (hn : n < 0x10000)
    (h : hexDigits m = hexDigits n) : m = n := by
  have hdigit : ∀ k, k % 16 < 16 := fun k => Nat.mod_lt k (by decide)
  simp only [hexDigits, List.map_cons, List.map_nil, List.cons.injEq, and_true] at h
  obtain ⟨h₃, h₂, h₁, h₀⟩ := h
  have e₃ := digitChar_inj (hdigit _) (hdigit _) h₃
  have e₂ := digitChar_inj (hdigit _) (hdigit _) h₂
  have e₁ := digitChar_inj (hdigit _) (hdigit _) h₁
  have e₀ := digitChar_inj (hdigit _) (hdigit _) h₀
  omega

/-- What a written code unit is followed by does not matter. -/
theorem escapeUnit_append_inj {m n : Nat} (hm : m < 0x10000) (hn : n < 0x10000)
    (h : escapeUnit m ++ r = escapeUnit n ++ s) : m = n ∧ r = s := by
  obtain ⟨hunit, hrest⟩ := List.append_inj h rfl
  simp only [escapeUnit, List.cons.injEq, true_and] at hunit
  exact ⟨hexDigits_inj hm hn hunit, hrest⟩

/-- **The units of a character.** One inside the basic plane has its number for its only unit, which
is no surrogate; any other has a high and a low surrogate, and these give its number. -/
theorem codeUnits_cases (c : Char) :
    (codeUnits c = [c.toNat] ∧ c.toNat < 0x10000 ∧ (c.toNat < 0xD800 ∨ 0xDFFF < c.toNat)) ∨
      ∃ high low, codeUnits c = [high, low] ∧ (0xD800 ≤ high ∧ high < 0xDC00) ∧
        (0xDC00 ≤ low ∧ low < 0xE000) ∧
        c.toNat = 0x10000 + (high - 0xD800) * 0x400 + (low - 0xDC00) := by
  have hvalid : c.toNat < 0xD800 ∨ 0xDFFF < c.toNat ∧ c.toNat < 0x110000 := c.valid
  rw [codeUnits]
  split
  · exact Or.inl ⟨rfl, ‹_›, by omega⟩
  · exact Or.inr ⟨_, _, rfl, by omega, by omega, by omega⟩

/-- The written units of a character tell which character it is, and where its form ends. -/
theorem flatMap_escapeUnit_append_inj
    (h : (codeUnits c).flatMap escapeUnit ++ r = (codeUnits d).flatMap escapeUnit ++ s) :
    c = d ∧ r = s := by
  rcases codeUnits_cases c with ⟨hc, hlc, hoc⟩ | ⟨hi, lo, hc, hhi, hlo, hnc⟩ <;>
    rcases codeUnits_cases d with ⟨hd, hld, hod⟩ | ⟨hi', lo', hd, hhi', hlo', hnd⟩ <;>
    rw [hc, hd] at h <;>
    simp only [List.flatMap_cons, List.flatMap_nil, List.append_nil, List.append_assoc] at h
  · obtain ⟨hnum, hrest⟩ := escapeUnit_append_inj hlc hld h
    exact ⟨Char.toNat_inj.mp hnum, hrest⟩
  · have hfirst := (escapeUnit_append_inj hlc (by omega) h).1
    omega
  · have hfirst := (escapeUnit_append_inj (by omega) hld h).1
    omega
  · obtain ⟨hhigh, h⟩ := escapeUnit_append_inj (by omega) (by omega) h
    obtain ⟨hlow, hrest⟩ := escapeUnit_append_inj (by omega) (by omega) h
    exact ⟨Char.toNat_inj.mp (by omega), hrest⟩

theorem exists_flatMap_escapeUnit (c : Char) :
    ∃ rest, (codeUnits c).flatMap escapeUnit = '_' :: 'u' :: rest := by
  rcases codeUnits_cases c with ⟨hc, _⟩ | ⟨_, _, hc, _⟩
  · exact ⟨_, by rw [hc, List.flatMap_cons]; rfl⟩
  · exact ⟨_, by rw [hc, List.flatMap_cons]; rfl⟩

/-! ### Characters -/

/-- The three forms of a character. -/
theorem escapeChar_cases (c : Char) :
    (c.isAlphanum = true ∧ escapeChar c = [c]) ∨ (c = '_' ∧ escapeChar c = ['_', '_']) ∨
      (c.isAlphanum = false ∧ c ≠ '_' ∧
        escapeChar c = (codeUnits c).flatMap escapeUnit) := by
  by_cases hc : c.isAlphanum = true
  · exact Or.inl ⟨hc, if_pos hc⟩
  · by_cases hu : c = '_'
    · exact Or.inr (Or.inl ⟨hu, by rw [escapeChar, if_neg hc, if_pos hu]⟩)
    · refine Or.inr (Or.inr ⟨Bool.eq_false_iff.mpr hc, hu, ?_⟩)
      rw [escapeChar, if_neg hc, if_neg hu]

/-- A letter or a digit is no underscore. -/
theorem ne_underscore (h : c.isAlphanum = true) : c ≠ '_' := by
  rintro rfl
  revert h
  decide

/-- **No form of a character begins that of another.** -/
theorem escapeChar_append_inj (h : escapeChar c ++ r = escapeChar d ++ s) : c = d ∧ r = s := by
  obtain ⟨rest, hrest⟩ := exists_flatMap_escapeUnit c
  obtain ⟨rest', hrest'⟩ := exists_flatMap_escapeUnit d
  rcases escapeChar_cases c with ⟨hc, hec⟩ | ⟨hc, hec⟩ | ⟨-, -, hec⟩
  · rcases escapeChar_cases d with ⟨hd, hed⟩ | ⟨hd, hed⟩ | ⟨-, -, hed⟩
    · simpa [hec, hed] using h
    · rw [hec, hed] at h
      exact absurd (List.cons.inj h).1 (ne_underscore hc)
    · rw [hec, hed, hrest'] at h
      exact absurd (List.cons.inj h).1 (ne_underscore hc)
  · rcases escapeChar_cases d with ⟨hd, hed⟩ | ⟨hd, hed⟩ | ⟨-, -, hed⟩
    · rw [hec, hed] at h
      exact absurd (List.cons.inj h).1.symm (ne_underscore hd)
    · rw [hec, hed] at h
      exact ⟨hc.trans hd.symm, List.append_cancel_left h⟩
    · rw [hec, hed, hrest'] at h
      exact absurd (List.cons.inj (List.cons.inj h).2).1 (by decide)
  · rcases escapeChar_cases d with ⟨hd, hed⟩ | ⟨hd, hed⟩ | ⟨-, -, hed⟩
    · rw [hec, hed, hrest] at h
      exact absurd (List.cons.inj h).1.symm (ne_underscore hd)
    · rw [hec, hed, hrest] at h
      exact absurd (List.cons.inj (List.cons.inj h).2).1 (by decide)
    · rw [hec, hed] at h
      exact flatMap_escapeUnit_append_inj h

theorem escapeChar_ne_nil (c : Char) : escapeChar c ≠ [] := by
  obtain ⟨rest, hrest⟩ := exists_flatMap_escapeUnit c
  rcases escapeChar_cases c with ⟨_, h⟩ | ⟨_, h⟩ | ⟨_, _, h⟩ <;> rw [h]
  · exact List.cons_ne_nil _ _
  · exact List.cons_ne_nil _ _
  · rw [hrest]
    exact List.cons_ne_nil _ _

theorem isWordChar_of_mem_escapeUnit {n : Nat} (hd : d ∈ escapeUnit n) : isWordChar d = true := by
  have hdigit : ∀ k < 16, isWordChar (Nat.digitChar k) = true := by decide
  simp only [escapeUnit, hexDigits, List.map_cons, List.map_nil, List.mem_cons,
    List.not_mem_nil, or_false] at hd
  rcases hd with rfl | rfl | rfl | rfl | rfl | rfl
  · decide
  · decide
  all_goals exact hdigit _ (Nat.mod_lt _ (by decide))

/-- The form of a character has letters, digits and underscores only. -/
theorem isWordChar_of_mem_escapeChar (hd : d ∈ escapeChar c) : isWordChar d = true := by
  rcases escapeChar_cases c with ⟨hc, h⟩ | ⟨_, h⟩ | ⟨_, _, h⟩ <;> rw [h] at hd
  · rw [List.mem_singleton.mp hd, isWordChar, hc, Bool.true_or]
  · rw [show d = '_' by simpa using hd]
    decide
  · obtain ⟨n, _, hd⟩ := List.mem_flatMap.mp hd
    exact isWordChar_of_mem_escapeUnit hd

/-! ### Names -/

/-- What is escaped character by character can be read back. -/
theorem flatMap_escapeChar_inj (h : cs.flatMap escapeChar = ds.flatMap escapeChar) : cs = ds := by
  induction cs generalizing ds with
  | nil =>
    cases ds with
    | nil => rfl
    | cons d ds =>
      have hnil := (List.append_eq_nil_iff.mp h.symm).1
      exact absurd hnil (escapeChar_ne_nil d)
  | cons c cs ih =>
    cases ds with
    | nil =>
      have hnil := (List.append_eq_nil_iff.mp h).1
      exact absurd hnil (escapeChar_ne_nil c)
    | cons d ds =>
      rw [List.flatMap_cons, List.flatMap_cons] at h
      obtain ⟨rfl, hrest⟩ := escapeChar_append_inj h
      rw [ih hrest]

theorem escape_of_legal (h : isLegal cs = true) : escape cs = cs := if_pos h

theorem escape_of_illegal (h : ¬ isLegal cs = true) : escape cs = cs.flatMap escapeChar := if_neg h

/-- **An identifier is legal**, unless the name is empty. -/
theorem isLegal_escape (h : cs ≠ []) : isLegal (escape cs) = true := by
  by_cases hlegal : isLegal cs = true
  · rwa [escape_of_legal hlegal]
  obtain ⟨c, cs, rfl⟩ := List.exists_cons_of_ne_nil h
  have hne : (c :: cs).flatMap escapeChar ≠ [] := fun h =>
    escapeChar_ne_nil c (List.append_eq_nil_iff.mp h).1
  rw [escape_of_illegal hlegal, isLegal, Bool.and_eq_true, List.all_eq_true]
  refine ⟨by simpa using hne, fun d hd => ?_⟩
  obtain ⟨_, _, hd⟩ := List.mem_flatMap.mp hd
  exact isWordChar_of_mem_escapeChar hd

/-- An identifier is not changed again, and the empty name stays empty. -/
theorem escape_escape : escape (escape cs) = escape cs := by
  cases cs with
  | nil => rfl
  | cons c cs => exact escape_of_legal (isLegal_escape (List.cons_ne_nil c cs))

variable {m n : String}

theorem ofName_ofName : ofName (ofName n) = ofName n := by
  rw [ofName, ofName, String.toList_ofList, escape_escape]

/-- **Names that are changed are told apart.** -/
theorem ofName_inj (hm : ofName m ≠ m) (hn : ofName n ≠ n) (h : ofName m = ofName n) : m = n := by
  have hillegal : ∀ {k : String}, ofName k ≠ k → ¬ isLegal k.toList = true := by
    intro k hk hlegal
    rw [ofName, escape_of_legal hlegal, String.ofList_toList] at hk
    exact hk rfl
  have hchars := String.ofList_injective h
  rw [escape_of_illegal (hillegal hm), escape_of_illegal (hillegal hn)] at hchars
  exact String.toList_injective (flatMap_escapeChar_inj hchars)

/-- **Two names share an identifier** exactly if they are the same, or if one of them is the
identifier of the other. -/
theorem ofName_eq_iff : ofName m = ofName n ↔ m = n ∨ m = ofName n ∨ ofName m = n := by
  constructor
  · intro h
    by_cases hm : ofName m = m
    · exact Or.inr (Or.inl (hm.symm.trans h))
    by_cases hn : ofName n = n
    · exact Or.inr (Or.inr (h.trans hn))
    · exact Or.inl (ofName_inj hm hn h)
  · rintro (rfl | rfl | rfl)
    · rfl
    · exact ofName_ofName
    · exact ofName_ofName.symm

/-- What a changed name is changed to is not changed again. -/
theorem ne_ofName (hn : ofName n ≠ n) : n ≠ ofName m := by
  rintro rfl
  exact hn ofName_ofName

/-- A legal name that another one is escaped to. -/
example : ofName "a-b" = ofName "a_u002db" := by decide

/-! ### Legal names -/

/-- An ASCII letter, an ASCII digit or an underscore. -/
def WordChar (c : Char) : Prop :=
  ('A' ≤ c ∧ c ≤ 'Z') ∨ ('a' ≤ c ∧ c ≤ 'z') ∨ ('0' ≤ c ∧ c ≤ '9') ∨ c = '_'

/-- A name that is an identifier: it is not empty, and an identifier may hold all its characters. -/
def Legal (name : String) : Prop := name ≠ "" ∧ ∀ c ∈ name.toList, WordChar c

theorem isWordChar_iff : isWordChar c = true ↔ WordChar c := by
  have hrange : ∀ {a b : Char}, (decide (a ≤ c) && decide (c ≤ b)) = true ↔ a ≤ c ∧ c ≤ b :=
    Bool.and_eq_true_iff.trans (and_congr decide_eq_true_iff decide_eq_true_iff)
  have hupper : c.isUpper = true ↔ 'A' ≤ c ∧ c ≤ 'Z' := decide_eq_true_iff
  have hlower : c.isLower = true ↔ 'a' ≤ c ∧ c ≤ 'z' := hrange
  have hletter : c.isAlpha = true ↔ ('A' ≤ c ∧ c ≤ 'Z') ∨ ('a' ≤ c ∧ c ≤ 'z') :=
    Bool.or_eq_true_iff.trans (or_congr hupper hlower)
  have hdigit : c.isDigit = true ↔ '0' ≤ c ∧ c ≤ '9' := hrange
  rw [isWordChar, Char.isAlphanum, Bool.or_eq_true, Bool.or_eq_true, hletter, hdigit, beq_iff_eq,
    WordChar, or_assoc, or_assoc]

theorem isLegal_iff : isLegal n.toList = true ↔ Legal n := by
  rw [isLegal, Bool.and_eq_true, List.all_eq_true, Legal]
  refine and_congr ?_ (forall₂_congr fun c _ => isWordChar_iff)
  simp

theorem ofName_of_legal (hn : Legal n) : ofName n = n := by
  rw [ofName, escape_of_legal (isLegal_iff.mpr hn), String.ofList_toList]

theorem legal_ofName (hn : n ≠ "") : Legal (ofName n) := by
  rw [← isLegal_iff, ofName, String.toList_ofList]
  exact isLegal_escape fun h => hn (String.toList_eq_nil_iff.mp h)

/-- A name whose identifier is a different name is not legal, and the identifier is. -/
theorem legal_of_ofName_eq (h : m = ofName n) (hne : m ≠ n) : Legal m ∧ ¬ Legal n := by
  subst h
  have hillegal : ¬ Legal n := fun hn => hne (ofName_of_legal hn)
  refine ⟨legal_ofName ?_, hillegal⟩
  rintro rfl
  exact hne rfl

/-- **What an identifier tells about its name.** It is legal or empty, and is its own identifier.
If it belongs to two names, exactly one of them is legal; so names that are changed are told apart,
those with characters outside the basic plane among them. -/
theorem ofName_separates (s t : String) :
    (∀ c ∈ (ofName s).toList, WordChar c) ∧ (ofName s = "" → s = "") ∧
      ofName (ofName s) = ofName s ∧
      (ofName s = ofName t → s ≠ t → (Legal s ↔ ¬ Legal t)) ∧
      (ofName s ≠ s → ofName t ≠ t → ofName s = ofName t → s = t) := by
  refine ⟨fun c hc => ?_, fun h => ?_, ofName_ofName, fun h hne => ?_, ofName_inj⟩
  · by_cases hs : s = ""
    · subst hs
      exact absurd hc List.not_mem_nil
    · exact (legal_ofName hs).2 c hc
  · by_contra hs
    exact (legal_ofName hs).1 h
  · rcases ofName_eq_iff.mp h with heq | heq | heq
    · exact absurd heq hne
    · obtain ⟨hs, ht⟩ := legal_of_ofName_eq heq hne
      exact iff_of_true hs ht
    · obtain ⟨ht, hs⟩ := legal_of_ofName_eq heq.symm hne.symm
      exact iff_of_false hs (not_not.mpr ht)

/-- One of two names with the same identifier, and two names outside the basic plane. -/
theorem ofName_separates_hyphen :
    (ofName "a-b" = ofName "a_u002db" ∧ "a-b" ≠ "a_u002db" ∧ ¬ Legal "a-b") ∧
      ofName "😀_" ≠ "😀_" ∧ ofName "😁_" ≠ "😁_" ∧ ofName "😀_" ≠ ofName "😁_" := by
  have hshared : ofName "a-b" = ofName "a_u002db" := by decide
  have hlegal : Legal "a_u002db" := isLegal_iff.mp (by decide)
  have hiff := (ofName_separates "a-b" "a_u002db").2.2.2.1 hshared (by decide)
  have hgrin : ofName "😀_" ≠ "😀_" := by decide
  have hbeam : ofName "😁_" ≠ "😁_" := by decide
  refine ⟨⟨hshared, by decide, fun h => hiff.mp h hlegal⟩, hgrin, hbeam, fun h => ?_⟩
  have heq := (ofName_separates "😀_" "😁_").2.2.2.2 hgrin hbeam h
  revert heq
  decide

end Identifier

end StreamTopology
