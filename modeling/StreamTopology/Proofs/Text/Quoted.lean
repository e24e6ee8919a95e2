import StreamTopology.Spl.Submission
import Mathlib.Data.List.Basic
import Mathlib.Tactic.ByContra

/-!
# Quoted strings can be read back

The text between the quotes is written by three replacements, each of the whole text, and the later
ones might well spoil what the earlier ones wrote: a backslash that is put before a quote must not
be doubled, nor a doubled one be taken for the beginning of an escape. They do not, because
backslashes come first and neither of the other two characters is among what is put in for them. So
each character has a written form of its own, and the text is these forms in a row.

No form but that of a quote holds one, and there a backslash stands before it. So the first quote
that a reader does not take for an escaped one is the closing quote, whatever follows the literal.
A list of literals, with commas between them, is read one by one.

## Main definitions

* `Quoted.escapeChar`: the written form of one character.
* `Quoted.readList?`: the reader of a list of literals.

## Main results

* `Quoted.escape_eq_flatMap`: the three replacements act on each character alone.
* `Quoted.read?_encode`: a literal is read back, and what follows it is left.
* `Quoted.read?_append`: what is read does not depend on what follows it.
* `Quoted.literals_readBack`: the same for the list of names of the submission parameters.
-/

namespace StreamTopology

namespace Quoted

variable {c : Char} {cs ds r : List Char} {ss : List String}

/-! ### Written forms -/

/-- The written form of one character between the quotes. -/
def escapeChar (c : Char) : List Char :=
  if c = '\\' then ['\\', '\\']
  else if c = '\n' then ['\\', 'n']
  else if c = '"' then ['\\', '"']
  else [c]

theorem replace_append {written : List Char} :
    replace c written (cs ++ ds) = replace c written cs ++ replace c written ds :=
  List.flatMap_append

theorem escape_append : escape (cs ++ ds) = escape cs ++ escape ds := by
  rw [escape, replace_append, replace_append, replace_append, ← escape, ← escape]

/-- No replacement touches what another one has put in. -/
theorem escape_singleton : escape [c] = escapeChar c := by
  by_cases hback : c = '\\'
  · rw [hback]
    decide
  by_cases hline : c = '\n'
  · rw [hline]
    decide
  by_cases hquote : c = '"'
  · rw [hquote]
    decide
  · simp [escape, escapeChar, replace, hback, hline, hquote]

theorem escape_cons : escape (c :: cs) = escapeChar c ++ escape cs := by
  rw [← List.singleton_append, escape_append, escape_singleton]

/-- **Three replacements of the whole text** are one of each character. -/
theorem escape_eq_flatMap : escape cs = cs.flatMap escapeChar := by
  induction cs with
  | nil => rfl
  | cons c cs ih => rw [escape_cons, ih, List.flatMap_cons]

/-- The forms of a character: an escape of two characters, or the character itself, which then is
neither a backslash nor a quote nor a line feed. -/
theorem escapeChar_cases (c : Char) :
    (c = '\\' ∧ escapeChar c = ['\\', '\\']) ∨ (c = '\n' ∧ escapeChar c = ['\\', 'n']) ∨
      (c = '"' ∧ escapeChar c = ['\\', '"']) ∨
      (c ≠ '\\' ∧ c ≠ '\n' ∧ c ≠ '"' ∧ escapeChar c = [c]) := by
  unfold escapeChar
  split
  · exact Or.inl ⟨‹_›, rfl⟩
  split
  · exact Or.inr (Or.inl ⟨‹_›, rfl⟩)
  split
  · exact Or.inr (Or.inr (Or.inl ⟨‹_›, rfl⟩))
  · exact Or.inr (Or.inr (Or.inr ⟨‹_›, ‹_›, ‹_›, rfl⟩))

theorem newline_notMem_escape : '\n' ∉ escape cs := by
  rw [escape_eq_flatMap, List.mem_flatMap]
  rintro ⟨c, -, hc⟩
  rcases escapeChar_cases c with ⟨-, h⟩ | ⟨-, h⟩ | ⟨-, h⟩ | ⟨-, hline, -, h⟩ <;> rw [h] at hc
  · revert hc
    decide
  · revert hc
    decide
  · revert hc
    decide
  · exact hline (List.mem_singleton.mp hc).symm

/-! ### Reading one literal -/

theorem readBody?_escapeChar :
    readBody? (escapeChar c ++ r) = (readBody? r).map fun p => (c :: p.1, p.2) := by
  rcases escapeChar_cases c with ⟨rfl, h⟩ | ⟨rfl, h⟩ | ⟨rfl, h⟩ | ⟨hback, -, hquote, h⟩ <;> rw [h]
  · rfl
  · rfl
  · rfl
  · simp [readBody?, hback]

theorem readBody?_escape : readBody? (escape cs ++ '"' :: r) = some (cs, r) := by
  induction cs with
  | nil => rfl
  | cons c cs ih => rw [escape_cons, List.append_assoc, readBody?_escapeChar, ih, Option.map_some]

/-- **A literal is read back**, and the reader stops behind its closing quote. -/
theorem read?_encode : read? (encode cs ++ r) = some (cs, r) := by
  rw [encode, List.cons_append, List.append_assoc, List.singleton_append, read?, readBody?_escape]

/-- The reader does not look behind the quote at which it stops. -/
theorem readBody?_append {s : List Char} (h : readBody? cs = some (s, r)) :
    readBody? (cs ++ ds) = some (s, r ++ ds) := by
  fun_induction readBody? cs generalizing s with
  | case1 => cases h
  | case2 rest =>
    cases h
    rfl
  | case3 rest ih | case4 rest ih | case5 rest ih =>
    obtain ⟨⟨s, r⟩, hp, heq⟩ := Option.map_eq_some_iff.mp h
    cases heq
    exact congrArg _ (ih hp)
  | case6 c rest hquote hback hline hescaped ih =>
    obtain ⟨⟨s, r⟩, hp, heq⟩ := Option.map_eq_some_iff.mp h
    cases heq
    -- what makes an escape of a backslash is in the text already, not behind it
    rcases rest with _ | ⟨d, rest⟩
    · cases hp
    rw [List.cons_append, readBody?.eq_6 _ _ hquote (fun _ hc he => ?_) (fun _ hc he => ?_)
      (fun _ hc he => ?_), ih hp, Option.map_some]
    · cases he
      exact hback _ hc rfl
    · cases he
      exact hline _ hc rfl
    · cases he
      exact hescaped _ hc rfl

/-- **What is read does not depend on what follows it.** -/
theorem read?_append {s : List Char} (h : read? cs = some (s, r)) :
    read? (cs ++ ds) = some (s, r ++ ds) := by
  unfold read? at h
  split at h
  · exact readBody?_append h
  · cases h

/-! ### Reading a list of literals -/

/-- A reader takes something. -/
theorem readBody?_length {s : List Char} (h : readBody? cs = some (s, r)) :
    r.length < cs.length := by
  fun_induction readBody? cs generalizing s with
  | case1 => cases h
  | case2 rest =>
    cases h
    exact Nat.lt_succ_self _
  | case3 rest ih | case4 rest ih | case5 rest ih | case6 c rest _ _ _ _ ih =>
    obtain ⟨p, hp, heq⟩ := Option.map_eq_some_iff.mp h
    have hrest := ih (hp.trans (congrArg (fun q => some (p.1, q)) (congrArg Prod.snd heq)))
    simp only [List.length_cons]
    omega

theorem read?_length {s : List Char} (h : read? cs = some (s, r)) : r.length < cs.length := by
  unfold read? at h
  split at h
  · exact Nat.lt_succ_of_lt (readBody?_length h)
  · cases h

/-- Reads literals with a comma and a blank between them, up to the end of the text. -/
def readList? (cs : List Char) : Option (List (List Char)) :=
  match _ : read? cs with
  | some (s, []) => some [s]
  | some (s, ',' :: ' ' :: rest) => (readList? rest).map (s :: ·)
  | _ => none
termination_by cs.length
decreasing_by
  have hlength := read?_length ‹read? cs = some (s, ',' :: ' ' :: rest)›
  simp only [List.length_cons] at hlength
  omega

theorem readList?_last {s : List Char} (h : read? cs = some (s, [])) :
    readList? cs = some [s] := by
  rw [readList?]
  split <;> simp_all

theorem readList?_more {s : List Char} (h : read? cs = some (s, ',' :: ' ' :: r)) :
    readList? cs = (readList? r).map (s :: ·) := by
  rw [readList?]
  split <;> simp_all

/-- **A list of literals is read back** one by one. -/
theorem readList?_intercalate (h : ss ≠ []) :
    readList? (", ".intercalate (ss.map literal)).toList = some (ss.map String.toList) := by
  induction ss with
  | nil => exact absurd rfl h
  | cons s ss ih =>
    cases ss with
    | nil =>
      refine readList?_last ?_
      rw [List.map_singleton, String.intercalate_singleton, literal, String.toList_ofList,
        ← List.append_nil (encode _), read?_encode]
    | cons t ts =>
      have hrest := ih (List.cons_ne_nil t ts)
      have hread : read? (", ".intercalate ((s :: t :: ts).map literal)).toList =
          some (s.toList, ',' :: ' ' :: (", ".intercalate ((t :: ts).map literal)).toList) := by
        rw [List.map_cons, List.map_cons, String.intercalate_cons_cons, String.append_assoc,
          String.toList_append, literal, String.toList_ofList, read?_encode, String.toList_append]
        rfl
      rw [readList?_more hread, hrest, Option.map_some, ← List.map_cons (f := String.toList)]

theorem newline_notMem_literal {s : String} : '\n' ∉ (literal s).toList := by
  rw [literal, String.toList_ofList, encode, List.mem_cons, List.mem_append, List.mem_singleton]
  rintro (h | h | h)
  · exact absurd h (by decide)
  · exact newline_notMem_escape h
  · exact absurd h (by decide)

end Quoted

theorem SubmissionValues.info?_of_nil {values : SubmissionValues} (h : values.all = []) :
    values.info? = none := by
  rw [info?, isEmpty, h]
  rfl

theorem SubmissionValues.exists_info {values : SubmissionValues} (h : values.all ≠ []) :
    ∃ info, values.info? = some info ∧
      info.names = ", ".intercalate ((values.all.map SubmissionParameter.name).map
        Quoted.literal) := by
  have hfull : values.isEmpty = false := List.isEmpty_eq_false_iff.mpr h
  refine ⟨_, if_neg (by rw [hfull]; exact Bool.false_ne_true), ?_⟩
  rw [List.map_map]
  rfl

/-- **String literals are self-delimiting.** A reader takes back the text of a literal and leaves
exactly what follows it; no literal has a line feed in it. So the names of the submission parameters
can be told from their list, which there is if there are any. -/
theorem Quoted.literals_readBack :
    (∀ (s : String) (r : List Char), read? ((literal s).toList ++ r) = some (s.toList, r)) ∧
      (∀ s : String, '\n' ∉ (literal s).toList) ∧
      ∀ values : SubmissionValues, (values.all = [] → values.info? = none) ∧
        (values.all ≠ [] → ∃ info, values.info? = some info ∧
          readList? info.names.toList = some (values.all.map fun p => p.name.toList)) := by
  refine ⟨fun s r => ?_, fun s => newline_notMem_literal,
    fun values => ⟨SubmissionValues.info?_of_nil, fun hall => ?_⟩⟩
  · rw [literal, String.toList_ofList, read?_encode]
  · obtain ⟨info, hinfo, hnames⟩ := SubmissionValues.exists_info hall
    refine ⟨info, hinfo, ?_⟩
    have hnonempty : values.all.map SubmissionParameter.name ≠ [] := by simpa using hall
    rw [hnames, readList?_intercalate hnonempty, List.map_map]
    rfl

/-- Two names that look like the end of one literal and like an escaped quote. -/
theorem Quoted.literals_readBack_lookalikes :
    ([{ name := "a\", \"b" }, { name := "\\\n\\\"" }] : List SubmissionParameter) ≠ [] ∧
      ∃ info, SubmissionValues.info? ⟨[{ name := "a\", \"b" }, { name := "\\\n\\\"" }]⟩ =
          some info ∧
        readList? info.names.toList = some ["a\", \"b".toList, "\\\n\\\"".toList] := by
  have hfull : ([{ name := "a\", \"b" }, { name := "\\\n\\\"" }] : List SubmissionParameter) ≠ [] :=
    List.cons_ne_nil _ _
  exact ⟨hfull, (literals_readBack.2.2 ⟨_⟩).2 hfull⟩

end StreamTopology
