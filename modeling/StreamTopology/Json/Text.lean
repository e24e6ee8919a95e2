import StreamTopology.Json.Source
import StreamTopology.Number.Decimal

/-!
# Reading JSON text

`Source.ofText` turns a text into the tree of what can be read from it. Where the text breaks, the
tree carries a fault at that place and nothing after it.

Only three kinds of fault do not end the text: a string with a lone surrogate, a number beyond the
range of doubles, and a value nested deeper than `Source.depthLimit`. Such a value cannot be read,
but what skips it does not notice.
-/

namespace StreamTopology

namespace Source

/-- A value inside this many arrays and objects, itself counted, is too deep to be read. -/
def depthLimit : Nat := 128

/-- The blanks between tokens. -/
def isSpace (c : Char) : Bool := c = ' ' || c = '\n' || c = '\t' || c = '\r'

/-- The text from its first token on. -/
def skipSpace (cs : List Char) : List Char := cs.dropWhile isSpace

/-! ### Strings -/

/-- The value of a hexadecimal digit. -/
def hexValue? (c : Char) : Option Nat :=
  if '0' ≤ c ∧ c ≤ '9' then some (c.toNat - '0'.toNat)
  else if 'a' ≤ c ∧ c ≤ 'f' then some (c.toNat - 'a'.toNat + 10)
  else if 'A' ≤ c ∧ c ≤ 'F' then some (c.toNat - 'A'.toNat + 10)
  else none

/-- The text holds at least this many bytes. -/
def hasBytes : Nat → List Char → Bool
  | 0, _ => true
  | _ + 1, [] => false
  | n + 1, c :: cs => hasBytes (n + 1 - c.utf8Size) cs

/-- Reads the four digits of a code unit. A text that holds fewer than four more bytes has ended,
whatever they are. -/
def readUnit (cs : List Char) : Except TextFault (Nat × List Char) :=
  if !hasBytes 4 cs then .error .ended
  else
    match cs with
    | a :: b :: c :: d :: rest =>
      match hexValue? a, hexValue? b, hexValue? c, hexValue? d with
      | some a, some b, some c, some d => .ok (((a * 16 + b) * 16 + c) * 16 + d, rest)
      | _, _, _, _ => .error .malformed
    | _ => .error .malformed

/-- What a backslash and this character stand for. -/
def shortEscape? : Char → Option Char
  | '"' => some '"'
  | '\\' => some '\\'
  | '/' => some '/'
  | 'b' => some '\x08'
  | 'f' => some '\x0c'
  | 'n' => some '\n'
  | 'r' => some '\r'
  | 't' => some '\t'
  | _ => none

/-- Reads the character of a `\u` escape, whose letter has been taken. A leading surrogate must be
followed by the escape of a trailing one. -/
def readEscapedChar (cs : List Char) : Except TextFault (Char × List Char) := do
  let (unit, rest) ← readUnit cs
  if 0xDC00 ≤ unit ∧ unit ≤ 0xDFFF then .error .malformed
  else if unit < 0xD800 ∨ 0xDFFF < unit then pure (Char.ofNat unit, rest)
  else
    match rest with
    | [] => .error .ended
    | '\\' :: [] => .error .ended
    | '\\' :: 'u' :: rest =>
      let (low, rest) ← readUnit rest
      if low < 0xDC00 ∨ 0xDFFF < low then .error .malformed
      else pure (Char.ofNat (0x10000 + (unit - 0xD800) * 0x400 + (low - 0xDC00)), rest)
    | _ => .error .malformed

/-- Reads the characters of a string up to its closing quote. The count bounds the characters left
to look at. -/
def readString : Nat → List Char → Except TextFault (List Char)
  | 0, _ => .error .ended
  | n + 1, cs =>
    match cs with
    | [] => .error .ended
    | '"' :: _ => .ok []
    | '\\' :: [] => .error .ended
    | '\\' :: 'u' :: rest => do
      let (c, rest) ← readEscapedChar rest
      let tail ← readString n rest
      pure (c :: tail)
    | '\\' :: e :: rest =>
      match shortEscape? e with
      | none => .error .malformed
      | some c => (readString n rest).map (c :: ·)
    | c :: rest =>
      if c.toNat < 0x20 then .error .malformed else (readString n rest).map (c :: ·)

/-- Skips a string, and gives what follows its closing quote. Escapes need not be characters. -/
def skipString : Nat → List Char → Except TextFault (List Char)
  | 0, _ => .error .ended
  | n + 1, cs =>
    match cs with
    | [] => .error .ended
    | '"' :: rest => .ok rest
    | '\\' :: [] => .error .ended
    | '\\' :: 'u' :: rest => do
      let (_, rest) ← readUnit rest
      skipString n rest
    | '\\' :: e :: rest =>
      match shortEscape? e with
      | none => .error .malformed
      | some _ => skipString n rest
    | c :: rest => if c.toNat < 0x20 then .error .malformed else skipString n rest

/-! ### Numbers and words -/

/-- The integer that a numeral without point and exponent denotes, if it fits 64 bits, signed or
unsigned; the numeral of negative zero is no integer. -/
def integer? (negative : Bool) (n : Nat) : Option Int :=
  if negative then if 0 < n ∧ Word.int64Min ≤ -n then some (-n) else none
  else if n ≤ Word.uint64Max then some n else none

/-- The source of a numeral and what follows it; no rest means that the text breaks in it. A
numeral that ends early has ended for who reads it and is malformed for who skips it. -/
def readNumber (cs : List Char) : Source × Option (List Char) :=
  let broken (rest : List Char) : Source × Option (List Char) :=
    (.fault .other (if rest.isEmpty then .ended else .malformed) (some .malformed), none)
  let (negative, body) :=
    match cs with
    | '-' :: tail => (true, tail)
    | _ => (false, cs)
  let (whole, rest) := Decimal.spanDigits body
  if whole.isEmpty then broken rest
  else if whole.length > 1 && whole.head? == some '0' then
    (.fault .other .malformed (some .malformed), none)
  else
    let pointed :=
      match rest with
      | '.' :: tail => some (Decimal.spanDigits tail)
      | _ => none
    match pointed with
    | some ([], rest) => broken rest
    | _ =>
      let fraction := (pointed.map Prod.fst).getD []
      let rest := (pointed.map Prod.snd).getD rest
      let (marked, tail) :=
        match rest with
        | c :: tail => if c = 'e' ∨ c = 'E' then (true, tail) else (false, rest)
        | [] => (false, [])
      let (below, tail) := if marked then Decimal.splitSign tail else (false, tail)
      let (power, tail) := if marked then Decimal.spanDigits tail else ([], tail)
      if marked && power.isEmpty then broken tail
      else
        let coefficient := Decimal.ofDigitChars (whole ++ fraction)
        let exact := if pointed.isNone && !marked then integer? negative coefficient else none
        match exact with
        | some n => (.number (.int n), some tail)
        | none =>
          let magnitude : Int := Decimal.ofDigitChars power
          let x := Binary64.ofDecimal negative coefficient
            ((if below then -magnitude else magnitude) - fraction.length)
          if x.isFinite then (.number (.float x), some tail)
          else (.fault .other .malformed none, some tail)

/-- Reads a word that stands for a value. -/
def readWord (fragment : Fragment) (word : List Char) (value : Source) (cs : List Char) :
    Source × Option (List Char) :=
  let rec go : List Char → List Char → Source × Option (List Char)
    | [], rest => (value, some rest)
    | _ :: _, [] => (.fault fragment .ended (some .ended), none)
    | w :: ws, c :: rest =>
      if c = w then go ws rest else (.fault fragment .malformed (some .malformed), none)
  go word cs

/-- The source of a string, whose opening quote has been taken. -/
def readStringSource (cs : List Char) : Source × Option (List Char) :=
  match skipString (cs.length + 1) cs, readString (cs.length + 1) cs with
  | .ok rest, .ok s => (.string (String.ofList s), some rest)
  | .ok rest, .error f => (.fault .string f none, some rest)
  | .error f, .ok _ => (.fault .string f (some f), none)
  | .error g, .error f => (.fault .string f (some g), none)

/-! ### Values -/

/-- The fault where a bracket, a comma or a key was expected. -/
def faultAt (cs : List Char) : TextFault := if cs.isEmpty then .ended else .malformed

/-- The value for which there is no place. -/
def missingAt (cs : List Char) : Source := .fault .missing (faultAt cs) (some (faultAt cs))

/-- A container at this depth: as it is, or a value that is too deep to be read. -/
def atDepth (depth : Nat) (container : Source) : Source :=
  if depth < depthLimit then container else .fault .other .malformed container.skipFault?

mutual

/-- Reads a value that stands inside `depth` containers; no rest means that the text breaks in it.
The count bounds the steps. -/
def readValue : Nat → Nat → List Char → Source × Option (List Char)
  | 0, _, _ => (.fault .missing .ended (some .ended), none)
  | n + 1, depth, cs =>
    match skipSpace cs with
    | [] => (.fault .missing .ended (some .ended), none)
    | '"' :: rest => readStringSource rest
    | '[' :: rest =>
      let (items, ending, tail) := readItems n (depth + 1) true rest
      (atDepth (depth + 1) (.array items ending), tail)
    | '{' :: rest =>
      let (members, ending, tail) := readMembers n (depth + 1) true rest
      (atDepth (depth + 1) (.object members ending), tail)
    | 'n' :: rest => readWord .null ['u', 'l', 'l'] .null rest
    | 't' :: rest => readWord .other ['r', 'u', 'e'] (.bool true) rest
    | 'f' :: rest => readWord .other ['a', 'l', 's', 'e'] (.bool false) rest
    | c :: rest =>
      if c = '-' || c.isDigit then readNumber (c :: rest)
      else (.fault .other .malformed (some .malformed), none)

/-- Reads the items of an array up to its closing bracket. What stands after a comma is an item,
even where the array should have ended. -/
def readItems : Nat → Nat → Bool → List Char →
    List Source × Option TextFault × Option (List Char)
  | 0, _, _, _ => ([], some .ended, none)
  | n + 1, depth, first, cs =>
    match skipSpace cs with
    | [] => ([], some .ended, none)
    | ']' :: rest => ([], none, some rest)
    | c :: rest =>
      if first || c = ',' then
        let (item, tail) := readValue n depth (if first then c :: rest else rest)
        match tail with
        | none => ([item], none, none)
        | some tail =>
          let (items, ending, tail) := readItems n depth false tail
          (item :: items, ending, tail)
      else ([], some .malformed, none)

/-- Reads the members of an object up to its closing brace. What stands after a comma is a member,
even where the object should have ended. -/
def readMembers : Nat → Nat → Bool → List Char →
    List (Except TextFault String × Source) × Option TextFault × Option (List Char)
  | 0, _, _, _ => ([], some .ended, none)
  | n + 1, depth, first, cs =>
    match skipSpace cs with
    | [] => ([], some .ended, none)
    | '}' :: rest => ([], none, some rest)
    | c :: rest =>
      if first || c = ',' then
        match skipSpace (if first then c :: rest else rest) with
        | '"' :: rest =>
          let (keySource, tail) := readStringSource rest
          let key :=
            match keySource with
            | .string s => .ok s
            | .fault _ f _ => .error f
            | _ => .error .malformed
          match tail with
          | none => ([(key, keySource)], none, none)
          | some tail =>
            match skipSpace tail with
            | ':' :: rest =>
              let (value, tail) := readValue n depth rest
              match tail with
              | none => ([(key, value)], none, none)
              | some tail =>
                let (members, ending, tail) := readMembers n depth false tail
                ((key, value) :: members, ending, tail)
            | rest => ([(key, missingAt rest)], none, none)
        | rest => ([(.error (faultAt rest), missingAt rest)], none, none)
      else ([], some .malformed, none)

end

/-- The source of a text, and whether more than blanks follows the value. -/
def ofText (text : String) : Source × Bool :=
  let cs := text.toList
  let (source, tail) := readValue (2 * cs.length + 2) 0 cs
  (source, match tail with
    | none => false
    | some rest => !(skipSpace rest).isEmpty)

end Source

end StreamTopology
