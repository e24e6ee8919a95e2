import StreamTopology.Error
import StreamTopology.Number.Decimal
import StreamTopology.Text.Blank
import StreamTopology.Text.Quoted

/-!
# Literals

How values are written in the Streams Processing Language.

## Main definitions

* `Literal.double`, `Literal.single`: floating point numbers.
* `Literal.number`: numbers with the suffix of their type.
* `Literal.typed`, `Literal.untyped`: values with and without an explicit type.
-/

namespace StreamTopology

namespace Literal

/-! ### Floating point numbers -/

/-- Numbers from a thousandth up to below ten million are written positionally. -/
def isPositional (d : Scientific) : Bool := -3 ≤ d.exponent && d.exponent < 7

/-- The digits of a number, positional or with an exponent after `E`. -/
def decimalChars (plain : Bool) (d : Scientific) : List Char :=
  if plain then Decimal.positional d
  else Decimal.scientific true (fun e => 'E' :: Decimal.intChars e) d

/-- The text of a decimal with its sign. -/
def signedChars (negative plain : Bool) (d : Scientific) : List Char :=
  if negative then '-' :: decimalChars plain d else decimalChars plain d

/-- The text of what a bit pattern stands for, with the shortest digits that read back. -/
def float (f : Ieee.Format) : Ieee.Datum → String
  | .nan => "NaN"
  | .infinite negative => if negative then "-Infinity" else "Infinity"
  | .finite negative m e =>
    if m = 0 then if negative then "-0.0" else "0.0"
    else
      let d := Shortest.digits .upward f m e
      String.ofList (signedChars negative (isPositional d) d)

/-- The text of a double precision number. -/
def double (x : Binary64) : String := float Ieee.binary64 x.decode

/-- The text of a single precision number. -/
def single (x : Binary32) : String := float Ieee.binary32 x.decode

/-! ### Numbers with a type -/

/-- The 64 bits of the integer that a value stands for: an integer between `-2 ^ 63` and
`2 ^ 64 - 1`, as a number or as text, or the integer part of a double. -/
def integerBits? : Json → Option (BitVec 64)
  | .number (.int n) => Word.bits? n
  | .number (.float x) => some (BitVec.ofInt 64 x.truncate)
  | .string s => (Decimal.parseInt? (Blank.trim s.toList)).bind Word.bits?
  | _ => none

/-- The double that a value stands for, as a number or as text. -/
def binary64? : Json → Option Binary64
  | .number n => some n.toBinary64
  | .string s => Decimal.parseBinary64? (Blank.trim s.toList)
  | _ => none

/-- The digits of a literal of a numeric type. -/
def numberText (value : Json) (type : MetaType) : Except Error String :=
  let invalid : Error := .unmapped (.invalidLiteral value type)
  match type.integerWidth?, type with
  | some width, _ =>
    match integerBits? value with
    | some word => .ok (Decimal.intText (Word.narrow width type.isUnsigned word))
    | none => .error invalid
  | none, .float32 =>
    match binary64? value with
    | some x => .ok (single x.toBinary32)
    | none => .error invalid
  | none, .float64 =>
    match binary64? value with
    | some x => .ok (double x)
    | none => .error invalid
  | none, _ => .error (.unmapped (.notNumeric type))

/-- A literal of a numeric type, suffix included. Integers are taken modulo the width of their
type. -/
def number (value : Json) (type : MetaType) : Except Error String :=
  (numberText value type).map fun text => text ++ type.suffix

/-! ### Values -/

/-- The text that a value stands for: of a string the string itself, of any other value its JSON. -/
def plainText : Json → String
  | .string s => s
  | other => other.render

/-- A truth value. -/
def boolText (b : Bool) : String := if b then "true" else "false"

/-- A literal of a given type. -/
def typed (type : MetaType) (value : Json) : Except Error String :=
  match type with
  | .boolean =>
    match value with
    | .bool b => .ok (boolText b)
    | .string "true" => .ok "true"
    | .string "false" => .ok "false"
    | other => .error (.unmapped (.invalidLiteral other .boolean))
  | .rstring => .ok (Quoted.literal (plainText value))
  | .ustring => .ok (Quoted.literal (plainText value) ++ "u")
  | numeric => number value numeric

mutual

/-- A literal of the type that the value itself suggests. The items of an array are separated by
commas. -/
def untyped : Json → Except Error String
  | .string s => .ok (Quoted.literal s)
  | .bool b => .ok (boolText b)
  | .number (.int n) => .ok (Decimal.intText n)
  | .number (.float x) => .ok (double x)
  | .array items => do
    let texts ← untypedItems items
    pure (", ".intercalate texts)
  | other => .error (.unmapped (.notALiteral other))

/-- The literals of the items of an array. -/
def untypedItems : List Json → Except Error (List String)
  | [] => .ok []
  | v :: vs => do
    let text ← untyped v
    let texts ← untypedItems vs
    pure (text :: texts)

end

end Literal

end StreamTopology
