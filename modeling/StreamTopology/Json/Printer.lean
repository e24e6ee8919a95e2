import StreamTopology.Json.Value
import StreamTopology.Number.Decimal

/-!
# JSON text

Compact text of a value: no blanks, members in order, characters beyond ASCII as they are.
-/

namespace StreamTopology

/-- The text of a finite double inside JSON: positional from `1e-5` up to below `1e16`, else with
an exponent that always has a sign. Of two equally short decimals the even one is written. -/
def Binary64.jsonText (x : Binary64) : String :=
  match x.decode with
  | .finite negative m e =>
    let body :=
      if m = 0 then ['0', '.', '0']
      else
        let d := Shortest.digits .toEven Ieee.binary64 m e
        if -5 ≤ d.exponent ∧ d.exponent < 16 then Decimal.positional d
        else Decimal.scientific false
          (fun n => 'e' :: (if n < 0 then Decimal.intChars n else '+' :: Decimal.intChars n)) d
    String.ofList (if negative then '-' :: body else body)
  | _ => "null"

namespace Json

/-- The written form of one character of a string. Control characters without a short escape are
written by their code. -/
def escapeChar (c : Char) : List Char :=
  if c = '"' then ['\\', '"']
  else if c = '\\' then ['\\', '\\']
  else if c = '\x08' then ['\\', 'b']
  else if c = '\x0c' then ['\\', 'f']
  else if c = '\n' then ['\\', 'n']
  else if c = '\r' then ['\\', 'r']
  else if c = '\t' then ['\\', 't']
  else if c.toNat < 0x20 then
    ['\\', 'u', '0', '0', Nat.digitChar (c.toNat / 16), Nat.digitChar (c.toNat % 16)]
  else [c]

/-- A string between quotes. -/
def stringText (s : String) : String :=
  String.ofList ('"' :: (s.toList.flatMap escapeChar ++ ['"']))

/-- The text of a number. -/
def numberText : Number → String
  | .int n => Decimal.intText n
  | .float x => x.jsonText

mutual

/-- The compact text of a value. -/
def render : Json → String
  | .null => "null"
  | .bool b => if b then "true" else "false"
  | .number n => numberText n
  | .string s => stringText s
  | .array items => "[" ++ ",".intercalate (renderItems items) ++ "]"
  | .object members => "\x7b" ++ ",".intercalate (renderMembers members) ++ "\x7d"

/-- The texts of the items of an array. -/
def renderItems : List Json → List String
  | [] => []
  | v :: vs => render v :: renderItems vs

/-- The texts of the members of an object. -/
def renderMembers : List (String × Json) → List String
  | [] => []
  | (key, v) :: ms => (stringText key ++ ":" ++ render v) :: renderMembers ms

end

end Json

end StreamTopology
