import StreamTopology.Number.Shortest

/-!
# Decimal text

The two ways a decimal in scientific form is written out, and reading of decimal numerals.

## Main definitions

* `Decimal.positional` and `Decimal.scientific`: the text of `d₁.d₂…dₙ · 10 ^ e`.
* `Decimal.parseInt?`, `Decimal.parseBinary64?`: numerals with an optional sign.
-/

namespace StreamTopology

namespace Decimal

/-- Digits as characters. -/
def digitChars (ds : List Nat) : List Char := ds.map Nat.digitChar

/-- Plain positional text with at least one digit on each side of the point. -/
def positional (d : Scientific) : List Char :=
  match d.exponent with
  | .ofNat e =>
    if e + 1 < d.digits.length then
      digitChars (d.digits.take (e + 1)) ++ '.' :: digitChars (d.digits.drop (e + 1))
    else
      digitChars d.digits ++ List.replicate (e + 1 - d.digits.length) '0' ++ ['.', '0']
  | .negSucc e => '0' :: '.' :: (List.replicate e '0' ++ digitChars d.digits)

/-- Text with an exponent. `point` says whether a lone digit is followed by `.0`, and `mark` is
the exponent with its mark. -/
def scientific (point : Bool) (mark : Int → List Char) (d : Scientific) : List Char :=
  let fraction :=
    match d.digits.drop 1 with
    | [] => if point then ['.', '0'] else []
    | ds => '.' :: digitChars ds
  digitChars (d.digits.take 1) ++ fraction ++ mark d.exponent

/-- An integer in decimal, with a minus sign if it is negative. -/
def intChars (n : Int) : List Char :=
  if n < 0 then '-' :: Nat.toDigits 10 n.natAbs else Nat.toDigits 10 n.natAbs

/-- The text of an integer. -/
def intText (n : Int) : String := String.ofList (intChars n)

/-! ### Reading -/

/-- The number that a list of decimal digits denotes. -/
def ofDigitChars (cs : List Char) : Nat :=
  cs.foldl (fun n c => 10 * n + (c.toNat - '0'.toNat)) 0

/-- Splits a text after its longest front of decimal digits. -/
def spanDigits (cs : List Char) : List Char × List Char :=
  (cs.takeWhile Char.isDigit, cs.dropWhile Char.isDigit)

/-- Takes an optional sign off the front; the flag says that it was a minus. -/
def splitSign : List Char → Bool × List Char
  | '-' :: cs => (true, cs)
  | '+' :: cs => (false, cs)
  | cs => (false, cs)

/-- Decimal digits and nothing else, at least one. -/
def parseNat? (cs : List Char) : Option Nat :=
  if cs.isEmpty || !cs.all Char.isDigit then none else some (ofDigitChars cs)

/-- An integer: decimal digits after an optional sign. -/
def parseInt? (cs : List Char) : Option Int :=
  let (negative, digits) := splitSign cs
  (parseNat? digits).map fun n => if negative then -(n : Int) else n

/-- The exponent part of a numeral, the empty text included. -/
def parseExponent? : List Char → Option Int
  | [] => some 0
  | c :: cs => if c = 'e' ∨ c = 'E' then parseInt? cs else none

/-- A floating point numeral: `inf`, `infinity` and `nan` in any case, or digits with an optional
point and exponent, at least one digit before the exponent. -/
def parseBinary64? (cs : List Char) : Option Binary64 :=
  let (negative, body) := splitSign cs
  let word := String.ofList (body.map Char.toLower)
  if word = "inf" ∨ word = "infinity" then some (Binary64.infinity negative)
  else if word = "nan" then some Binary64.nan
  else
    let (whole, rest) := spanDigits body
    let (fraction, rest) :=
      match rest with
      | '.' :: tail => spanDigits tail
      | _ => ([], rest)
    if whole.isEmpty && fraction.isEmpty then none
    else (parseExponent? rest).map fun e =>
      Binary64.ofDecimal negative (ofDigitChars (whole ++ fraction)) (e - fraction.length)

end Decimal

end StreamTopology
