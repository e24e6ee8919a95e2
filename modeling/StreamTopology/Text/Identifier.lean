/-!
# Identifiers of the Streams Processing Language

A name given by a user may hold any character; an SPL identifier holds ASCII letters, digits and
underscores only.

## Main definitions

* `Identifier.escape`: the identifier of a name. A legal name stands for itself. Any other name is
  escaped character by character: letters and digits stay, an underscore is doubled, and every
  other UTF-16 code unit becomes `_u` with its four hexadecimal digits.
* `Identifier.basename`: what follows the last dot of a dotted name.

Both are defined on lists of characters, with versions on strings beside them.
-/

namespace StreamTopology

namespace Identifier

/-- ASCII letters, ASCII digits and the underscore. -/
def isWordChar (c : Char) : Bool := c.isAlphanum || c == '_'

/-- A non-empty text of letters, digits and underscores. -/
def isLegal (cs : List Char) : Bool := !cs.isEmpty && cs.all isWordChar

/-- The UTF-16 code units of a character: one inside the basic plane, a surrogate pair outside. -/
def codeUnits (c : Char) : List Nat :=
  if c.toNat < 0x10000 then [c.toNat]
  else [0xD800 + (c.toNat - 0x10000) / 0x400, 0xDC00 + (c.toNat - 0x10000) % 0x400]

/-- The four lowercase hexadecimal digits of a number below 65536. -/
def hexDigits (n : Nat) : List Char :=
  [n / 0x1000 % 16, n / 0x100 % 16, n / 0x10 % 16, n % 16].map Nat.digitChar

/-- The written form of one code unit that is neither a letter, a digit nor an underscore. -/
def escapeUnit (unit : Nat) : List Char := '_' :: 'u' :: hexDigits unit

/-- The written form of one character of a name that is not legal as it stands. -/
def escapeChar (c : Char) : List Char :=
  if c.isAlphanum then [c]
  else if c = '_' then ['_', '_']
  else (codeUnits c).flatMap escapeUnit

/-- The identifier of a name, as characters. -/
def escape (cs : List Char) : List Char :=
  if isLegal cs then cs else cs.flatMap escapeChar

/-- The identifier of a name. -/
def ofName (name : String) : String := String.ofList (escape name.toList)

/-- The characters after the last dot, or all of them when there is none. -/
def afterLastDot (cs : List Char) : List Char :=
  (cs.reverse.takeWhile (· != '.')).reverse

/-- The last component of a dotted name. -/
def basename (name : String) : String := String.ofList (afterLastDot name.toList)

/-- The identifier of the last component of a dotted stream or port name. -/
def ofBasename (name : String) : String := ofName (basename name)

end Identifier

end StreamTopology
