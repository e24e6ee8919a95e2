import StreamTopology.Text.Hidden

/-!
# Quoting in messages

How a string is shown inside a message: between double quotes, with escapes for quotes,
backslashes, and every character that does not show by itself.
-/

namespace StreamTopology

namespace Diagnostic

/-- Lowercase hexadecimal digits without leading zeros. -/
def hexDigits (n : Nat) : List Char := Nat.toDigits 16 n

/-- The shown form of one character. -/
def showChar (c : Char) : List Char :=
  if c = '\x00' then ['\\', '0']
  else if c = '\t' then ['\\', 't']
  else if c = '\r' then ['\\', 'r']
  else if c = '\n' then ['\\', 'n']
  else if c = '\\' then ['\\', '\\']
  else if c = '"' then ['\\', '"']
  else if Hidden.isHidden c then '\\' :: 'u' :: '\x7b' :: (hexDigits c.toNat ++ ['\x7d'])
  else [c]

/-- The shown form of a string. -/
def showString (s : String) : String :=
  String.ofList ('"' :: (s.toList.flatMap showChar ++ ['"']))

end Diagnostic

end StreamTopology
