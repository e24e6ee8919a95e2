/-!
# Quoted strings

String literals of SPL stand between double quotes; a backslash, a quote and a line feed inside
them are written with a backslash in front.

## Main definitions

* `Quoted.escape`: the text between the quotes, by one replacement after the other.
* `Quoted.encode`: the literal of a text.
* `Quoted.read?`: reads one literal from the front of a text and gives back what follows it.
-/

namespace StreamTopology

namespace Quoted

/-- The text with every occurrence of a character replaced. -/
def replace (c : Char) (written : List Char) (cs : List Char) : List Char :=
  cs.flatMap fun d => if d = c then written else [d]

/-- The text between the quotes. Backslashes are doubled first, so that those which the other
replacements put in stay single. -/
def escape (cs : List Char) : List Char :=
  replace '"' ['\\', '"'] (replace '\n' ['\\', 'n'] (replace '\\' ['\\', '\\'] cs))

/-- The written form of a text: the opening quote, its characters, the closing quote. -/
def encode (cs : List Char) : List Char := '"' :: (escape cs ++ ['"'])

/-- The string literal of a text. -/
def literal (s : String) : String := String.ofList (encode s.toList)

/-- Reads up to the first quote that no backslash escapes; gives the text and what follows the
quote. -/
def readBody? : List Char → Option (List Char × List Char)
  | [] => none
  | '"' :: rest => some ([], rest)
  | '\\' :: '\\' :: rest => (readBody? rest).map fun p => ('\\' :: p.1, p.2)
  | '\\' :: 'n' :: rest => (readBody? rest).map fun p => ('\n' :: p.1, p.2)
  | '\\' :: '"' :: rest => (readBody? rest).map fun p => ('"' :: p.1, p.2)
  | c :: rest => (readBody? rest).map fun p => (c :: p.1, p.2)

/-- Reads one literal, opening quote included. -/
def read? : List Char → Option (List Char × List Char)
  | '"' :: rest => readBody? rest
  | _ => none

end Quoted

end StreamTopology
