import StreamTopology.Json.Value

/-!
# Writing documents

The members of the objects that structures are written as. A field that says nothing is left out.
-/

namespace StreamTopology

namespace Encode

/-- A list as an array. -/
def list {α : Type} (encode : α → Json) (xs : List α) : Json := .array (xs.map encode)

/-- Strings as an array. -/
def strings (xs : List String) : Json := list .string xs

/-- A natural number. -/
def nat (n : Nat) : Json := .number (.int n)

/-- A field that is always written. -/
def field (name : String) (value : Json) : Json.Members := [(name, value)]

/-- A field that is written if it has a value. -/
def optional {α : Type} (name : String) (encode : α → Json) (x : Option α) : Json.Members :=
  match x with
  | none => []
  | some a => [(name, encode a)]

/-- A field that is written if it is true. -/
def flag (name : String) (b : Bool) : Json.Members := if b then [(name, .bool true)] else []

/-- A list of strings that is written if it is not empty. -/
def someStrings (name : String) (xs : List String) : Json.Members :=
  if xs.isEmpty then [] else [(name, strings xs)]

end Encode

end StreamTopology
