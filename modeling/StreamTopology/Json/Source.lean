import StreamTopology.Json.Value

/-!
# Sources of documents

A document is read from a JSON value or from a text that may be broken. A `Source` is the tree that
both have in common: a value whose parts may carry the faults of the text it came from. A reader
walks it in the order of the text, so the first fault that it meets is the one to report. What a
reader skips is held to weaker rules than what it reads, hence a fault says what skipping meets.

## Main definitions

* `Source`, `Source.ofJson`.
* `Source.skipFault?`, `Source.toJson`: what skipping or reading a whole value meets.
-/

namespace StreamTopology

/-- Why a text could not be read: it breaks the grammar, it ends early, or it is well formed but
not of the expected shape. -/
inductive TextFault where
  | malformed
  | ended
  | mismatched
  deriving DecidableEq, Repr

/-- What a value that cannot be read looks like from its first character. -/
inductive Fragment where
  /-- The text ends where the value should start, or has no place for it. -/
  | missing
  | null
  | string
  /-- A value of another kind, or none at all. -/
  | other
  deriving DecidableEq, Repr

/-- A value to read, with the faults of its text. -/
inductive Source where
  | null
  | bool (b : Bool)
  | number (n : Number)
  | string (s : String)
  /-- The items, and the fault that stands where the closing bracket should. -/
  | array (items : List Source) (ending : Option TextFault)
  /-- The members, each with its key or the fault in it, and the fault that stands where the
  closing brace should. -/
  | object (members : List (Except TextFault String × Source)) (ending : Option TextFault)
  /-- A value that cannot be read; it can be skipped unless `skipping` says otherwise. -/
  | fault (fragment : Fragment) (reading : TextFault) (skipping : Option TextFault)
  deriving Inhabited

namespace Source

mutual

/-- The source that a value is. -/
def ofJson : Json → Source
  | .null => .null
  | .bool b => .bool b
  | .number n => .number n
  | .string s => .string s
  | .array items => .array (ofItems items) none
  | .object members => .object (ofMembers members) none

/-- The sources of the items of an array. -/
def ofItems : List Json → List Source
  | [] => []
  | v :: vs => ofJson v :: ofItems vs

/-- The sources of the members of an object. -/
def ofMembers : List (String × Json) → List (Except TextFault String × Source)
  | [] => []
  | (key, v) :: ms => (.ok key, ofJson v) :: ofMembers ms

end

mutual

/-- The first fault that skipping a value meets. -/
def skipFault? : Source → Option TextFault
  | .fault _ _ skipping => skipping
  | .array items ending => (itemsSkipFault? items).or ending
  | .object members ending => (membersSkipFault? members).or ending
  | _ => none

/-- The first fault that skipping the items of an array meets. -/
def itemsSkipFault? : List Source → Option TextFault
  | [] => none
  | v :: vs => (skipFault? v).or (itemsSkipFault? vs)

/-- The first fault that skipping the members of an object meets; keys are not looked at. -/
def membersSkipFault? : List (Except TextFault String × Source) → Option TextFault
  | [] => none
  | (_, v) :: ms => (skipFault? v).or (membersSkipFault? ms)

end

/-- Fails with the fault, if there is one. -/
def check : Option TextFault → Except TextFault Unit
  | none => .ok ()
  | some f => .error f

mutual

/-- The value itself, or its first fault. Of members with the same key the last value counts, at
the place of the first. -/
def toJson : Source → Except TextFault Json
  | .null => .ok .null
  | .bool b => .ok (.bool b)
  | .number n => .ok (.number n)
  | .string s => .ok (.string s)
  | .fault _ reading _ => .error reading
  | .array items ending => do
    let values ← itemsToJson items
    check ending
    pure (.array values)
  | .object members ending => do
    let pairs ← membersToJson members
    check ending
    pure (.object (Json.Members.ofPairs pairs))

/-- The values of the items of an array, or the first fault. -/
def itemsToJson : List Source → Except TextFault (List Json)
  | [] => .ok []
  | v :: vs => do
    let value ← toJson v
    let values ← itemsToJson vs
    pure (value :: values)

/-- The members of an object, or the first fault. -/
def membersToJson :
    List (Except TextFault String × Source) → Except TextFault (List (String × Json))
  | [] => .ok []
  | (key, v) :: ms => do
    let name ← key
    let value ← toJson v
    let pairs ← membersToJson ms
    pure ((name, value) :: pairs)

end

end Source

end StreamTopology
