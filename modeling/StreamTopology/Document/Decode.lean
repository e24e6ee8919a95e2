import StreamTopology.Error

/-!
# Reading documents

Readers of a `Source` as a value of a type. A reader meets the parts of a source in the order of
the document and reports the first thing that is wrong.

## Main definitions

* `Decoder`, with readers of strings, numbers, lists, options and enumerations.
* `Record`: how a structure is read from an object, or from an array of its fields.
-/

namespace StreamTopology

/-- A reader of values of a type. -/
abbrev Decoder (α : Type) : Type := Source → Except DecodeError α

namespace Source

/-- What the source is, in the words of messages; a source that cannot be read is an error. -/
def found : Source → Except DecodeError Found
  | .null => .ok .null
  | .bool b => .ok (.bool b)
  | .number (.int n) => .ok (.integer n)
  | .number (.float x) => .ok (.float x)
  | .string s => .ok (.string s)
  | .array _ _ => .ok .sequence
  | .object _ _ => .ok .map
  | .fault _ reading _ => .error (.broken reading)

/-- Fails because the source is not what was expected. -/
def unexpected {α : Type} (source : Source) (expected : String) : Except DecodeError α := do
  let found ← source.found
  throw (.invalidType found expected)

/-- Passes over the source without reading it. -/
def skip (source : Source) : Except DecodeError Unit :=
  match source.skipFault? with
  | none => pure ()
  | some f => throw (.broken f)

/-- Fails with the fault, if there is one. -/
def closing (ending : Option TextFault) : Except DecodeError Unit :=
  match ending with
  | none => pure ()
  | some f => throw (.broken f)

end Source

namespace Decoder

/-- Any value. -/
def json : Decoder Json := fun source => source.toJson.mapError .broken

/-- A string. -/
def string : Decoder String
  | .string s => .ok s
  | source => source.unexpected "a string"

/-- A truth value. -/
def bool : Decoder Bool
  | .bool b => .ok b
  | source => source.unexpected "a boolean"

/-- An integer within bounds, ends included. -/
def integer (name : String) (low high : Int) : Decoder Int
  | .number (.int n) =>
    if low ≤ n ∧ n ≤ high then .ok n else .error (.invalidValue (.integer n) name)
  | source => source.unexpected name

/-- A signed 64-bit integer. -/
def int64 : Decoder Int := integer "i64" Word.int64Min Word.int64Max

/-- An unsigned 32-bit integer. -/
def uint32 : Decoder Nat := fun source => (integer "u32" 0 Word.uint32Max source).map Int.toNat

/-- An unsigned 64-bit integer, under the name that messages give to sizes. -/
def size : Decoder Nat := fun source => (integer "usize" 0 Word.uint64Max source).map Int.toNat

/-- A double; integers are rounded to the nearest. -/
def binary64 : Decoder Binary64
  | .number n => .ok n.toBinary64
  | source => source.unexpected "f64"

/-- A value that may be absent, written as null. -/
def optional {α : Type} (decode : Decoder α) : Decoder (Option α)
  | .null => .ok none
  | .fault .null reading _ => .error (.broken reading)
  | source => (decode source).map some

/-- A list. -/
def list {α : Type} (decode : Decoder α) : Decoder (List α)
  | .array items ending => do
    let values ← items.mapM decode
    Source.closing ending
    pure values
  | source => source.unexpected "a sequence"

/-- The members of an object with string keys, before their values are interpreted. -/
def members : Decoder Json.Members
  | .object members ending => do
    match ← json (.object members ending) with
    | .object ms => pure ms
    | _ => pure []
  | source => source.unexpected "a map"

/-- The variant with a given name. -/
def variant {α : Type} (variants : List (String × α)) (name : String) : Except DecodeError α :=
  match variants.find? fun v => v.1 == name with
  | some v => .ok v.2
  | none => .error (.unknownVariant name (variants.map Prod.fst))

/-- Reads the one member of an object that stands for a variant. -/
def variantMember {α : Type} (variants : List (String × α))
    (member : Except TextFault String × Source) : Except DecodeError α := do
  let name ← member.1.mapError .broken
  let chosen ← variant variants name
  match member.2 with
  | .null => pure chosen
  | other => other.unexpected "unit"

/-- An enumeration: the name of a variant, or an object whose only key is that name, with null. What
is neither a string nor an object is not looked at beyond its first character. -/
def enumeration {α : Type} (variants : List (String × α)) : Decoder α
  | .string s => variant variants s
  | .object [member] ending => do
    let chosen ← variantMember variants member
    Source.closing ending
    pure chosen
  | .object [] ending => .error (.notASingleKey (ending.getD .malformed))
  | .object (member :: _) _ =>
    match variantMember variants member with
    | .error e => .error (.notASingleKey e.fault)
    | .ok _ => .error (.notASingleKey .malformed)
  | .fault .null _ _ | .fault .other _ _ => .error (.broken .malformed)
  | source => do
    let found ← source.found
    throw (.notAVariant found)

end Decoder

/-! ### Records -/

/-- How a structure is read. -/
structure Record (α : Type) where
  /-- The name of the structure in messages. -/
  name : String
  /-- The names of the fields in their order; the flag says that a field must be present. -/
  fields : List (String × Bool)
  /-- The structure before any field is read. What a required field holds here never shows. -/
  blank : α
  /-- Reads the named field and sets it. Names without a field leave the structure as it is. -/
  set : String → Source → α → Except DecodeError α

namespace Record

variable {α : Type}

/-- The name is that of a field. -/
def hasField (r : Record α) (name : String) : Bool := r.fields.any fun f => f.1 == name

/-- Reads the members of an object one after the other. `seen` holds the fields read so far. -/
def readMembers (r : Record α) :
    List (Except TextFault String × Source) → List String → α → Except DecodeError (List String × α)
  | [], seen, x => .ok (seen, x)
  | (key, value) :: rest, seen, x => do
    let name ← key.mapError .broken
    if r.hasField name then
      if seen.contains name then throw (.duplicateField name)
      let x ← r.set name value x
      readMembers r rest (name :: seen) x
    else
      value.skip
      readMembers r rest seen x

/-- Fails with the first required field that is not among those seen. -/
def checkRequired (r : Record α) (seen : List String) : Except DecodeError Unit :=
  match r.fields.find? fun f => f.2 && !seen.contains f.1 with
  | none => .ok ()
  | some f => .error (.missingField f.1)

/-- The structure in messages about its length. -/
def sizedName (r : Record α) : String :=
  "struct " ++ r.name ++ " with " ++ Decimal.intText r.fields.length
    ++ (if r.fields.length = 1 then " element" else " elements")

/-- Reads the items of an array as the fields, in order. Fields for which the array has no item
must not be required; `position` counts the fields gone by. Gives the items that are left. -/
def readItems (r : Record α) (ending : Option TextFault) :
    List (String × Bool) → List Source → Nat → α → Except DecodeError (List Source × α)
  | [], items, _, x => .ok (items, x)
  | field :: fields, [], position, x => do
    Source.closing ending
    if field.2 then throw (.invalidLength position r.sizedName)
    readItems r ending fields [] (position + 1) x
  | field :: fields, item :: items, position, x => do
    let x ← r.set field.1 item x
    readItems r ending fields items (position + 1) x

/-- Reads a structure from an object. -/
def decodeObject (r : Record α) : Decoder α
  | .object members ending => do
    let (seen, x) ← r.readMembers members [] r.blank
    Source.closing ending
    r.checkRequired seen
    pure x
  | source => source.unexpected ("struct " ++ r.name)

/-- Reads a structure from an object, or from an array of its fields. -/
def decode (r : Record α) : Decoder α
  | .array items ending => do
    let (rest, x) ← r.readItems ending r.fields items 0 r.blank
    if rest.isEmpty then
      Source.closing ending
      pure x
    else throw (.surplusItems items.length)
  | source => r.decodeObject source

end Record

end StreamTopology
