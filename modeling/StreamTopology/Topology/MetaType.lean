/-!
# Meta types

The primitive types of the Streams Processing Language that a literal can be tagged with.
-/

namespace StreamTopology

/-- A primitive type of a literal. -/
inductive MetaType where
  | int8 | int16 | int32 | int64
  | uint8 | uint16 | uint32 | uint64
  | float32 | float64
  | boolean
  | rstring | ustring
  deriving DecidableEq, Repr, Inhabited

namespace MetaType

/-- Every meta type. -/
def all : List MetaType :=
  [.int8, .int16, .int32, .int64, .uint8, .uint16, .uint32, .uint64, .float32, .float64,
   .boolean, .rstring, .ustring]

/-- The name of a meta type in a document. -/
def name : MetaType → String
  | .int8 => "INT8"
  | .int16 => "INT16"
  | .int32 => "INT32"
  | .int64 => "INT64"
  | .uint8 => "UINT8"
  | .uint16 => "UINT16"
  | .uint32 => "UINT32"
  | .uint64 => "UINT64"
  | .float32 => "FLOAT32"
  | .float64 => "FLOAT64"
  | .boolean => "BOOLEAN"
  | .rstring => "RSTRING"
  | .ustring => "USTRING"

/-- The name of the SPL type. -/
def typeText : MetaType → String
  | .int8 => "int8"
  | .int16 => "int16"
  | .int32 => "int32"
  | .int64 => "int64"
  | .uint8 => "uint8"
  | .uint16 => "uint16"
  | .uint32 => "uint32"
  | .uint64 => "uint64"
  | .float32 => "float32"
  | .float64 => "float64"
  | .boolean => "boolean"
  | .rstring => "rstring"
  | .ustring => "ustring"

/-- The meta type with a given document name. -/
def ofName? (s : String) : Option MetaType := all.find? fun m => m.name == s

/-- The unsigned integer types. -/
def isUnsigned : MetaType → Bool
  | .uint8 | .uint16 | .uint32 | .uint64 => true
  | _ => false

/-- The bits of an integer type. -/
def integerWidth? : MetaType → Option Nat
  | .int8 | .uint8 => some 8
  | .int16 | .uint16 => some 16
  | .int32 | .uint32 => some 32
  | .int64 | .uint64 => some 64
  | _ => none

/-- What follows the digits of a literal of a numeric type. -/
def suffix : MetaType → String
  | .int8 => "b"
  | .int16 => "h"
  | .int64 => "l"
  | .uint8 => "ub"
  | .uint16 => "uh"
  | .uint32 => "uw"
  | .uint64 => "ul"
  | .float32 => "w"
  | _ => ""

end MetaType

end StreamTopology
