import StreamTopology.Graph.Handle
import StreamTopology.Json.Printer
import StreamTopology.Json.Source
import StreamTopology.Text.Diagnostic
import StreamTopology.Topology.Operator

/-!
# Errors

What can go wrong, as causes. The wording of every message is in the `message` functions, and
nowhere else.

## Main definitions

* `Unmapped`: a value that has no counterpart in the generated language.
* `DecodeError`: a document that does not have the expected shape.
* `GraphFault`: a topology that breaks a structural rule.
* `Error`: any failure of an operation of this library.
-/

namespace StreamTopology

/-- A name between single quotes. -/
def quoted (name : String) : String := "'" ++ name ++ "'"

/-- The name of a window policy in messages. -/
def WindowPolicy.title : WindowPolicy → String
  | .count => "Count"
  | .time => "Time"
  | .delta => "Delta"
  | .punctuation => "Punctuation"
  | .none => "None"

/-! ### Values without a counterpart -/

/-- Why a value has no counterpart in the generated language. -/
inductive Unmapped where
  | metaType (name : String)
  | buildStatus (name : String)
  /-- A parameter of this kind needs a string. -/
  | symbolNotString (kind : String) (value : Json)
  | wrappedValueNotObject
  | wrappedValueWithoutMetaType
  | notNumeric (type : MetaType)
  | invalidLiteral (value : Json) (type : MetaType)
  | notALiteral (value : Json)
  | untypedSubmission (name : String)
  | unsupportedValueClass (name valueClass : String)
  | notASubmission (name : String)
  | noEvictionPolicy (operator : String)
  | evictionPolicy (policy : WindowPolicy) (operator : String)
  | triggerPolicy (policy : WindowPolicy) (operator : String)
  | windowSize (policy : WindowPolicy) (operator : String)
  | noTimeUnit (operator : String)
  deriving DecidableEq, Repr

/-- The text of the cause. -/
def Unmapped.message : Unmapped → String
  | .metaType name => "SPL meta type " ++ quoted name
  | .buildStatus name => "build status " ++ quoted name
  | .symbolNotString kind value =>
    quoted kind ++ " parameter must be a string, got " ++ value.render
  | .wrappedValueNotObject => "'__spl_value' parameter must be an object"
  | .wrappedValueWithoutMetaType => "'__spl_value' parameter without metaType"
  | .notNumeric type => type.name ++ " is not a numeric type"
  | .invalidLiteral value type => value.render ++ " is not a valid " ++ type.name ++ " value"
  | .notALiteral value => "cannot render " ++ value.render ++ " as an SPL literal"
  | .untypedSubmission name =>
    "submission parameter " ++ quoted name ++ " has neither metaType nor valueClass"
  | .unsupportedValueClass name valueClass =>
    "submission parameter " ++ quoted name ++ " has unsupported value class " ++ quoted valueClass
  | .notASubmission name => "graph parameter " ++ quoted name ++ " is not a submission parameter"
  | .noEvictionPolicy operator => "window on " ++ quoted operator ++ " has no eviction policy"
  | .evictionPolicy policy operator =>
    "window eviction policy " ++ policy.title ++ " on " ++ quoted operator
  | .triggerPolicy policy operator =>
    "window trigger policy " ++ policy.title ++ " on " ++ quoted operator
  | .windowSize policy operator =>
    "window " ++ policy.title ++ " policy on " ++ quoted operator ++ " needs an integer size"
  | .noTimeUnit operator => "time window policy on " ++ quoted operator ++ " has no time unit"

/-! ### Documents of the wrong shape -/

/-- What stands in a document where something else was expected. -/
inductive Found where
  | null
  | bool (b : Bool)
  | integer (n : Int)
  | float (x : Binary64)
  | string (s : String)
  | sequence
  | map
  deriving DecidableEq, Repr

/-- A text between backquotes. -/
def backquoted (text : String) : String := "\x60" ++ text ++ "\x60"

/-- What stands there, in words. A double is shown as it is written in JSON. -/
def Found.message : Found → String
  | .null => "null"
  | .bool b => "boolean " ++ backquoted (if b then "true" else "false")
  | .integer n => "integer " ++ backquoted (Decimal.intText n)
  | .float x => "floating point " ++ backquoted x.jsonText
  | .string s => "string " ++ Diagnostic.showString s
  | .sequence => "sequence"
  | .map => "map"

/-- Why a document cannot be read as a given type. -/
inductive DecodeError where
  | missingField (name : String)
  | duplicateField (name : String)
  | invalidType (found : Found) (expected : String)
  | invalidValue (found : Found) (expected : String)
  | invalidLength (length : Nat) (expected : String)
  /-- An array holds more items than a structure has fields. -/
  | surplusItems (length : Nat)
  /-- Neither a string nor an object stands for a variant. -/
  | notAVariant (found : Found)
  /-- The object that stands for a variant does not have exactly one key; `fault` is what a reader
  of its text meets first. -/
  | notASingleKey (fault : TextFault)
  | unknownVariant (name : String) (known : List String)
  | noMatchingVariant (type : String)
  /-- The text of the document is broken. -/
  | broken (fault : TextFault)
  /-- The value has the right shape but no meaning. -/
  | unmapped (cause : Unmapped)
  /-- A document inside the document cannot be read. -/
  | nested (inner : DecodeError)
  deriving DecidableEq, Repr

namespace DecodeError

/-- The text of the cause. -/
def message : DecodeError → String
  | .missingField name => "missing field " ++ backquoted name
  | .duplicateField name => "duplicate field " ++ backquoted name
  | .invalidType found expected => "invalid type: " ++ found.message ++ ", expected " ++ expected
  | .invalidValue found expected => "invalid value: " ++ found.message ++ ", expected " ++ expected
  | .invalidLength length expected =>
    "invalid length " ++ Decimal.intText length ++ ", expected " ++ expected
  | .surplusItems length =>
    "invalid length " ++ Decimal.intText length ++ ", expected fewer elements in array"
  | .notAVariant found => "invalid type: " ++ found.message ++ ", expected string or map"
  | .notASingleKey _ => "invalid value: map, expected map with a single key"
  | .unknownVariant name known =>
    "unknown variant " ++ backquoted name ++ ", expected one of "
      ++ ", ".intercalate (known.map backquoted)
  | .noMatchingVariant type => "data did not match any variant of untagged enum " ++ type
  | .broken _ => "broken text"
  | .unmapped cause => "Unmapped type: " ++ cause.message
  | .nested inner => "JSON error: " ++ inner.message

/-- What the error says about the text of the document. In a text, the items of an array are
counted and the variants of an enumeration are told apart by their tokens, so these two errors are
errors of grammar. -/
def fault : DecodeError → TextFault
  | .broken f => f
  | .surplusItems _ | .notAVariant _ => .malformed
  | .notASingleKey f => f
  | _ => .mismatched

end DecodeError

/-! ### Broken structural rules -/

/-- The structural rule that a topology breaks. -/
inductive GraphFault where
  | duplicateName (name : String)
  | unionBeforeEnd (marker : String)
  | fanOutBeforeEnd (parent : String)
  | severalOutputs (operator : String) (outputs : Nat)
  | insertedWithoutPorts (operator : String)
  | adjacentIsolates
  | rejoinedIsolation
  | regionWithoutOutput (marker : String)
  | regionInsideItself (marker : String)
  | endWithoutStart (marker : String)
  | noWidth (operator : String)
  | noHashedPort (operator : String)
  deriving DecidableEq, Repr

/-- The text of the cause. -/
def GraphFault.message : GraphFault → String
  | .duplicateName name => "duplicate operator name " ++ quoted name
  | .unionBeforeEnd marker =>
    quoted marker ++ ": cannot union multiple streams before ending a parallel region"
  | .fanOutBeforeEnd parent =>
    quoted parent ++ ": cannot fan out a stream before ending a parallel region"
  | .severalOutputs operator outputs =>
    "cannot splice out " ++ quoted operator ++ ": " ++ Decimal.intText outputs
      ++ " output ports, at most one is supported"
  | .insertedWithoutPorts operator =>
    "cannot insert " ++ quoted operator ++ ": needs an input and an output port"
  | .adjacentIsolates =>
    "Cannot put \"isolate\" regions immediately adjacent to each other. "
      ++ "E.g -- .isolate().isolate()"
  | .rejoinedIsolation =>
    "Invalid isolation configuration. An isolated region is joined with a non-isolated region."
  | .regionWithoutOutput marker => quoted marker ++ " has no output port"
  | .regionInsideItself marker => quoted marker ++ " starts a parallel region inside itself"
  | .endWithoutStart marker => quoted marker ++ " ends a parallel region that was never started"
  | .noWidth operator => "parallel operator " ++ quoted operator ++ " has no width"
  | .noHashedPort operator =>
    "partitioned parallel operator " ++ quoted operator ++ " has no hashed input port"

/-! ### All failures -/

/-- A failure of an operation. -/
inductive Error where
  | invalidGraph (cause : GraphFault)
  | unmapped (cause : Unmapped)
  | operatorNotFound (what : String)
  | buildTimeout (what : String)
  | io (what : String)
  | document (cause : DecodeError)
  /-- An operator is looked up by a handle whose place in the arena is vacant. -/
  | deadHandle (id : Handle)
  deriving DecidableEq, Repr

/-- The text of a failure. -/
def Error.message : Error → String
  | .invalidGraph cause => "Invalid graph: " ++ cause.message
  | .unmapped cause => "Unmapped type: " ++ cause.message
  | .operatorNotFound what => "Operator not found: " ++ what
  | .buildTimeout what => "Build did not finish: " ++ what
  | .io what => "IO error: " ++ what
  | .document cause => "JSON error: " ++ cause.message
  | .deadHandle id => "no operator at " ++ id.text

end StreamTopology
