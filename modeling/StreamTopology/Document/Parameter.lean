import StreamTopology.Document.Decode
import StreamTopology.Document.Encode

/-!
# Parameters in documents

A parameter is written `{"value": …}`, or `{"value": …, "type": …}` where the type says how the
value is meant.
-/

namespace StreamTopology

/-! ### Submission parameters -/

/-- How a submission parameter is read. -/
def SubmissionParameter.record : Record SubmissionParameter where
  name := "SubmissionParameter"
  fields := [("name", true), ("metaType", false), ("valueClass", false), ("defaultValue", false),
    ("typeModifier", false)]
  blank := { name := "" }
  set name value x :=
    match name with
    | "name" => do return { x with name := ← Decoder.string value }
    | "metaType" => do return { x with metaType := ← Decoder.optional .string value }
    | "valueClass" => do return { x with valueClass := ← Decoder.optional .string value }
    | "defaultValue" => do return { x with defaultValue := ← Decoder.optional .json value }
    | "typeModifier" => do return { x with typeModifier := ← Decoder.optional .string value }
    | _ => .ok x

/-- Reads a submission parameter. -/
def SubmissionParameter.decode : Decoder SubmissionParameter := SubmissionParameter.record.decode

/-- Writes a submission parameter. -/
def SubmissionParameter.encode (p : SubmissionParameter) : Json :=
  .object <|
    Encode.field "name" (.string p.name)
    ++ Encode.optional "metaType" .string p.metaType
    ++ Encode.optional "valueClass" .string p.valueClass
    ++ Encode.optional "defaultValue" id p.defaultValue
    ++ Encode.optional "typeModifier" .string p.typeModifier

/-! ### Parameters -/

/-- The two fields of a written parameter. -/
structure TaggedValue where
  value : Json
  type : Option String := none
  deriving DecidableEq, Repr

namespace TaggedValue

/-- How the fields are read. -/
def record : Record TaggedValue where
  name := "RawParameter"
  fields := [("value", true), ("type", false)]
  blank := { value := .null }
  set name value x :=
    match name with
    | "value" => do return { x with value := ← Decoder.json value }
    | "type" => do return { x with type := ← Decoder.optional .string value }
    | _ => .ok x

/-- The string that a parameter of this type holds. -/
def symbol (type : String) : Json → Except DecodeError String
  | .string s => .ok s
  | other => .error (.unmapped (.symbolNotString type other))

/-- The meta type with this name. -/
def metaType (name : String) : Except DecodeError MetaType :=
  match MetaType.ofName? name with
  | some m => .ok m
  | none => .error (.unmapped (.metaType name))

/-- The parameter that a value wrapped together with its meta type stands for. -/
def unwrap : Json → Except DecodeError Parameter
  | .object members =>
    match Json.Members.get? members "metaType" with
    | some (.string name) => do
      let type ← metaType name
      pure (.typed type ((Json.Members.get? members "value").getD .null))
    | _ => .error (.unmapped .wrappedValueWithoutMetaType)
  | _ => .error (.unmapped .wrappedValueNotObject)

/-- The parameter that the fields stand for. -/
def toParameter (x : TaggedValue) : Except DecodeError Parameter :=
  match x.type with
  | none => .ok (.literal x.value)
  | some "__spl_value" => unwrap x.value
  | some "enum" => (symbol "enum" x.value).map .enumeration
  | some "spltype" => (symbol "spltype" x.value).map .splType
  | some "attribute" => (symbol "attribute" x.value).map .attribute
  | some "splexpr" => (symbol "splexpr" x.value).map .expression
  | some "submissionParameter" =>
    match SubmissionParameter.decode (Source.ofJson x.value) with
    | .ok p => .ok (.submission p)
    | .error e => .error (.nested e)
  | some name => (metaType name).map fun m => .typed m x.value

/-- The fields of a parameter. -/
def ofParameter : Parameter → TaggedValue
  | .literal value => { value := value }
  | .typed m value => { value := value, type := some m.name }
  | .enumeration text => { value := .string text, type := some "enum" }
  | .splType text => { value := .string text, type := some "spltype" }
  | .attribute text => { value := .string text, type := some "attribute" }
  | .expression text => { value := .string text, type := some "splexpr" }
  | .submission p => { value := p.encode, type := some "submissionParameter" }

end TaggedValue

/-- Reads a parameter. -/
def Parameter.decode : Decoder Parameter := fun source => do
  let tagged ← TaggedValue.record.decode source
  tagged.toParameter

/-- Writes a parameter. -/
def Parameter.encode (p : Parameter) : Json :=
  let tagged := TaggedValue.ofParameter p
  .object <|
    Encode.field "value" tagged.value ++ Encode.optional "type" .string tagged.type

/-- Reads the parameters of a map, whose members have been read as values before. -/
def Parameters.decodeMembers : Json.Members → Except DecodeError (List (String × Parameter))
  | [] => .ok []
  | (name, value) :: rest => do
    let p ← (Parameter.decode (Source.ofJson value)).mapError .nested
    let ps ← decodeMembers rest
    pure ((name, p) :: ps)

/-- Reads a map of parameters. -/
def Parameters.decode : Decoder Parameters := fun source => do
  let members ← Decoder.members source
  let entries ← Parameters.decodeMembers members
  pure ⟨entries⟩

/-- Writes a map of parameters. -/
def Parameters.encode (ps : Parameters) : Json :=
  .object (ps.entries.map fun e => (e.1, e.2.encode))

/-- A map of parameters that is written if it is not empty. -/
def Encode.someParameters (name : String) (ps : Parameters) : Json.Members :=
  if ps.isEmpty then [] else [(name, ps.encode)]

end StreamTopology
