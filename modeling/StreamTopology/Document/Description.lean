import StreamTopology.Document.Operator
import StreamTopology.Json.Text
import StreamTopology.Topology.Description

/-!
# Topologies in documents

How the description of a topology and its settings are read and written.
-/

namespace StreamTopology

/-- How a checkpoint is read. -/
def Checkpoint.record : Record Checkpoint where
  name := "Checkpoint"
  fields := [("period", true), ("unit", true)]
  blank := { period := 0, unit := .seconds }
  set name value x :=
    match name with
    | "period" => do return { x with period := ← Decoder.int64 value }
    | "unit" => do return { x with unit := ← TimeUnit.decode value }
    | _ => .ok x

/-- Reads a checkpoint. -/
def Checkpoint.decode : Decoder Checkpoint := Checkpoint.record.decode

/-- Writes a checkpoint. -/
def Checkpoint.encode (c : Checkpoint) : Json :=
  .object <|
    Encode.field "period" (.number (.int c.period))
    ++ Encode.field "unit" c.unit.encode

namespace GraphConfig

/-- Reads the members of the settings. Names that are no settings are kept, in order. -/
def readMembers : List (Except TextFault String × Source) → List String → GraphConfig →
    Except DecodeError GraphConfig
  | [], _, x => .ok x
  | (key, value) :: rest, seen, x => do
    let name ← key.mapError .broken
    if seen.contains name then throw (.duplicateField name)
    match name with
    | "topology.vmArgs" =>
      let args ← Decoder.list .string value
      readMembers rest (name :: seen) { x with vmArgs := args }
    | "checkpoint" =>
      let checkpoint ← Decoder.optional Checkpoint.decode value
      readMembers rest (name :: seen) { x with checkpoint := checkpoint }
    | _ =>
      let setting ← Decoder.json value
      readMembers rest seen { x with extra := x.extra.insert name setting }

/-- Reads the settings of a topology, which are always an object. -/
def decode : Decoder GraphConfig
  | .object members ending => do
    let x ← readMembers members [] {}
    Source.closing ending
    pure x
  | source => source.unexpected "struct GraphConfig"

/-- Writes the settings of a topology. -/
def encode (c : GraphConfig) : Json :=
  .object <|
    (if c.vmArgs.isEmpty then [] else Encode.field "topology.vmArgs" (Encode.strings c.vmArgs))
    ++ Encode.optional "checkpoint" Checkpoint.encode c.checkpoint
    ++ c.extra

end GraphConfig

/-- How the description of a topology is read. -/
def Description.record : Record Description where
  name := "GraphDocument"
  fields := [("name", true), ("namespace", false), ("public", false), ("parameters", false),
    ("config", false), ("operators", false)]
  blank := { name := "" }
  set name value x :=
    match name with
    | "name" => do return { x with name := ← Decoder.string value }
    | "namespace" => do return { x with splNamespace := ← Decoder.optional .string value }
    | "public" => do return { x with isPublic := ← Decoder.bool value }
    | "parameters" => do return { x with parameters := ← Parameters.decode value }
    | "config" => do return { x with config := ← GraphConfig.decode value }
    | "operators" => do return { x with operators := ← Decoder.list Operator.decode value }
    | _ => .ok x

/-- Reads the description of a topology. -/
def Description.decode : Decoder Description := Description.record.decode

/-- Writes the description of a topology. -/
def Description.encode (d : Description) : Json :=
  .object <|
    Encode.field "name" (.string d.name)
    ++ Encode.optional "namespace" .string d.splNamespace
    ++ Encode.field "public" (.bool d.isPublic)
    ++ Encode.field "parameters" d.parameters.encode
    ++ Encode.field "config" d.config.encode
    ++ Encode.field "operators" (Encode.list Operator.encode d.operators)

/-- Reads the description of a topology from a value. -/
def Description.ofJson (value : Json) : Except DecodeError Description :=
  Description.decode (Source.ofJson value)

/-- Reads the description of a topology from a text, which must hold nothing else. -/
def Description.ofText (text : String) : Except DecodeError Description := do
  let (source, more) := Source.ofText text
  let d ← Description.decode source
  if more then throw (.broken .malformed)
  pure d

end StreamTopology
