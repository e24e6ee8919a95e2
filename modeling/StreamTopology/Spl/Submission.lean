import StreamTopology.Graph.Basic
import StreamTopology.Spl.Literal
import StreamTopology.Text.Identifier

/-!
# Submission-time values

A submission parameter becomes a parameter of the composites that use it: the main composite reads
its value when the job is submitted, and the others are given it by the composites that invoke them.

## Main definitions

* `Submission.compositeName`, `Submission.reference`.
* `Submission.mainDefinition`, `Submission.innerDefinition`.
* `SubmissionValues`: the submission parameters of a topology.
-/

namespace StreamTopology

namespace Submission

/-- The name of the composite parameter for a submission parameter. Dots count as underscores. -/
def compositeName (name : String) : String :=
  "__spl_stv_" ++
    Identifier.ofName (String.ofList (name.toList.map fun c => if c = '.' then '_' else c))

/-- The expression that refers to the composite parameter. -/
def reference (name : String) : String := "$" ++ compositeName name

/-- The name of a value class without the package of the language's own classes. -/
def shortClass (valueClass : String) : String :=
  let front := "java.lang.".toList
  if front.isPrefixOf valueClass.toList then
    String.ofList (valueClass.toList.drop front.length)
  else valueClass

/-- The meta type of values of a class. -/
def classMetaType? (unsigned unicode : Bool) : String → Option MetaType
  | "String" => some (if unicode then .ustring else .rstring)
  | "Boolean" => some .boolean
  | "Byte" => some (if unsigned then .uint8 else .int8)
  | "Short" => some (if unsigned then .uint16 else .int16)
  | "Integer" => some (if unsigned then .uint32 else .int32)
  | "Long" => some (if unsigned then .uint64 else .int64)
  | "Float" => some .float32
  | "Double" => some .float64
  | _ => none

/-- The meta type of a submission parameter: the one it names, else that of its value class. -/
def metaType (p : SubmissionParameter) : Except Error MetaType :=
  match p.metaType, p.valueClass with
  | some name, _ =>
    match MetaType.ofName? name with
    | some m => .ok m
    | none => .error (.unmapped (.metaType name))
  | none, none => .error (.unmapped (.untypedSubmission p.name))
  | none, some valueClass =>
    let short := shortClass valueClass
    match classMetaType? (p.typeModifier == some "unsigned") (p.typeModifier == some "ustring")
      short with
    | some m => .ok m
    | none => .error (.unmapped (.unsupportedValueClass p.name short))

/-- The default value in the look-up of a submission-time value. -/
def defaultArgument (type : MetaType) (value : Json) : Except Error String :=
  if type.isUnsigned then (Literal.number value type).map fun text => "(rstring) " ++ text
  else .ok (Quoted.literal (Literal.plainText value))

/-- The arguments of the look-up: the name, and the default value if there is one. -/
def lookupArguments (p : SubmissionParameter) (type : MetaType) : Except Error String :=
  match p.defaultValue with
  | none => .ok (Quoted.literal p.name)
  | some value => do
    let text ← defaultArgument type value
    pure (Quoted.literal p.name ++ ", " ++ text)

/-- The declaration of a composite parameter without its value. -/
def declaration (p : SubmissionParameter) (type : MetaType) : String :=
  "expression<" ++ type.typeText ++ "> " ++ reference p.name

/-- The definition in the main composite, which reads the value when the job is submitted. -/
def mainDefinition (p : SubmissionParameter) : Except Error String := do
  let type ← metaType p
  let arguments ← lookupArguments p type
  pure (declaration p type ++ " : (" ++ type.typeText ++ ") getSubmissionTimeValue(" ++ arguments
    ++ ")")

/-- The declaration in any other composite. -/
def innerDefinition (p : SubmissionParameter) : Except Error String :=
  (metaType p).map (declaration p)

end Submission

/-- The submission parameters of a topology, in the order of their declaration. -/
structure SubmissionValues where
  all : List SubmissionParameter := []
  deriving DecidableEq, Repr, Inhabited

namespace SubmissionValues

/-- There are none. -/
def isEmpty (v : SubmissionValues) : Bool := v.all.isEmpty

/-- The list with a submission parameter at its end, unless it holds one of that name. -/
def addOnce (ps : List SubmissionParameter) (p : SubmissionParameter) : List SubmissionParameter :=
  if ps.any fun q => q.name == p.name then ps else ps ++ [p]

/-- The list with each of further submission parameters added once. -/
def addAll (ps more : List SubmissionParameter) : List SubmissionParameter :=
  more.foldl addOnce ps

/-- The submission parameter behind a parameter of a topology, which must be one. -/
def expectSubmission (entry : String × Parameter) : Except Error SubmissionParameter :=
  match entry.2 with
  | .submission p => .ok p
  | _ => .error (.unmapped (.notASubmission entry.1))

/-- The submission parameters of a topology. It must have no other parameters. -/
def ofParameters (ps : Parameters) : Except Error SubmissionValues := do
  let all ← ps.entries.mapM expectSubmission
  pure ⟨addAll [] all⟩

/-- What functional operators are told about the submission parameters. -/
structure Info where
  names : String
  values : String
  deriving DecidableEq, Repr

/-- The names and the values of all submission parameters, if there are any. -/
def info? (v : SubmissionValues) : Option Info :=
  if v.isEmpty then none
  else some {
    names := ", ".intercalate (v.all.map fun p => Quoted.literal p.name)
    values := ", ".intercalate (v.all.map fun p => "(rstring) " ++ Submission.reference p.name) }

end SubmissionValues

/-- The text of a parameter's value. A submission parameter is a reference to its composite
parameter. -/
def Literal.parameter : Parameter → Except Error String
  | .literal value => Literal.untyped value
  | .typed type value => Literal.typed type value
  | .enumeration text | .splType text | .attribute text | .expression text => .ok text
  | .submission p => .ok (Submission.reference p.name)

end StreamTopology
