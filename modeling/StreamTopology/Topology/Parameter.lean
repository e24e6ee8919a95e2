import StreamTopology.Json.Value
import StreamTopology.Topology.MetaType

/-!
# Parameters

Values of operator, composite and output parameters, and the ordered maps that hold them.

## Main definitions

* `SubmissionParameter`: a value that is supplied when the job is submitted.
* `Parameter`: a literal, an SPL symbol or expression, or a submission parameter.
* `Parameters`: a map that keeps its entries in the order in which their names came in.
-/

namespace StreamTopology

/-- A parameter whose value is supplied when the job is submitted. -/
structure SubmissionParameter where
  name : String
  metaType : Option String := none
  /-- The class of the value's carrier, for parameters without a meta type. -/
  valueClass : Option String := none
  defaultValue : Option Json := none
  typeModifier : Option String := none
  deriving DecidableEq, Repr, Inhabited

/-- The value of an operator, composite or output parameter. -/
inductive Parameter where
  /-- A value without a type of its own. -/
  | literal (value : Json)
  /-- A value with an explicit type. -/
  | typed (metaType : MetaType) (value : Json)
  /-- A custom literal of an enumeration. -/
  | enumeration (text : String)
  | splType (text : String)
  | attribute (text : String)
  /-- An SPL expression, emitted as it stands. -/
  | expression (text : String)
  | submission (parameter : SubmissionParameter)
  deriving DecidableEq, Repr, Inhabited

/-- The submission parameter that a parameter is. -/
def Parameter.submission? : Parameter → Option SubmissionParameter
  | .submission p => some p
  | _ => none

/-- Parameters by name, in the order in which the names came in. -/
structure Parameters where
  entries : List (String × Parameter) := []
  deriving DecidableEq, Repr, Inhabited

namespace Parameters

/-- No parameters. -/
def empty : Parameters := ⟨[]⟩

/-- Number of parameters. -/
def size (ps : Parameters) : Nat := ps.entries.length

/-- There are no parameters. -/
def isEmpty (ps : Parameters) : Bool := ps.entries.isEmpty

/-- The parameter with a name. -/
def get? (ps : Parameters) (name : String) : Option Parameter :=
  (ps.entries.find? fun e => e.1 == name).map Prod.snd

/-- A parameter with this name is present. -/
def contains (ps : Parameters) (name : String) : Bool := (ps.get? name).isSome

/-- Sets a name in a list of entries: in its place if present, else at the end. -/
def insertEntry (name : String) (p : Parameter) :
    List (String × Parameter) → List (String × Parameter)
  | [] => [(name, p)]
  | e :: es => if e.1 = name then (name, p) :: es else e :: insertEntry name p es

/-- Sets a parameter. A name that is present keeps its place. -/
def insert (ps : Parameters) (name : String) (p : Parameter) : Parameters :=
  ⟨insertEntry name p ps.entries⟩

/-- Removes the parameter with a name; the others keep their order. -/
def erase (ps : Parameters) (name : String) : Parameters :=
  ⟨ps.entries.eraseP fun e => e.1 == name⟩

/-- The parameters of a list of pairs, where a later one takes the place of an earlier one of the
same name. -/
def ofList (pairs : List (String × Parameter)) : Parameters :=
  pairs.foldl (fun ps e => ps.insert e.1 e.2) empty

end Parameters

end StreamTopology
