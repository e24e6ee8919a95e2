import StreamTopology.Graph.Basic

/-!
# Passing tuples by reference

A functional operator of Python may hand objects to its consumers as they are, if all of them take
references. The parameter `outputConnections` says so: for each output port the number of ports that
read it, or `-1` where tuples must be copied.
-/

namespace StreamTopology

namespace PassByReference

/-- Splits a text, given backwards, at the first `::` from its end. -/
def splitReversed : List Char → List Char → Option (List Char × List Char)
  | ':' :: ':' :: rest, name => some (rest.reverse, name)
  | c :: rest, name => splitReversed rest (c :: name)
  | [], _ => none

/-- The namespace and the name of an operator kind. -/
def kindParts? (kind : String) : Option (String × String) :=
  (splitReversed kind.toList.reverse []).map fun p => (String.ofList p.1, String.ofList p.2)

/-- The namespaces of the functional operators of Python. -/
def namespaces : List String :=
  ["com.ibm.streamsx.topology.functional.python", "com.ibm.streamsx.topology.functional.python2"]

/-- The names of the functional operators. -/
def functionalNames : List String := ["Source", "Filter", "Map", "FlatMap", "ForEach", "Aggregate"]

/-- The functional operators that take tuples by reference. -/
def referenceNames : List String := ["Map", "ForEach", "FlatMap", "Aggregate"]

/-- The kind is that of a functional operator of Python. -/
def isFunctionalKind (kind : String) : Bool :=
  match kindParts? kind with
  | some (ns, name) => namespaces.contains ns && functionalNames.contains name
  | none => false

/-- Operators of this kind take tuples by reference. -/
def acceptsReference (kind : String) : Bool :=
  isFunctionalKind kind &&
    match kindParts? kind with
    | some (_, name) => referenceNames.contains name
    | none => false

/-- The schema of streams of objects. -/
def objectSchema : String := "tuple<blob __spl_po>"

/-- The parameter that holds the entries. -/
def parameterName : String := "outputConnections"

/-- The entry of an output port: the ports that read it, or `-1`. -/
def entry (consumersAccept : Bool) (port : OutputPort) : Int :=
  if port.schema != objectSchema then -1
  else if port.connections.isEmpty then 0
  else if consumersAccept then port.connections.length
  else -1

/-- The value of the parameter: the entry of a single port, a list of several. -/
def parameterOf (entries : List Int) : Parameter :=
  match entries with
  | [n] => .literal (.number (.int n))
  | ns => .literal (.array (ns.map fun n => .number (.int n)))

/-- Sets the parameter of one operator where it says anything, and says whether it did. -/
def annotate (id : Handle) : GraphM Bool := do
  let op ← GraphM.lookup id
  if isFunctionalKind op.kind && !op.outputs.isEmpty then
    let consumers ← ((← get).children id).mapM GraphM.lookup
    let entries := op.outputs.map (entry (consumers.all fun c => acceptsReference c.kind))
    if entries.all fun n => n == -1 then pure false
    else
      GraphM.update id fun op =>
        { op with parameters := op.parameters.insert parameterName (parameterOf entries) }
      pure true
  else pure false

/-- Sets the parameter of all operators. The result is the number of operators changed. -/
def run : GraphM Nat := do
  let changed ← (← get).order.mapM annotate
  pure (changed.countP id)

end PassByReference

end StreamTopology
