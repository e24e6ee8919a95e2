import StreamTopology.Number.Decimal
import StreamTopology.Topology.Parameter
import StreamTopology.Topology.Placement
import StreamTopology.Topology.Window

/-!
# Operators

The nodes of a topology: operators with their ports, parameters and annotations. Some operators are
*virtual markers*, which say something about the streams that pass through them and never reach the
generated source.

## Main definitions

* `Marker`: the virtual kinds.
* `InputPort`, `OutputPort`: a port and the names of the ports it is connected to.
* `Operator`, with `Operator.copyAs`.
-/

namespace StreamTopology

/-- A virtual operator kind. -/
inductive Marker where
  | isolate
  | parallel
  | endParallel
  | union
  | pending
  | lowLatency
  | endLowLatency
  | autonomous
  deriving DecidableEq, Repr, Inhabited

namespace Marker

/-- Every virtual kind. -/
def all : List Marker :=
  [.isolate, .parallel, .endParallel, .union, .pending, .lowLatency, .endLowLatency, .autonomous]

/-- The kind of the marker's operators in a document. -/
def kind : Marker → String
  | .isolate => "$Isolate$"
  | .parallel => "$Parallel$"
  | .endParallel => "$EndParallel$"
  | .union => "$Union$"
  | .pending => "$Pending$"
  | .lowLatency => "$LowLatency$"
  | .endLowLatency => "$EndLowLatency$"
  | .autonomous => "$Autonomous$"

/-- The marker with a given kind. -/
def ofKind? (kind : String) : Option Marker := all.find? fun m => m.kind == kind

end Marker

/-! ### Ports -/

/-- A request to let a thread of its own serve an input port. -/
structure ThreadedPort where
  /-- The queue is a parameter of the functional operator, not part of the SPL configuration. -/
  functional : Bool := false
  deriving DecidableEq, Repr, Inhabited

/-- An input port, connected to the output ports it reads from. -/
structure InputPort where
  name : String
  schema : String := ""
  index : Option Nat := none
  connections : List String := []
  aliasName : Option String := none
  window : Option Window := none
  queue : Option ThreadedPort := none
  deriving DecidableEq, Repr, Inhabited

/-- The name by which SPL refers to an input port: its alias, else the first stream it reads. -/
def InputPort.reference? (port : InputPort) : Option String :=
  port.aliasName.or port.connections.head?

/-- The number of channels of a parallel region. -/
inductive Width where
  | fixed (channels : Nat)
  | parameter (parameter : Parameter)
  deriving DecidableEq, Repr, Inhabited

/-- An output port, connected to the input ports that read it. -/
structure OutputPort where
  name : String
  schema : String := ""
  index : Option Nat := none
  connections : List String := []
  nativeType : Option String := none
  width : Option Width := none
  partitioned : Bool := false
  /-- The partitioning attributes of a region that starts here; none means the hash attribute. -/
  partitionedKeys : List String := []
  /-- The streams of a region that starts here which every channel receives. -/
  broadcastPorts : List String := []
  assigns : Parameters := {}
  deriving DecidableEq, Repr, Inhabited

/-! ### Operators -/

/-- A queue in front of an input port. -/
structure Queue where
  queueSize : Nat
  inputPortName : String
  congestionPolicy : String
  deriving DecidableEq, Repr, Inhabited

/-- A view on an output port. -/
structure View where
  name : String
  port : String
  description : Option String := none
  bufferTime : Binary64
  sampleSize : Int
  activateOption : Option String := none
  deriving DecidableEq, Repr, Inhabited

/-- The configuration of an operator. -/
structure OperatorConfig where
  placement : Placement := {}
  streamViewability : Option Bool := none
  queue : Option Queue := none
  views : List View := []
  deriving DecidableEq, Repr, Inhabited

/-- Membership in a consistent region. -/
structure Consistent where
  /-- Seconds between triggers; the operator triggers by itself when absent. -/
  period : Option Binary64 := none
  drainTimeout : Binary64
  resetTimeout : Binary64
  maxConsecutiveResetAttempts : Binary64
  deriving DecidableEq, Repr, Inhabited

/-- A threading model. -/
structure Threading where
  model : String
  deriving DecidableEq, Repr, Inhabited

/-- A node of a topology. -/
structure Operator where
  name : String
  kind : String
  model : Option String := none
  language : Option String := none
  category : Option String := none
  sourceLocations : List Json := []
  layout : Option Json.Members := none
  inputs : List InputPort := []
  outputs : List OutputPort := []
  parameters : Parameters := {}
  config : OperatorConfig := {}
  parallelOperator : Bool := false
  width : Option Width := none
  partitioned : Bool := false
  parallelInputPortName : Option String := none
  partitionedKeys : List String := []
  broadcastPorts : List String := []
  lowLatency : Bool := false
  autonomous : Bool := false
  hashAdder : Bool := false
  consistent : Option Consistent := none
  threading : Option Threading := none
  deriving DecidableEq, Repr, Inhabited

namespace Operator

/-- The virtual kind of the operator. -/
def marker? (op : Operator) : Option Marker := Marker.ofKind? op.kind

/-- The operator is a marker of this kind. -/
def isMarker (op : Operator) (m : Marker) : Bool := op.kind == m.kind

/-- The operator adds the hash attribute that partitioned regions need. -/
def isHashAdder (op : Operator) : Bool :=
  op.hashAdder || "::HashAdder".toList.isSuffixOf op.kind.toList

/-- The operator runs a function given by the user. -/
def isFunctional (op : Operator) : Bool := op.model == some "functional"

/-- The operator runs in a Java virtual machine. -/
def isJava (op : Operator) : Bool := op.language == some "java"

/-- The operator's placement. -/
def placement (op : Operator) : Placement := op.config.placement

/-- The operator with another placement. -/
def mapPlacement (f : Placement → Placement) (op : Operator) : Operator :=
  { op with config := { op.config with placement := f op.config.placement } }

/-- The name of a port of a copied operator. -/
def copiedPortName (name mark : String) (index : Option Nat) (position : Nat) : String :=
  name ++ mark ++ Decimal.intText (index.getD position)

/-- A copy under another name. Its ports are named after it and have no connections. -/
def copyAs (op : Operator) (name : String) : Operator :=
  { op with
    name := name
    inputs := op.inputs.mapIdx fun i p =>
      { p with name := copiedPortName name "_IN" p.index i, connections := [] }
    outputs := op.outputs.mapIdx fun i p =>
      { p with name := copiedPortName name "_OUT" p.index i, connections := [] } }

end Operator

end StreamTopology
