import StreamTopology.Graph.Walk
import StreamTopology.Text.Identifier

/-!
# Threaded ports

An operator with a single input port may ask for a thread of its own behind that port. The request
is dropped where a process boundary already separates the threads, and inside low latency regions;
elsewhere it becomes a queue in the operator's configuration. A functional operator realises the
queue by itself, through a parameter that goes when the request goes.
-/

namespace StreamTopology

namespace ThreadedPorts

/-- The parameter of functional operators that holds the size of the queue. -/
def queueSizeParameter : String := "queueSize"

/-- The queue that a request becomes. -/
def defaultQueue (port : InputPort) : Queue where
  queueSize := 100
  inputPortName := Identifier.ofBasename (port.reference?.getD port.name)
  congestionPolicy := "Sys.Wait"

/-- The operator without its request. -/
def drop (functional : Bool) (op : Operator) : Operator :=
  { op with
    inputs := op.inputs.map fun p => { p with queue := none }
    parameters := if functional then op.parameters.erase queueSizeParameter else op.parameters }

/-- The operator with a queue in its configuration, its own if it has one. -/
def configure (port : InputPort) (op : Operator) : Operator :=
  { op with config := { op.config with queue := op.config.queue.or (some (defaultQueue port)) } }

/-- Some of these parents runs in another process than an operator with this colocation. Markers do
not count. -/
def crossesProcess (colocation : Option String) (parents : List Operator) : Bool :=
  parents.any fun p => p.marker?.isNone && p.placement.colocation? != colocation

/-- Settles the request of one operator, if it has one, and says whether it was dropped. -/
def settle (id : Handle) : GraphM Bool := do
  let op ← GraphM.lookup id
  match op.inputs with
  | [port] =>
    match port.queue with
    | none => pure false
    | some request =>
      let parents ← ((← get).parents id).mapM GraphM.lookup
      if op.placement.lowLatencyRegion?.isSome
          || crossesProcess op.placement.colocation? parents then
        GraphM.update id (drop request.functional)
        pure true
      else
        if !request.functional then GraphM.update id (configure port)
        pure false
  | _ => pure false

/-- Settles the requests of all operators connected to a source. The result is the number of
requests dropped. -/
def run : GraphM Nat := do
  let g ← get
  let dropped ← (g.walk (Bounds.around []) g.sources).mapM settle
  pure (dropped.countP id)

end ThreadedPorts

end StreamTopology
