import StreamTopology.Composite.Separation

/-!
# Annotations

What stands above the invocation of an operator: notes for tools, the category, parallelism, views
and consistent regions. Each annotation is a line of its own.
-/

namespace StreamTopology

namespace Annotation

/-- A line that starts with an at sign. -/
def line (name arguments : String) : String := "@" ++ name ++ "(" ++ arguments ++ ")\n"

/-! ### Notes -/

/-- A note of a given kind. -/
def note (id text : String) : String :=
  line "spl_note" ("id=\"" ++ id ++ "\", text=" ++ Quoted.literal text)

/-- Records a name in the names of a layout, if its identifier differs: the identifier stands for
what the name stood for so far, else for the name itself. -/
def mapName (layout : Json.Members) (name : String) : Json.Members :=
  let id := Identifier.ofName name
  if id = name then layout
  else
    let names : Json.Members :=
      match layout.get? "names" with
      | some (.object ms) => ms
      | _ => []
    let meaning := (names.get? name).getD (.string name)
    layout.insert "names" (.object ((names.swapRemove name).insert id meaning))

/-- The names that an operator brings into the generated source. -/
def introducedNames (op : Operator) : List String :=
  op.name :: (op.outputs.map OutputPort.name ++ op.inputs.filterMap InputPort.reference?)

/-- The layout of an operator with its escaped names mapped back to the names they stand for. -/
def layoutOf (op : Operator) (layout : Json.Members) : Json.Members :=
  (introducedNames op).foldl mapName layout

/-- The note that holds the layout. -/
def layoutNote (op : Operator) : String :=
  match op.layout with
  | none => ""
  | some layout => note "__spl_layout" (Json.object (layoutOf op layout)).render

/-- The note that says where the operator comes from. A single location is written by itself. -/
def locationNote (op : Operator) : String :=
  match op.sourceLocations with
  | [] => ""
  | [location] => note "__spl_sourcelocation" location.render
  | locations => note "__spl_sourcelocation" (Json.array locations).render

/-- The notes with the native types of the output ports. -/
def nativeTypeNotes (op : Operator) : String :=
  String.join <| op.outputs.mapIdx fun i port =>
    match nonEmpty? port.nativeType with
    | none => ""
    | some type => note ("__spl_nativeType_output_" ++ Decimal.intText i) type

/-! ### Other annotations -/

/-- The category. -/
def category (op : Operator) : String :=
  match nonEmpty? op.category with
  | none => ""
  | some name => line "spl_category" ("name=" ++ Quoted.literal name)

/-- The number of channels of a parallel operator. -/
def widthText (op : Operator) : Except Error String :=
  match op.width with
  | some (.fixed n) => .ok (Decimal.intText n)
  | some (.parameter p) => Literal.parameter p
  | none => .error (.invalidGraph (.noWidth op.name))

/-- How the stream into a partitioned region is split. -/
def partitionText (op : Operator) : Except Error String :=
  if op.partitioned then
    match op.parallelInputPortName with
    | none => .error (.invalidGraph (.noHashedPort op.name))
    | some port =>
      let attributes :=
        if op.partitionedKeys.isEmpty then Composite.hashAttribute
        else ", ".intercalate op.partitionedKeys
      .ok (", partitionBy=[\x7bport=" ++ Identifier.ofBasename port ++ ", attributes=["
        ++ attributes ++ "]\x7d]")
  else .ok ""

/-- The streams that every channel receives. -/
def broadcastText (op : Operator) : String :=
  if op.broadcastPorts.isEmpty then ""
  else ", broadcast=[" ++ ", ".intercalate (op.broadcastPorts.map Identifier.ofBasename) ++ "]"

/-- The annotation of a parallel operator. -/
def parallel (op : Operator) : Except Error String :=
  if op.parallelOperator then do
    let width ← widthText op
    let partition ← partitionText op
    pure (line "parallel" ("width=" ++ width ++ partition ++ broadcastText op))
  else .ok ""

/-- A threading model. -/
def threading (model : String) : String := line "threading" ("model=" ++ model)

/-- A view. -/
def view (v : View) : String :=
  line "view" <|
    "name = " ++ Quoted.literal v.name
    ++ ((v.description.map fun d => ", description = " ++ Quoted.literal d).getD "")
    ++ ", port = " ++ v.port
    ++ ", bufferTime = " ++ Literal.double v.bufferTime
    ++ ", sampleSize = " ++ Decimal.intText v.sampleSize
    ++ ((v.activateOption.map fun a => ", activateOption = " ++ a).getD "")

/-- Membership in a consistent region. -/
def consistent (c : Consistent) : String :=
  let trigger :=
    match c.period with
    | some period => "trigger=periodic,period=" ++ Literal.double period
    | none => "trigger=operatorDriven"
  line "consistent" <|
    trigger
    ++ ",drainTimeout=" ++ Literal.double c.drainTimeout
    ++ ",resetTimeout=" ++ Literal.double c.resetTimeout
    ++ ",maxConsecutiveResetAttempts=" ++ Literal.double c.maxConsecutiveResetAttempts

/-- All annotations of an operator, in order. -/
def all (op : Operator) : Except Error String := do
  let parallel ← parallel op
  pure <|
    layoutNote op ++ locationNote op ++ nativeTypeNotes op ++ category op ++ parallel
    ++ (if op.lowLatency then threading "manual" else "")
    ++ String.join (op.config.views.map view)
    ++ ((op.consistent.map consistent).getD "")
    ++ (if op.autonomous then "@autonomous\n" else "")
    ++ ((op.threading.map fun t => threading t.model).getD "")

end Annotation

end StreamTopology
