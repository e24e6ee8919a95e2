import StreamTopology.Document.Parameter

/-!
# Operators in documents

How operators and their parts are read and written: windows, ports, placement, configuration.
-/

namespace StreamTopology

/-! ### Windows -/

/-- The written names of the window types. -/
def WindowType.variants : List (String × WindowType) :=
  [("SLIDING", .sliding), ("TUMBLING", .tumbling), ("NOT_WINDOWED", .notWindowed)]

/-- Writes a window type. -/
def WindowType.encode : WindowType → Json
  | .sliding => .string "SLIDING"
  | .tumbling => .string "TUMBLING"
  | .notWindowed => .string "NOT_WINDOWED"

/-- Reads a window type. -/
def WindowType.decode : Decoder WindowType := Decoder.enumeration WindowType.variants

/-- The written names of the window policies. -/
def WindowPolicy.variants : List (String × WindowPolicy) :=
  [("COUNT", .count), ("TIME", .time), ("DELTA", .delta), ("PUNCTUATION", .punctuation),
   ("NONE", .none)]

/-- Writes a window policy. -/
def WindowPolicy.encode : WindowPolicy → Json
  | .count => .string "COUNT"
  | .time => .string "TIME"
  | .delta => .string "DELTA"
  | .punctuation => .string "PUNCTUATION"
  | .none => .string "NONE"

/-- Reads a window policy. -/
def WindowPolicy.decode : Decoder WindowPolicy := Decoder.enumeration WindowPolicy.variants

/-- The written names of the time units. -/
def TimeUnit.variants : List (String × TimeUnit) :=
  [("DAYS", .days), ("HOURS", .hours), ("MINUTES", .minutes), ("SECONDS", .seconds),
   ("MILLISECONDS", .milliseconds), ("MICROSECONDS", .microseconds),
   ("NANOSECONDS", .nanoseconds)]

/-- Writes a time unit. -/
def TimeUnit.encode : TimeUnit → Json
  | .days => .string "DAYS"
  | .hours => .string "HOURS"
  | .minutes => .string "MINUTES"
  | .seconds => .string "SECONDS"
  | .milliseconds => .string "MILLISECONDS"
  | .microseconds => .string "MICROSECONDS"
  | .nanoseconds => .string "NANOSECONDS"

/-- Reads a time unit. -/
def TimeUnit.decode : Decoder TimeUnit := Decoder.enumeration TimeUnit.variants

/-- How a window is read. -/
def Window.record : Record Window where
  name := "Window"
  fields := [("type", true), ("evictPolicy", false), ("evictConfig", false),
    ("evictTimeUnit", false), ("triggerPolicy", false), ("triggerConfig", false),
    ("triggerTimeUnit", false), ("partitioned", false)]
  blank := { kind := .sliding }
  set name value x :=
    match name with
    | "type" => do return { x with kind := ← WindowType.decode value }
    | "evictPolicy" => do
      return { x with evictPolicy := ← Decoder.optional WindowPolicy.decode value }
    | "evictConfig" => do return { x with evictConfig := ← Decoder.optional .json value }
    | "evictTimeUnit" => do
      return { x with evictTimeUnit := ← Decoder.optional TimeUnit.decode value }
    | "triggerPolicy" => do
      return { x with triggerPolicy := ← Decoder.optional WindowPolicy.decode value }
    | "triggerConfig" => do return { x with triggerConfig := ← Decoder.optional .json value }
    | "triggerTimeUnit" => do
      return { x with triggerTimeUnit := ← Decoder.optional TimeUnit.decode value }
    | "partitioned" => do return { x with partitioned := ← Decoder.bool value }
    | _ => .ok x

/-- Reads a window. -/
def Window.decode : Decoder Window := Window.record.decode

/-- Writes a window. -/
def Window.encode (w : Window) : Json :=
  .object <|
    Encode.field "type" w.kind.encode
    ++ Encode.optional "evictPolicy" WindowPolicy.encode w.evictPolicy
    ++ Encode.optional "evictConfig" id w.evictConfig
    ++ Encode.optional "evictTimeUnit" TimeUnit.encode w.evictTimeUnit
    ++ Encode.optional "triggerPolicy" WindowPolicy.encode w.triggerPolicy
    ++ Encode.optional "triggerConfig" id w.triggerConfig
    ++ Encode.optional "triggerTimeUnit" TimeUnit.encode w.triggerTimeUnit
    ++ Encode.field "partitioned" (.bool w.partitioned)

/-! ### Ports -/

/-- How a threaded port request is read. -/
def ThreadedPort.record : Record ThreadedPort where
  name := "ThreadedPort"
  fields := [("functional", false)]
  blank := {}
  set name value x :=
    match name with
    | "functional" => do return { x with functional := ← Decoder.bool value }
    | _ => .ok x

/-- Reads a threaded port request. -/
def ThreadedPort.decode : Decoder ThreadedPort := ThreadedPort.record.decode

/-- Writes a threaded port request. -/
def ThreadedPort.encode (t : ThreadedPort) : Json :=
  .object (Encode.field "functional" (.bool t.functional))

/-- How an input port is read. -/
def InputPort.record : Record InputPort where
  name := "InputPort"
  fields := [("name", true), ("type", false), ("index", false), ("connections", false),
    ("alias", false), ("window", false), ("queue", false)]
  blank := { name := "" }
  set name value x :=
    match name with
    | "name" => do return { x with name := ← Decoder.string value }
    | "type" => do return { x with schema := ← Decoder.string value }
    | "index" => do return { x with index := ← Decoder.optional .size value }
    | "connections" => do return { x with connections := ← Decoder.list .string value }
    | "alias" => do return { x with aliasName := ← Decoder.optional .string value }
    | "window" => do return { x with window := ← Decoder.optional Window.decode value }
    | "queue" => do return { x with queue := ← Decoder.optional ThreadedPort.decode value }
    | _ => .ok x

/-- Reads an input port. -/
def InputPort.decode : Decoder InputPort := InputPort.record.decode

/-- Writes an input port. -/
def InputPort.encode (p : InputPort) : Json :=
  .object <|
    Encode.field "name" (.string p.name)
    ++ Encode.field "type" (.string p.schema)
    ++ Encode.optional "index" Encode.nat p.index
    ++ Encode.field "connections" (Encode.strings p.connections)
    ++ Encode.optional "alias" .string p.aliasName
    ++ Encode.optional "window" Window.encode p.window
    ++ Encode.optional "queue" ThreadedPort.encode p.queue

/-- The number of channels, if the value is one. -/
def Width.ofJson? : Json → Option Width
  | .number (.int n) => if 0 ≤ n then some (.fixed n.toNat) else none
  | _ => none

/-- Reads a width: a number of channels, else a parameter. -/
def Width.decode : Decoder Width := fun source => do
  let value ← Decoder.json source
  match Width.ofJson? value with
  | some w => pure w
  | none =>
    match Parameter.decode source with
    | .ok p => pure (.parameter p)
    | .error _ => throw (.noMatchingVariant "Width")

/-- Writes a width. -/
def Width.encode : Width → Json
  | .fixed n => Encode.nat n
  | .parameter p => p.encode

/-- How an output port is read. -/
def OutputPort.record : Record OutputPort where
  name := "OutputPort"
  fields := [("name", true), ("type", false), ("index", false), ("connections", false),
    ("type.native", false), ("width", false), ("partitioned", false), ("partitionedKeys", false),
    ("broadcastPorts", false), ("assigns", false)]
  blank := { name := "" }
  set name value x :=
    match name with
    | "name" => do return { x with name := ← Decoder.string value }
    | "type" => do return { x with schema := ← Decoder.string value }
    | "index" => do return { x with index := ← Decoder.optional .size value }
    | "connections" => do return { x with connections := ← Decoder.list .string value }
    | "type.native" => do return { x with nativeType := ← Decoder.optional .string value }
    | "width" => do return { x with width := ← Decoder.optional Width.decode value }
    | "partitioned" => do return { x with partitioned := ← Decoder.bool value }
    | "partitionedKeys" => do return { x with partitionedKeys := ← Decoder.list .string value }
    | "broadcastPorts" => do return { x with broadcastPorts := ← Decoder.list .string value }
    | "assigns" => do return { x with assigns := ← Parameters.decode value }
    | _ => .ok x

/-- Reads an output port. -/
def OutputPort.decode : Decoder OutputPort := OutputPort.record.decode

/-- Writes an output port. -/
def OutputPort.encode (p : OutputPort) : Json :=
  .object <|
    Encode.field "name" (.string p.name)
    ++ Encode.field "type" (.string p.schema)
    ++ Encode.optional "index" Encode.nat p.index
    ++ Encode.field "connections" (Encode.strings p.connections)
    ++ Encode.optional "type.native" .string p.nativeType
    ++ Encode.optional "width" Width.encode p.width
    ++ Encode.field "partitioned" (.bool p.partitioned)
    ++ Encode.someStrings "partitionedKeys" p.partitionedKeys
    ++ Encode.someStrings "broadcastPorts" p.broadcastPorts
    ++ Encode.someParameters "assigns" p.assigns

/-! ### Configuration -/

/-- How a placement is read. -/
def Placement.record : Record Placement where
  name := "Placement"
  fields := [("isolateRegion", false), ("lowLatencyRegion", false), ("explicitColocate", false),
    ("colocateKey", false), ("resourceTags", false)]
  blank := {}
  set name value x :=
    match name with
    | "isolateRegion" => do
      return { x with isolateRegionId := ← Decoder.optional .string value }
    | "lowLatencyRegion" => do
      return { x with lowLatencyRegionId := ← Decoder.optional .string value }
    | "explicitColocate" => do return { x with explicitTag := ← Decoder.optional .string value }
    | "colocateKey" => do return { x with colocateKey := ← Decoder.optional .string value }
    | "resourceTags" => do return { x with resourceTags := ← Decoder.list .string value }
    | _ => .ok x

/-- Reads a placement. -/
def Placement.decode : Decoder Placement := Placement.record.decode

/-- Writes a placement. -/
def Placement.encode (p : Placement) : Json :=
  .object <|
    Encode.optional "isolateRegion" .string p.isolateRegionId
    ++ Encode.optional "lowLatencyRegion" .string p.lowLatencyRegionId
    ++ Encode.optional "explicitColocate" .string p.explicitTag
    ++ Encode.optional "colocateKey" .string p.colocateKey
    ++ Encode.someStrings "resourceTags" p.resourceTags

/-- How a queue is read. -/
def Queue.record : Record Queue where
  name := "QueueConfig"
  fields := [("queueSize", true), ("inputPortName", true), ("congestionPolicy", true)]
  blank := { queueSize := 0, inputPortName := "", congestionPolicy := "" }
  set name value x :=
    match name with
    | "queueSize" => do return { x with queueSize := ← Decoder.uint32 value }
    | "inputPortName" => do return { x with inputPortName := ← Decoder.string value }
    | "congestionPolicy" => do return { x with congestionPolicy := ← Decoder.string value }
    | _ => .ok x

/-- Reads a queue. -/
def Queue.decode : Decoder Queue := Queue.record.decode

/-- Writes a queue. -/
def Queue.encode (q : Queue) : Json :=
  .object <|
    Encode.field "queueSize" (Encode.nat q.queueSize)
    ++ Encode.field "inputPortName" (.string q.inputPortName)
    ++ Encode.field "congestionPolicy" (.string q.congestionPolicy)

/-- How a view is read. -/
def View.record : Record View where
  name := "ViewConfig"
  fields := [("name", true), ("port", true), ("description", false), ("bufferTime", true),
    ("sampleSize", true), ("activateOption", false)]
  blank := { name := "", port := "", bufferTime := default, sampleSize := 0 }
  set name value x :=
    match name with
    | "name" => do return { x with name := ← Decoder.string value }
    | "port" => do return { x with port := ← Decoder.string value }
    | "description" => do return { x with description := ← Decoder.optional .string value }
    | "bufferTime" => do return { x with bufferTime := ← Decoder.binary64 value }
    | "sampleSize" => do return { x with sampleSize := ← Decoder.int64 value }
    | "activateOption" => do
      return { x with activateOption := ← Decoder.optional .string value }
    | _ => .ok x

/-- Reads a view. -/
def View.decode : Decoder View := View.record.decode

/-- Writes a double. -/
def Encode.binary64 (x : Binary64) : Json := .number (.float x)

/-- Writes a view. -/
def View.encode (v : View) : Json :=
  .object <|
    Encode.field "name" (.string v.name)
    ++ Encode.field "port" (.string v.port)
    ++ Encode.optional "description" .string v.description
    ++ Encode.field "bufferTime" (Encode.binary64 v.bufferTime)
    ++ Encode.field "sampleSize" (.number (.int v.sampleSize))
    ++ Encode.optional "activateOption" .string v.activateOption

/-- How the configuration of an operator is read. -/
def OperatorConfig.record : Record OperatorConfig where
  name := "OperatorConfig"
  fields := [("placement", false), ("streamViewability", false), ("queue", false),
    ("viewConfigs", false)]
  blank := {}
  set name value x :=
    match name with
    | "placement" => do return { x with placement := ← Placement.decode value }
    | "streamViewability" => do
      return { x with streamViewability := ← Decoder.optional .bool value }
    | "queue" => do return { x with queue := ← Decoder.optional Queue.decode value }
    | "viewConfigs" => do
      return { x with views := ← Decoder.list View.decode value }
    | _ => .ok x

/-- Reads the configuration of an operator. -/
def OperatorConfig.decode : Decoder OperatorConfig := OperatorConfig.record.decode

/-- Writes the configuration of an operator. -/
def OperatorConfig.encode (c : OperatorConfig) : Json :=
  .object <|
    (if c.placement.isDefault then [] else Encode.field "placement" c.placement.encode)
    ++ Encode.optional "streamViewability" .bool c.streamViewability
    ++ Encode.optional "queue" Queue.encode c.queue
    ++ (if c.views.isEmpty then []
        else Encode.field "viewConfigs" (Encode.list View.encode c.views))

/-- How membership in a consistent region is read. -/
def Consistent.record : Record Consistent where
  name := "Consistent"
  fields := [("period", false), ("drainTimeout", true), ("resetTimeout", true),
    ("maxConsecutiveResetAttempts", true)]
  blank := { drainTimeout := default, resetTimeout := default,
             maxConsecutiveResetAttempts := default }
  set name value x :=
    match name with
    | "period" => do return { x with period := ← Decoder.optional .binary64 value }
    | "drainTimeout" => do return { x with drainTimeout := ← Decoder.binary64 value }
    | "resetTimeout" => do return { x with resetTimeout := ← Decoder.binary64 value }
    | "maxConsecutiveResetAttempts" => do
      return { x with maxConsecutiveResetAttempts := ← Decoder.binary64 value }
    | _ => .ok x

/-- Reads membership in a consistent region. -/
def Consistent.decode : Decoder Consistent := Consistent.record.decode

/-- Writes membership in a consistent region. -/
def Consistent.encode (c : Consistent) : Json :=
  .object <|
    Encode.optional "period" Encode.binary64 c.period
    ++ Encode.field "drainTimeout" (Encode.binary64 c.drainTimeout)
    ++ Encode.field "resetTimeout" (Encode.binary64 c.resetTimeout)
    ++ Encode.field "maxConsecutiveResetAttempts" (Encode.binary64 c.maxConsecutiveResetAttempts)

/-- How a threading model is read. -/
def Threading.record : Record Threading where
  name := "Threading"
  fields := [("model", true)]
  blank := { model := "" }
  set name value x :=
    match name with
    | "model" => do return { x with model := ← Decoder.string value }
    | _ => .ok x

/-- Reads a threading model. -/
def Threading.decode : Decoder Threading := Threading.record.decode

/-- Writes a threading model. -/
def Threading.encode (t : Threading) : Json := .object (Encode.field "model" (.string t.model))

/-! ### Operators -/

/-- How an operator is read. -/
def Operator.record : Record Operator where
  name := "Operator"
  fields := [("name", true), ("kind", true), ("model", false), ("language", false),
    ("category", false), ("sourcelocation", false), ("layout", false), ("inputs", false),
    ("outputs", false), ("parameters", false), ("config", false), ("parallelOperator", false),
    ("width", false), ("partitioned", false), ("parallelInputPortName", false),
    ("partitionedKeys", false), ("broadcastPorts", false), ("lowLatency", false),
    ("autonomous", false), ("hashAdder", false), ("consistent", false), ("threading", false)]
  blank := { name := "", kind := "" }
  set name value x :=
    match name with
    | "name" => do return { x with name := ← Decoder.string value }
    | "kind" => do return { x with kind := ← Decoder.string value }
    | "model" => do return { x with model := ← Decoder.optional .string value }
    | "language" => do return { x with language := ← Decoder.optional .string value }
    | "category" => do return { x with category := ← Decoder.optional .string value }
    | "sourcelocation" => do return { x with sourceLocations := ← Decoder.list .json value }
    | "layout" => do return { x with layout := ← Decoder.optional Decoder.members value }
    | "inputs" => do return { x with inputs := ← Decoder.list InputPort.decode value }
    | "outputs" => do return { x with outputs := ← Decoder.list OutputPort.decode value }
    | "parameters" => do return { x with parameters := ← Parameters.decode value }
    | "config" => do return { x with config := ← OperatorConfig.decode value }
    | "parallelOperator" => do return { x with parallelOperator := ← Decoder.bool value }
    | "width" => do return { x with width := ← Decoder.optional Width.decode value }
    | "partitioned" => do return { x with partitioned := ← Decoder.bool value }
    | "parallelInputPortName" => do
      return { x with parallelInputPortName := ← Decoder.optional .string value }
    | "partitionedKeys" => do return { x with partitionedKeys := ← Decoder.list .string value }
    | "broadcastPorts" => do return { x with broadcastPorts := ← Decoder.list .string value }
    | "lowLatency" => do return { x with lowLatency := ← Decoder.bool value }
    | "autonomous" => do return { x with autonomous := ← Decoder.bool value }
    | "hashAdder" => do return { x with hashAdder := ← Decoder.bool value }
    | "consistent" => do
      return { x with consistent := ← Decoder.optional Consistent.decode value }
    | "threading" => do
      return { x with threading := ← Decoder.optional Threading.decode value }
    | _ => .ok x

/-- Reads an operator. -/
def Operator.decode : Decoder Operator := Operator.record.decode

/-- Writes an operator. -/
def Operator.encode (op : Operator) : Json :=
  .object <|
    Encode.field "name" (.string op.name)
    ++ Encode.field "kind" (.string op.kind)
    ++ Encode.optional "model" .string op.model
    ++ Encode.optional "language" .string op.language
    ++ Encode.optional "category" .string op.category
    ++ (if op.sourceLocations.isEmpty then []
        else Encode.field "sourcelocation" (.array op.sourceLocations))
    ++ Encode.optional "layout" .object op.layout
    ++ Encode.field "inputs" (Encode.list InputPort.encode op.inputs)
    ++ Encode.field "outputs" (Encode.list OutputPort.encode op.outputs)
    ++ Encode.someParameters "parameters" op.parameters
    ++ Encode.field "config" op.config.encode
    ++ Encode.flag "parallelOperator" op.parallelOperator
    ++ Encode.optional "width" Width.encode op.width
    ++ Encode.flag "partitioned" op.partitioned
    ++ Encode.optional "parallelInputPortName" .string op.parallelInputPortName
    ++ Encode.someStrings "partitionedKeys" op.partitionedKeys
    ++ Encode.someStrings "broadcastPorts" op.broadcastPorts
    ++ Encode.flag "lowLatency" op.lowLatency
    ++ Encode.flag "autonomous" op.autonomous
    ++ Encode.flag "hashAdder" op.hashAdder
    ++ Encode.optional "consistent" Consistent.encode op.consistent
    ++ Encode.optional "threading" Threading.encode op.threading

end StreamTopology
