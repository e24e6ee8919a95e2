import StreamTopology.Spl.Annotation
import StreamTopology.Spl.HostPool

/-!
# Operator invocations

The text of one operator: its annotations, its streams, and the clauses of its body.

## Main definitions

* `Invocation.parameterLines`: the lines of the param clause, before they are written out.
* `Invocation.colocation`, `Invocation.directives`: what the placement of an operator says.
* `Invocation.emit`: the whole text. Host pools are numbered across operators, so this is an
  operation on `HostPools`.
-/

namespace StreamTopology

namespace Invocation

/-! ### Streams -/

/-- The type of a stream with a given schema; the schema of a tuple gives its attributes. -/
def streamTypeOf (schema : String) : String :=
  let front := "tuple<".toList
  let cs := schema.toList
  let body := cs.drop front.length
  if front.isPrefixOf cs && body.getLast? == some '>' then
    "stream<" ++ String.ofList body.dropLast ++ ">"
  else "stream<" ++ schema ++ ">"

/-- The operator is written without a name of its own: it has a single output, named like it. -/
def hasBareOutput (op : Operator) : Bool :=
  match op.outputs with
  | [port] => port.name == op.name
  | _ => false

/-- The streams that the operator produces. -/
def outputStreams (op : Operator) : String :=
  "; ".intercalate <| op.outputs.map fun p =>
    streamTypeOf p.schema ++ " " ++ Identifier.ofBasename p.name

/-- The streams that one input port reads. -/
def inputStreams (p : InputPort) : String :=
  ", ".intercalate (p.connections.map Identifier.ofBasename)
  ++ ((p.aliasName.map fun a => " as " ++ Identifier.ofName a).getD "")

/-- The first line: what is produced, by which operator, from what. -/
def heading (op : Operator) : String :=
  (if hasBareOutput op then outputStreams op
   else "  ( " ++ outputStreams op ++ ") as " ++ Identifier.ofName op.name)
  ++ " = " ++ op.kind
  ++ "  ( " ++ "; ".intercalate (op.inputs.map inputStreams) ++ ")\n"

/-! ### Windows -/

/-- The text of a policy of a window. -/
def policyArgument (op : Operator) (policy : WindowPolicy) (config : Option Json)
    (unit : Option TimeUnit) : Except Error String :=
  let amount : Except Error Int :=
    match config.bind Json.toInt64? with
    | some n => .ok n
    | none => .error (.unmapped (.windowSize policy op.name))
  match policy with
  | .count => amount.map fun n => "count(" ++ Decimal.intText n ++ ")"
  | .time =>
    match unit with
    | none => .error (.unmapped (.noTimeUnit op.name))
    | some u => amount.map fun n => "time(" ++ Literal.double (u.inSeconds n) ++ ")"
  | .punctuation => .ok "punct()"
  | .delta | .none => .error (.unmapped (.evictionPolicy policy op.name))

/-- When the window drops tuples. -/
def eviction (op : Operator) (w : Window) : Except Error String :=
  match w.evictPolicy with
  | none => .error (.unmapped (.noEvictionPolicy op.name))
  | some policy => policyArgument op policy w.evictConfig w.evictTimeUnit

/-- When the window fires, if it says so. -/
def trigger (op : Operator) (w : Window) : Except Error String :=
  match w.triggerPolicy with
  | none | some .none => .ok ""
  | some .delta => .error (.unmapped (.triggerPolicy .delta op.name))
  | some policy =>
    (policyArgument op policy w.triggerConfig w.triggerTimeUnit).map fun text => ", " ++ text

/-- The word for a type of window. -/
def windowWord? : WindowType → Option String
  | .sliding => some "sliding"
  | .tumbling => some "tumbling"
  | .notWindowed => none

/-- The line of the window on an input port, if there is one. -/
def windowLine? (op : Operator) (port : InputPort) : Except Error (Option String) :=
  match port.window with
  | none => .ok none
  | some w =>
    match windowWord? w.kind with
    | none => .ok none
    | some word => do
      let eviction ← eviction op w
      let trigger ← trigger op w
      pure <| some <|
        "    " ++ Identifier.ofBasename (port.reference?.getD port.name) ++ ":" ++ word ++ ","
        ++ eviction ++ trigger ++ (if w.partitioned then ", partitioned" else "") ++ ";\n"

/-- The windows of an operator. -/
def windowText (op : Operator) : Except Error String := do
  let lines := (← op.inputs.mapM (windowLine? op)).filterMap id
  pure (if lines.isEmpty then "" else "  window\n" ++ String.join lines)

/-! ### Parameters -/

/-- The parameter with the arguments of the virtual machine. -/
def vmArgParameter : String := "vmArg"

/-- The arguments for the virtual machine that the topology gives an operator. -/
def topologyVmArgs (config : GraphConfig) (op : Operator) : List Json :=
  if op.isJava then config.vmArgs.map .string else []

/-- The parameter holds arguments of the virtual machine as a value, to be merged with those of the
topology. -/
def isVmArgs : String × Parameter → Bool
  | (name, .literal _) => name == vmArgParameter
  | _ => false

/-- The items of an array, or the value alone. -/
def itemsOf : Json → List Json
  | .array items => items
  | value => [value]

/-- The arguments for the virtual machine: the operator's own, then those of the topology. -/
def vmArgs? (config : GraphConfig) (op : Operator) : Option (List Json) :=
  match op.parameters.get? vmArgParameter with
  | some (.literal value) => some (itemsOf value ++ topologyVmArgs config op)
  | _ => if (topologyVmArgs config op).isEmpty then none else some (topologyVmArgs config op)

/-- The line of the arguments for the virtual machine, if there are any. -/
def vmArgLines (config : GraphConfig) (op : Operator) : Except Error (List (String × String)) :=
  match vmArgs? config op with
  | none => .ok []
  | some args => (Literal.untyped (.array args)).map fun text => [(vmArgParameter, text)]

/-- The lines that tell a functional operator about the submission parameters. -/
def submissionLines (values : SubmissionValues) (op : Operator) : List (String × String) :=
  if op.isFunctional then
    match values.info? with
    | none => []
    | some info =>
      [("submissionParamNames", info.names), ("submissionParamValues", info.values)]
  else []

/-- The line of a parameter. -/
def parameterLine (entry : String × Parameter) : Except Error (String × String) :=
  (Literal.parameter entry.2).map fun text => (entry.1, text)

/-- The lines of the param clause, as names and values: the operator's parameters in order, then
the arguments for the virtual machine, then the submission parameters. -/
def parameterLines (config : GraphConfig) (values : SubmissionValues) (op : Operator) :
    Except Error (List (String × String)) := do
  let own ← (op.parameters.entries.filter fun e => !isVmArgs e).mapM parameterLine
  let vmArgs ← vmArgLines config op
  pure (own ++ vmArgs ++ submissionLines values op)

/-- The parameters of an operator. -/
def parameterText (config : GraphConfig) (values : SubmissionValues) (op : Operator) :
    Except Error String := do
  let lines ← parameterLines config values op
  pure <|
    if lines.isEmpty then ""
    else "    param\n" ++ String.join (lines.map fun l => "      " ++ l.1 ++ ": " ++ l.2 ++ ";\n")

/-! ### Output assignments -/

/-- An assignment to an attribute of an output stream. -/
def assignLine (entry : String × Parameter) : Except Error String :=
  (Literal.parameter entry.2).map fun text => "  " ++ entry.1 ++ "=" ++ text

/-- The assignments of an output port. -/
def assignBlock (port : OutputPort) : Except Error String := do
  let lines ← port.assigns.entries.mapM assignLine
  pure (Identifier.ofBasename port.name ++ ":\n" ++ ",\n".intercalate lines ++ ";\n")

/-- The assignments of an operator. -/
def assignmentText (op : Operator) : Except Error String := do
  let blocks ← (op.outputs.filter fun p => !p.assigns.isEmpty).mapM assignBlock
  pure (if blocks.isEmpty then "" else " output\n" ++ String.join blocks)

/-! ### Configuration -/

/-- The colocation of operators with a key. A key that is scoped to a channel is completed by the
number of the channel. -/
def colocation (isScoped : String → Bool) (key : String) : String :=
  "partitionColocation(" ++ Quoted.literal key
    ++ (if isScoped key then "+'$'+((rstring)getChannel())" else "") ++ ")"

/-- The host pool of an operator, if it has resource tags. -/
def poolOf (op : Operator) (pools : HostPools) : Option String × HostPools :=
  let tags := TagSet.ofList op.placement.resourceTags
  if tags.isEmpty then (none, pools)
  else
    let (name, pools) := pools.poolOf tags
    (some name, pools)

/-- The placement directives: colocation, and the host pool. -/
def directives (isScoped : String → Bool) (op : Operator) (pool : Option String) : List String :=
  (op.placement.colocateKey.map (colocation isScoped)).toList
    ++ (pool.map fun name => "host(" ++ name ++ ")").toList

/-- The placement of an operator. -/
def placementText (directives : List String) : String :=
  if directives.isEmpty then ""
  else "   placement: " ++ ",".intercalate (directives.map fun d => "      " ++ d ++ "\n")
    ++ "    ;\n"

/-- The configuration of an operator. -/
def configurationText (isScoped : String → Bool) (op : Operator) (pool : Option String) : String :=
  let viewability :=
    (op.config.streamViewability.map fun b =>
      "    streamViewability: " ++ Literal.boolText b ++ ";\n").getD ""
  let queue :=
    (op.config.queue.map fun q =>
      "    threadedPort: queue(" ++ q.inputPortName ++ ", " ++ q.congestionPolicy ++ ","
        ++ Decimal.intText q.queueSize ++ ");\n").getD ""
  let body := viewability ++ queue ++ placementText (directives isScoped op pool)
  if body.isEmpty then "" else "  config\n" ++ body

/-! ### The whole invocation -/

/-- What the text of an operator depends on beside the operator. -/
structure Context where
  config : GraphConfig := {}
  values : SubmissionValues := {}
  /-- The colocation keys that are scoped to a channel. -/
  isScoped : String → Bool := fun _ => false

/-- An operation on the host pools. -/
abbrev EmitM (α : Type) : Type := ExceptT Error (StateM HostPools) α

/-- The text of an operator. Its host pool is looked up last, so an operator that has no text leaves
the pools as they are. -/
def emit (ctx : Context) (op : Operator) : EmitM String := do
  let annotations ← Annotation.all op
  let window ← windowText op
  let params ← parameterText ctx.config ctx.values op
  let output ← assignmentText op
  let (pool, pools) := poolOf op (← get)
  set pools
  pure (annotations ++ heading op ++ "  \x7b\n" ++ window ++ params ++ output
    ++ configurationText ctx.isScoped op pool ++ "  \x7d\n")

end Invocation

end StreamTopology
