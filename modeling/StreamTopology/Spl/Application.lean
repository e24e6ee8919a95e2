import StreamTopology.Spl.Invocation

/-!
# Composites and applications

The text of composites and of the whole application.
-/

namespace StreamTopology

namespace Application

/-- The streams through the border of a composite. -/
def borderText (c : Composite) : String :=
  if c.isMain then ""
  else
    match c.inputName with
    | none => ""
    | some input =>
      "(input " ++ Identifier.ofBasename input
      ++ ((c.outputName.map fun o => "; output " ++ Identifier.ofBasename o).getD "") ++ ")"

/-- The first line of a composite. -/
def headerText (c : Composite) : String :=
  (if c.isPublic then "public " else "") ++ "composite " ++ Identifier.ofName c.name
    ++ borderText c ++ "\n\x7b\n"

/-- The line that declares a submission parameter. -/
def declarationLine (c : Composite) (p : SubmissionParameter) : Except Error String := do
  let text ← if c.isMain then Submission.mainDefinition p else Submission.innerDefinition p
  pure ("  " ++ text ++ ";\n")

/-- The submission parameters that a composite declares. -/
def declarationText (c : Composite) : Except Error String := do
  let lines ← c.parameters.mapM (declarationLine c)
  pure (if lines.isEmpty then "" else "param\n" ++ String.join lines)

/-- The declaration of a host pool. -/
def poolText (p : HostPool) : String :=
  "    " ++ p.name ++ "=createPool(\x7btags=[" ++ ",".intercalate (p.tags.map Quoted.literal)
    ++ "]\x7d, Sys.Shared)"

/-- The period of checkpoints, in seconds. -/
def checkpointText (c : Checkpoint) : String :=
  Literal.double ((Binary64.ofInt (c.unit.inMilliseconds c.period)).divideBy 1000)

/-- The configuration of the main composite. -/
def configurationText (config : GraphConfig) (pools : HostPools) : String :=
  let hosts :=
    if pools.pools.isEmpty then ""
    else "    hostPool:\n" ++ ",".intercalate (pools.pools.map poolText) ++ ";\n"
  let checkpoint :=
    (config.checkpoint.map fun c =>
      "    checkpoint: periodic(" ++ checkpointText c ++ ");\n").getD ""
  if hosts.isEmpty && checkpoint.isEmpty then "" else "  config\n" ++ hosts ++ checkpoint

/-- The operator that a member invokes. -/
def memberOperator (g : Graph) : Member → Except Error Operator
  | .node id =>
    match g.get? id with
    | some op => .ok op
    | none => .error (.deadHandle id)
  | .invocation op _ => .ok op

/-- The text of a member. -/
def emitMember (g : Graph) (ctx : Invocation.Context) (m : Member) : Invocation.EmitM String := do
  let op ← memberOperator g m
  let text ← Invocation.emit ctx op
  pure (text ++ "\n")

/-- The text of a composite. The main composite is emitted last and declares the host pools of all
of them. -/
def emitComposite (g : Graph) (ctx : Invocation.Context) (c : Composite) :
    Invocation.EmitM String := do
  let declarations ← declarationText c
  let members ← c.members.mapM (emitMember g ctx)
  let pools ← get
  let config := if c.isMain then configurationText g.config pools else ""
  pure (headerText c ++ declarations ++ "graph\n" ++ String.join members ++ config ++ "\x7d\n")

/-- The text of an application. -/
def emit (g : Graph) (ctx : Invocation.Context) (composites : List Composite) :
    Invocation.EmitM String := do
  let texts ← composites.mapM (emitComposite g ctx)
  let heading := ((nonEmpty? g.splNamespace).map fun ns => "namespace " ++ ns ++ ";\n").getD ""
  pure (heading ++ String.join texts)

end Application

end StreamTopology
