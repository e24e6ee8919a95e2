import StreamTopology.Composite.Plan
import StreamTopology.Graph.Rewiring
import StreamTopology.Spl.Submission

/-!
# Separation into composites

Each parallel region becomes a composite of its own, which the composite around it invokes in
parallel. The streams that cross the border of a region are renamed in the graph: what its first
operators read becomes `parallelInput`, and the port that feeds its end becomes `parallelOutput`.
The index of the graph keeps the links that the old names made.

## Main definitions

* `Composite`, `Member`.
* `Separation.run`: the composites of a graph, inner ones before those that invoke them, the main
  one last.
* `Composite.scopedKeys`, `Composite.isChannelScoped`: colocation keys that stay inside one parallel
  composite.
-/

namespace StreamTopology

/-- An invocation inside a composite. -/
inductive Member where
  /-- An operator of the graph. -/
  | node (id : Handle)
  /-- A parallel composite, by its position among the composites. -/
  | invocation (op : Operator) (composite : Nat)
  deriving DecidableEq, Repr, Inhabited

/-- A composite operator of the generated application. -/
structure Composite where
  name : String
  isPublic : Bool := false
  isMain : Bool := false
  inputName : Option String := none
  outputName : Option String := none
  members : List Member := []
  /-- The submission parameters that the composite declares. -/
  parameters : List SubmissionParameter := []
  deriving DecidableEq, Repr, Inhabited

namespace Composite

/-- The operators of the graph that are members. -/
def nodes (c : Composite) : List Handle :=
  c.members.filterMap fun m =>
    match m with
    | .node id => some id
    | .invocation _ _ => none

/-- The name of the composite of a parallel region. -/
def parallelName (number : Nat) : String := "__parallel_Composite_" ++ Decimal.intText number

/-- The name of the invocation of a parallel region. -/
def invocationName (number : Nat) : String := "paraComp_" ++ Decimal.intText number

/-- The name of the stream that enters a region. -/
def parallelInput : String := "parallelInput"

/-- The name of the stream that leaves a region. -/
def parallelOutput : String := "parallelOutput"

/-- The attribute that partitions the streams into a region. -/
def hashAttribute : String := "__spl_hash"

end Composite

/-- A separation under way: the graph, the number of the next parallel region, and the composites
that are finished. -/
structure Separation where
  graph : Graph
  count : Nat
  composites : List Composite := []
  deriving DecidableEq, Repr, Inhabited

/-- An operation on a separation. When it fails, the separation stays as far as it has come. -/
abbrev SeparationM (α : Type) : Type := ExceptT Error (StateM Separation) α

namespace Separation

/-- An operation on the graph alone. -/
def onGraph {α : Type} (action : GraphM α) : SeparationM α :=
  ExceptT.mk fun s =>
    let (result, graph) := action.run.run s.graph
    (result, { s with graph := graph })

/-! ### The border of a region -/

/-- A text occurs in another. -/
def occursIn (needle : List Char) : List Char → Bool
  | [] => needle.isEmpty
  | c :: cs => needle.isPrefixOf (c :: cs) || occursIn needle cs

/-- The input port of a region whose stream has the hash attribute, by the name that SPL gives it;
of several the last. -/
def hashedPort? (inputs : List InputPort) : Option String :=
  (inputs.reverse.find? fun p => occursIn Composite.hashAttribute.toList p.schema.toList).map
    fun p => p.reference?.getD p.name

/-- The invocation of the region that a marker starts. What the region declares and where it ends is
not known yet. -/
def invocationOf (marker : Operator) (output : OutputPort) (number : Nat) : Operator :=
  { name := Composite.invocationName number
    kind := Composite.parallelName number
    inputs := marker.inputs
    parallelOperator := true
    width := output.width
    broadcastPorts := output.broadcastPorts
    partitioned := output.partitioned
    partitionedKeys := if output.partitioned then output.partitionedKeys else []
    parallelInputPortName := if output.partitioned then hashedPort? marker.inputs else none }

/-- The operator with one stream that it reads renamed. -/
def renameInputStream (old new : String) (op : Operator) : Operator :=
  { op with inputs := op.inputs.map fun p =>
      { p with connections := Rewiring.rename old new p.connections } }

/-- The output ports with those renamed that feed the end of a region. -/
def nameRegionOutput (endInput : String) (outputs : List OutputPort) : List OutputPort :=
  outputs.map fun p =>
    if p.connections.contains endInput then { p with name := Composite.parallelOutput } else p

/-- The next number of a region. -/
def freshNumber : SeparationM Nat := do
  let s ← get
  set { s with count := s.count + 1 }
  pure s.count

/-- Starts a region: numbers it, prepares its invocation, and renames the stream that its first
operators read. -/
def openRegion (marker : Handle) : SeparationM (Nat × Operator) := do
  let number ← freshNumber
  let op ← onGraph (GraphM.lookup marker)
  match op.outputs.head? with
  | none => throw (.invalidGraph (.regionWithoutOutput op.name))
  | some output =>
    ((← get).graph.children marker).forM fun start =>
      onGraph (GraphM.update start (renameInputStream output.name Composite.parallelInput))
    pure (number, invocationOf op output number)

/-! ### Parameters of a composite -/

/-- The submission parameters that an operator itself refers to. -/
def usedBy (values : SubmissionValues) (op : Operator) : List SubmissionParameter :=
  (if op.isFunctional then values.all else [])
    ++ op.parameters.entries.filterMap (fun e => e.2.submission?)
    ++ op.outputs.flatMap (fun p => p.assigns.entries.filterMap fun e => e.2.submission?)
    ++ match op.width with
      | some (.parameter (.submission p)) => [p]
      | _ => []

/-- The submission parameters that a member of a composite needs. -/
def neededBy (values : SubmissionValues) : Member → SeparationM (List SubmissionParameter)
  | .node id => do
    let op ← onGraph (GraphM.lookup id)
    pure (usedBy values op)
  | .invocation op composite => do
    let inner := (← get).composites[composite]?
    pure ((inner.map Composite.parameters).getD [] ++ usedBy values op)

/-- The submission parameters that a composite declares: the main one all of them, any other one
those that its members need. -/
def declaredBy (values : SubmissionValues) (c : Composite) :
    SeparationM (List SubmissionParameter) := do
  if values.isEmpty then pure []
  else if c.isMain then pure values.all
  else
    let needed ← c.members.mapM (neededBy values)
    pure (SubmissionValues.addAll [] needed.flatten)

/-- Finishes a composite; gives its position. -/
def finish (values : SubmissionValues) (c : Composite) : SeparationM Nat := do
  let parameters ← declaredBy values c
  let s ← get
  set { s with composites := s.composites ++ [{ c with parameters := parameters }] }
  pure s.composites.length

/-- Changes a finished composite. -/
def updateComposite (position : Nat) (f : Composite → Composite) : SeparationM Unit :=
  modify fun s => { s with composites := s.composites.modify position f }

/-! ### The end of a region -/

/-- The parameters with a submission parameter passed on under its composite name. -/
def passParameter (ps : Parameters) (p : SubmissionParameter) : Parameters :=
  ps.insert (Submission.compositeName p.name) (.expression (Submission.reference p.name))

/-- The invocation with the submission parameters of its composite passed on. -/
def passParameters (parameters : List SubmissionParameter) (op : Operator) : Operator :=
  { op with parameters := parameters.foldl passParameter op.parameters }

/-- The member, with the output port of an inner region renamed that feeds the end of this one. -/
def renameMemberOutput (endInput : String) : Member → Member
  | .node id => .node id
  | .invocation op composite =>
    .invocation { op with outputs := nameRegionOutput endInput op.outputs } composite

/-- The first output port of an invocation takes the schema of the hash adder that feeds the end of
the region. -/
def takeHashedSchema (parent invocation : Operator) : Operator :=
  match parent.isHashAdder, parent.outputs.head? with
  | true, some output =>
    match invocation.outputs with
    | first :: rest => { invocation with outputs := { first with schema := output.schema } :: rest }
    | [] => invocation
  | _, _ => invocation

/-- Leaves a region through its end marker: the invocation takes over the marker's output ports,
and the ports that feed the marker are renamed. -/
def leaveRegion (position : Nat) (marker : Handle) (invocation : Operator) :
    SeparationM Operator := do
  let op ← onGraph (GraphM.lookup marker)
  updateComposite position fun c => { c with outputName := some Composite.parallelOutput }
  let endInput := op.inputs.head?.map InputPort.name
  let parents := (← get).graph.parents marker
  let producers ← onGraph (parents.mapM GraphM.lookup)
  match endInput with
  | none => pure ()
  | some name =>
    parents.forM fun parent => onGraph <|
      GraphM.update parent fun p => { p with outputs := nameRegionOutput name p.outputs }
    updateComposite position fun c =>
      { c with members := c.members.map (renameMemberOutput name) }
  pure (producers.foldl (fun inv p => takeHashedSchema p inv)
    { invocation with outputs := op.outputs })

/-- Ends a region whose composite is finished: completes its invocation. -/
def closeRegion (position : Nat) (exit : Option Handle) (invocation : Operator) :
    SeparationM Operator := do
  updateComposite position fun c => { c with inputName := some Composite.parallelInput }
  let inner := (← get).composites[position]?
  let invocation := passParameters ((inner.map Composite.parameters).getD []) invocation
  match exit with
  | none => pure invocation
  | some marker => leaveRegion position marker invocation

/-! ### The whole separation -/

/-- The members of a planned composite. The composites of the regions among them are finished on
the way. -/
def fill (values : SubmissionValues) : Plan → SeparationM (List Member)
  | .done _ => pure []
  | .node id rest => do
    let members ← fill values rest
    pure (.node id :: members)
  | .region marker inside rest => do
    let (number, invocation) ← openRegion marker
    let members ← fill values inside
    let position ← finish values { name := Composite.parallelName number, members := members }
    let invocation ← closeRegion position inside.exit? invocation
    let others ← fill values rest
    pure (.invocation invocation position :: others)

/-- The main composite of a graph with its members. -/
def mainComposite (g : Graph) (members : List Member) : Composite :=
  { name := g.name, isPublic := g.isPublic, isMain := true, members := members }

/-- Separates the graph into composites. -/
def separate (values : SubmissionValues) : SeparationM (List Composite) := do
  let g := (← get).graph
  let plan ← g.plan
  let members ← fill values plan
  let _ ← finish values (mainComposite g members)
  match plan.exit? with
  | none => pure (← get).composites
  | some marker =>
    let op ← onGraph (GraphM.lookup marker)
    throw (.invalidGraph (.endWithoutStart op.name))

/-- Separates a graph into composites, numbering parallel regions from `count` on. -/
def run (values : SubmissionValues) (g : Graph) (count : Nat) :
    Except Error (List Composite) × Separation :=
  (separate values).run.run { graph := g, count := count }

end Separation

/-! ### Colocation inside composites -/

/-- The use of a colocation key. -/
structure ColocationUsage where
  /-- An operator of the main composite has the key. -/
  main : Bool := false
  /-- The number of parallel composites with an operator that has the key. -/
  parallel : Nat := 0
  deriving DecidableEq, Repr, Inhabited

/-- The use of each key that has come up. -/
abbrev ColocationUsages : Type := List (String × ColocationUsage)

namespace ColocationUsages

/-- Changes the use of a key. A key that comes up for the first time has not been used. -/
def alter (key : String) (f : ColocationUsage → ColocationUsage) : ColocationUsages →
    ColocationUsages
  | [] => [(key, f {})]
  | (k, u) :: usages => if k = key then (k, f u) :: usages else (k, u) :: alter key f usages

/-- Notes the key of an operator of a composite, of which some keys have been seen. -/
def noteKey (isMain : Bool) : ColocationUsages × List String → String →
    ColocationUsages × List String
  | (usages, seen), key =>
    if isMain then (usages.alter key fun u => { u with main := true }, seen)
    else if seen.contains key then (usages, seen)
    else (usages.alter key fun u => { u with parallel := u.parallel + 1 }, key :: seen)

end ColocationUsages

namespace Composite

/-- The colocation keys of the operators of a composite. -/
def keys (g : Graph) (c : Composite) : List String :=
  c.nodes.filterMap fun id => (g.get? id).bind fun op => op.placement.colocateKey

/-- Notes the keys of a composite. -/
def noteKeys (g : Graph) (usages : ColocationUsages) (c : Composite) : ColocationUsages :=
  ((c.keys g).foldl (ColocationUsages.noteKey c.isMain) (usages, [])).1

/-- The use of each key of some composites. -/
def colocationUsages (g : Graph) (composites : List Composite) : ColocationUsages :=
  composites.foldl (noteKeys g) []

/-- The keys that are used inside one parallel composite and nowhere else. -/
def scopedKeys (g : Graph) (composites : List Composite) : List String :=
  ((colocationUsages g composites).filter fun e => !e.2.main && e.2.parallel < 2).map Prod.fst

/-- The key is used inside one parallel composite and nowhere else. -/
def isChannelScoped (g : Graph) (composites : List Composite) (key : String) : Bool :=
  (scopedKeys g composites).contains key

end Composite

end StreamTopology
