import StreamTopology.Graph.Basic

/-!
# Rewiring

Taking operators out of a graph and putting others in between, on both sides of every stream.

## Main definitions

* `Rewiring.remove`, `Rewiring.removeAll`: the parents of a removed operator feed its children.
* `Rewiring.interpose`, `Rewiring.interposeAbove`: streams are routed through another operator.
-/

namespace StreamTopology

namespace Rewiring

/-- The list with an element at its end, unless it holds the element already. -/
def addOnce {α : Type} [BEq α] (xs : List α) (x : α) : List α :=
  if xs.contains x then xs else xs ++ [x]

/-- The list with each of further names at its end, unless it holds that name already. -/
def addAll (names more : List String) : List String := more.foldl addOnce names

/-! ### Taking out -/

/-- The connections of a port, where the first name that satisfies `gone` gives way to `instead`.
Ports that list no such name stay as they are. -/
def rewire (gone : String → Bool) (instead names : List String) : List String :=
  if names.any gone then addAll (names.eraseP gone) instead else names

/-- The operator with its input ports rewired. -/
def rewireInputs (gone : String → Bool) (instead : List String) (op : Operator) : Operator :=
  { op with inputs := op.inputs.map fun p =>
      { p with connections := rewire gone instead p.connections } }

/-- The operator with its output ports rewired. -/
def rewireOutputs (gone : String → Bool) (instead : List String) (op : Operator) : Operator :=
  { op with outputs := op.outputs.map fun p =>
      { p with connections := rewire gone instead p.connections } }

/-- The input ports of an operator that list a name. -/
def inputsListing (listed : String → Bool) (op : Operator) : List String :=
  (op.inputs.filter fun p => p.connections.any listed).map InputPort.name

/-- The output ports of an operator that list a name. -/
def outputsListing (listed : String → Bool) (op : Operator) : List String :=
  (op.outputs.filter fun p => p.connections.any listed).map OutputPort.name

/-- Removes an operator and connects its parents to its children. It may have several input ports
but only one output port. -/
def remove (id : Handle) : GraphM Unit := do
  let g ← get
  let some op := g.get? id | throw (.operatorNotFound id.text)
  if op.outputs.length > 1 then
    throw (.invalidGraph (.severalOutputs op.name op.outputs.length))
  let fromIt : String → Bool := fun c => (op.outputs.head?.map OutputPort.name) == some c
  let toIt : String → Bool := fun c => op.ownsInput c
  let children := g.children id
  let parents := g.parents id
  let consumers ← children.mapM GraphM.lookup
  let producers ← parents.mapM GraphM.lookup
  let inputNames := consumers.flatMap (inputsListing fromIt)
  let outputNames := producers.flatMap (outputsListing toIt)
  children.forM fun child => GraphM.update child (rewireInputs fromIt outputNames)
  parents.forM fun parent => GraphM.update parent (rewireOutputs toIt inputNames)
  modify fun g => g.vacate id

/-- Removes operators one after the other. -/
def removeAll (ids : List Handle) : GraphM Unit := ids.forM remove

/-! ### Putting in between -/

/-- The list with one name replaced by another wherever it occurs. -/
def rename (old new : String) (names : List String) : List String :=
  names.map fun c => if c = old then new else c

/-- The list with a change at its first element. -/
def mapHead {α : Type} (f : α → α) : List α → List α
  | [] => []
  | x :: xs => f x :: xs

/-- Routes the streams from the output port of `parent` at place `i` to the input port of `child`
at place `j` through the ports `addIn` and `addOut` of `added`. Does nothing if neither port lists
the other. -/
def routePorts (parent child added : Handle) (addIn addOut : String)
    (i : Nat) (outName : String) (j : Nat) (inName : String) : GraphM Unit := do
  let producer ← GraphM.lookup parent
  let consumer ← GraphM.lookup child
  let listed := (producer.outputs[i]?.map fun p => p.connections.contains inName).getD false
    || (consumer.inputs[j]?.map fun p => p.connections.contains outName).getD false
  if listed then
    GraphM.update parent fun op => { op with outputs := op.outputs.modify i fun p =>
      { p with connections := rename inName addIn p.connections } }
    GraphM.update child fun op => { op with inputs := op.inputs.modify j fun p =>
      { p with connections := rename outName addOut p.connections } }
    GraphM.update added fun op =>
      { op with
        inputs := mapHead (fun p => { p with connections := addOnce p.connections outName })
          op.inputs
        outputs := mapHead (fun p => { p with connections := addOnce p.connections inName })
          op.outputs }

/-- Routes every stream from `parent` to `child` through the first input port and the first output
port of `added`. -/
def interpose (parent child added : Handle) : GraphM Unit := do
  let op ← GraphM.lookup added
  let some addIn := op.inputs.head? | throw (.invalidGraph (.insertedWithoutPorts op.name))
  let some addOut := op.outputs.head? | throw (.invalidGraph (.insertedWithoutPorts op.name))
  let producer ← GraphM.lookup parent
  let consumer ← GraphM.lookup child
  producer.outputs.zipIdx.forM fun out =>
    consumer.inputs.zipIdx.forM fun inp =>
      routePorts parent child added addIn.name addOut.name out.2 out.1.name inp.2 inp.1.name
  modify Graph.reindexed

/-- Puts `added` between `id` and all its parents. -/
def interposeAbove (id added : Handle) : GraphM Unit := do
  ((← get).parents id).forM fun parent => interpose parent id added

end Rewiring

end StreamTopology
