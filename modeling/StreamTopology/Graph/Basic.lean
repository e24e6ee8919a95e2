import StreamTopology.Document.Description
import StreamTopology.Graph.Handle

/-!
# Graphs

A topology that is being changed: an arena of operators, their order, and an index of their streams.

A connection is written on both of its ports, and while a change is half done the two sides may
disagree. The index therefore follows each side by itself: `Links.forward` what the output ports
list, `Links.backward` what the input ports list. The ports are what counts; the index is rebuilt
by `Graph.reindexed` whenever an operator comes or goes, and an edit of ports that does not rebuild
it leaves it as it was.

## Main definitions

* `Graph`, with `Graph.ofDescription` and `Graph.toDescription`.
* `Graph.children`, `Graph.parents`: neighbours by the index, in graph order.
* `Graph.add`, `Graph.insertBefore`, `Graph.vacate`: a place that was vacated is given to the next
  operator, the one vacated last first.
* `GraphM`: operations that may fail, and leave behind the graph as far as they have changed it.
-/

namespace StreamTopology

/-! ### Streams between two operators -/

namespace Operator

/-- The operator has an input port of this name. -/
def ownsInput (op : Operator) (name : String) : Bool := op.inputs.any fun p => p.name == name

/-- The operator has an output port of this name. -/
def ownsOutput (op : Operator) (name : String) : Bool := op.outputs.any fun p => p.name == name

/-- The input ports that the operator's output ports list. -/
def outgoing (op : Operator) : List String := op.outputs.flatMap fun p => p.connections

/-- The output ports that the operator's input ports list. -/
def incoming (op : Operator) : List String := op.inputs.flatMap fun p => p.connections

/-- An output port of `parent` lists an input port of `child`. -/
def feeds (parent child : Operator) : Bool := parent.outgoing.any child.ownsInput

/-- An input port of `child` lists an output port of `parent`. -/
def readsFrom (child parent : Operator) : Bool := child.incoming.any parent.ownsOutput

end Operator

/-! ### The arena and its index -/

/-- The index of streams, as pairs of a source and a target. -/
structure Links where
  forward : List (Handle × Handle) := []
  backward : List (Handle × Handle) := []
  deriving DecidableEq, Repr, Inhabited

/-- The targets of the streams that the output ports of `id` list. -/
def Links.targets (links : Links) (id : Handle) : List Handle :=
  links.forward.filterMap fun s => if s.1 = id then some s.2 else none

/-- The origins of the streams that the input ports of `id` list. -/
def Links.origins (links : Links) (id : Handle) : List Handle :=
  links.backward.filterMap fun s => if s.2 = id then some s.1 else none

/-- A topology that is being changed. -/
structure Graph where
  name : String
  splNamespace : Option String := none
  isPublic : Bool := true
  parameters : Parameters := {}
  config : GraphConfig := {}
  /-- The arena: the operator at each place, or nothing where one was removed. -/
  slots : List (Option Operator) := []
  /-- The vacant places, the one vacated last first. -/
  vacant : List Handle := []
  /-- The operators in graph order. -/
  order : List Handle := []
  links : Links := {}
  deriving DecidableEq, Repr, Inhabited

namespace Graph

/-- The operator at a handle. -/
def get? (g : Graph) (id : Handle) : Option Operator := (g.slots[id.index]?).join

/-- There is an operator at the handle. -/
def contains (g : Graph) (id : Handle) : Bool := (g.get? id).isSome

/-- The operators with their handles, in graph order. -/
def entries (g : Graph) : List (Handle × Operator) :=
  g.order.filterMap fun id => (g.get? id).map fun op => (id, op)

/-- The operators in graph order. -/
def operators (g : Graph) : List Operator := g.entries.map Prod.snd

/-- Number of operators. -/
def size (g : Graph) : Nat := g.order.length

/-- There are no operators. -/
def isEmpty (g : Graph) : Bool := g.order.isEmpty

/-- The pairs of operators that a relation holds of. -/
def pairs (entries : List (Handle × Operator)) (r : Operator → Operator → Bool) :
    List (Handle × Handle) :=
  entries.flatMap fun x => (entries.filter fun y => r x.2 y.2).map fun y => (x.1, y.1)

/-- The index that the ports call for. -/
def computeLinks (g : Graph) : Links where
  forward := pairs g.entries fun parent child => parent.feeds child
  backward := pairs g.entries fun parent child => child.readsFrom parent

/-- The graph with its index rebuilt from the ports. -/
def reindexed (g : Graph) : Graph := { g with links := g.computeLinks }

/-- The operators with an input port that an output port of `id` lists, by the index. -/
def children (g : Graph) (id : Handle) : List Handle :=
  if g.order.contains id then
    let targets := g.links.targets id
    g.order.filter fun y => targets.contains y
  else []

/-- The operators with an output port that an input port of `id` lists, by the index. -/
def parents (g : Graph) (id : Handle) : List Handle :=
  if g.order.contains id then
    let origins := g.links.origins id
    g.order.filter fun x => origins.contains x
  else []

/-! ### Look-up -/

/-- The first operator with a name. -/
def named? (g : Graph) (name : String) : Option Handle :=
  (g.entries.find? fun e => e.2.name == name).map Prod.fst

/-- The operators for which a condition holds, in graph order. -/
def findAll (g : Graph) (p : Operator → Bool) : List Handle :=
  (g.entries.filter fun e => p e.2).map Prod.fst

/-- The markers of a kind. -/
def markers (g : Graph) (m : Marker) : List Handle := g.findAll fun op => op.isMarker m

/-- The sources: operators without input ports, except those whose name starts with a dollar
sign. -/
def sources (g : Graph) : List Handle :=
  g.findAll fun op => op.inputs.isEmpty && op.name.toList.head? != some '$'

/-! ### Structural edits -/

/-- Puts an operator into the arena, without a place in the order. -/
def allocate (g : Graph) (op : Operator) : Handle × Graph :=
  match g.vacant with
  | id :: rest => (id, { g with slots := g.slots.set id.index (some op), vacant := rest })
  | [] => (⟨g.slots.length⟩, { g with slots := g.slots ++ [some op] })

/-- Appends an operator. -/
def add (g : Graph) (op : Operator) : Handle × Graph :=
  let (id, g) := g.allocate op
  (id, { g with order := g.order ++ [id] }.reindexed)

/-- A list with an element put in front of the first occurrence of another, or at the end. -/
def insertInFront (anchor new : Handle) : List Handle → List Handle
  | [] => [new]
  | x :: xs => if x = anchor then new :: x :: xs else x :: insertInFront anchor new xs

/-- Inserts an operator directly in front of another one, or at the end if that is not there. -/
def insertBefore (g : Graph) (anchor : Handle) (op : Operator) : Handle × Graph :=
  let (id, g) := g.allocate op
  (id, { g with order := insertInFront anchor id g.order }.reindexed)

/-- Takes an operator out without touching the ports of the others. -/
def vacate (g : Graph) (id : Handle) : Graph :=
  if g.contains id then
    { g with
      slots := g.slots.set id.index none
      vacant := id :: g.vacant
      order := g.order.filter fun x => x != id }.reindexed
  else g

/-- Overwrites the operator at a handle; the index stays as it is. -/
def set (g : Graph) (id : Handle) (op : Operator) : Graph :=
  { g with slots := g.slots.set id.index (some op) }

/-! ### From and to descriptions -/

/-- The first name that occurs again in a list, when it occurs again. -/
def firstRepeated? : List String → List String → Option String
  | _, [] => none
  | seen, name :: names =>
    if seen.contains name then some name else firstRepeated? (name :: seen) names

/-- The graph of a description, whose operators must have different names. -/
def ofDescription (d : Description) : Except Error Graph :=
  match firstRepeated? [] (d.operators.map Operator.name) with
  | some name => .error (.invalidGraph (.duplicateName name))
  | none =>
    .ok <| reindexed
      { name := d.name
        splNamespace := d.splNamespace
        isPublic := d.isPublic
        parameters := d.parameters
        config := d.config
        slots := d.operators.map some
        order := (List.range d.operators.length).map Handle.mk }

/-- The description of a graph. -/
def toDescription (g : Graph) : Description where
  name := g.name
  splNamespace := g.splNamespace
  isPublic := g.isPublic
  parameters := g.parameters
  config := g.config
  operators := g.operators

/-- The graph that a document describes. -/
def ofJson (value : Json) : Except Error Graph := do
  let d ← (Description.ofJson value).mapError .document
  ofDescription d

/-- The graph that the text of a document describes. -/
def ofText (text : String) : Except Error Graph := do
  let d ← (Description.ofText text).mapError .document
  ofDescription d

/-- The document of a graph. -/
def toJson (g : Graph) : Json := g.toDescription.encode

end Graph

/-! ### Operations that may fail -/

/-- An operation on a graph. When it fails, the graph stays as far as it has been changed. -/
abbrev GraphM (α : Type) : Type := ExceptT Error (StateM Graph) α

namespace GraphM

/-- The operator at a handle, which must be there. -/
def lookup (id : Handle) : GraphM Operator := do
  match (← get).get? id with
  | some op => pure op
  | none => throw (.deadHandle id)

/-- Changes the operator at a handle, which must be there; the index stays as it is. -/
def update (id : Handle) (f : Operator → Operator) : GraphM Unit := do
  let op ← lookup id
  modify fun g => g.set id (f op)

end GraphM

end StreamTopology
