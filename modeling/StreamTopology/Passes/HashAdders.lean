import StreamTopology.Graph.Rewiring

/-!
# Hash adders

A partitioned parallel region needs a hash attribute on its input, which a *hash adder* supplies.
Where a region feeds the next one directly, the adder stands right behind the end of the first
region; it is moved in front of that end, so that it runs inside the region. The end then carries
the adder's schema.
-/

namespace StreamTopology

namespace HashAdders

/-- The end of a parallel region that is the only parent of a hash adder. -/
def endAbove? (id : Handle) : GraphM (Option Handle) := do
  match (← get).parents id with
  | [parent] => do
    let op ← GraphM.lookup parent
    pure (if op.isMarker .endParallel then some parent else none)
  | _ => pure none

/-- The ends that have hash adders below them, each once, in the order of the adders. -/
def ends : GraphM (List Handle) := do
  let adders := (← get).findAll Operator.isHashAdder
  let found ← adders.mapM endAbove?
  pure ((found.filterMap id).foldl Rewiring.addOnce [])

/-- The operator with another schema on its first input port and its first output port. -/
def withSchema (schema : String) (op : Operator) : Operator :=
  { op with
    inputs := Rewiring.mapHead (fun p => { p with schema := schema }) op.inputs
    outputs := Rewiring.mapHead (fun p => { p with schema := schema }) op.outputs }

/-- Moves the only child of an end in front of it, and says whether it did. An end with several
children, or whose child has no output port, stays as it is. -/
def moveChild (marker : Handle) : GraphM Bool := do
  match (← get).children marker with
  | [adder] =>
    let op ← GraphM.lookup adder
    match op.outputs.head? with
    | none => pure false
    | some output =>
      Rewiring.remove adder
      let (copy, g) := (← get).insertBefore marker (op.copyAs op.name)
      set g
      Rewiring.interposeAbove marker copy
      GraphM.update marker (withSchema output.schema)
      pure true
  | _ => pure false

/-- Moves all hash adders that stand behind the end of a region. The result is their number. -/
def relocate : GraphM Nat := do
  let moved ← (← ends).mapM moveChild
  pure (moved.countP id)

end HashAdders

end StreamTopology
