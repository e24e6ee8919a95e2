import StreamTopology.Graph.Basic

/-!
# Colocation keys

The key that decides which operators run in one process: the user's tag, else the low latency
region, else the isolation region.
-/

namespace StreamTopology

namespace Colocation

/-- The placement with its colocation key chosen. -/
def resolved (p : Placement) : Placement :=
  { p with colocateKey := p.colocation? }

/-- Chooses the colocation key of every operator. The result is the number of operators that have
one. -/
def run : GraphM Nat := do
  let keyed ← (← get).order.mapM fun id => do
    GraphM.update id (Operator.mapPlacement resolved)
    let op ← GraphM.lookup id
    pure op.placement.colocateKey.isSome
  pure (keyed.countP id)

end Colocation

end StreamTopology
