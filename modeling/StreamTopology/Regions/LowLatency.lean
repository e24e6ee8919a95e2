import StreamTopology.Graph.Rewiring
import StreamTopology.Regions.Counters

/-!
# Low latency regions

The operators below a `$LowLatency$` marker, up to the `$EndLowLatency$` markers, form a region. The
markers are taken out.
-/

namespace StreamTopology

namespace LowLatency

/-- Walks in both directions up to markers that start or end a low latency region. -/
def bounds : Bounds := Bounds.around [.lowLatency, .endLowLatency]

/-- Puts everything that a walk from the children of a marker visits into a new region. An operator
that has a region keeps it. -/
def assign (marker : Handle) : RegionM Unit := do
  let region ← RegionM.freshLowLatencyRegion
  let children := (← get).graph.children marker
  RegionM.onGraph <| GraphM.visit bounds children fun id =>
    GraphM.update id (Operator.mapPlacement fun p => p.joinLowLatencyRegion region)

/-- Gives a region to what follows each starting marker, and takes all markers out, those that end
regions first. The result is the number of markers. -/
def run : RegionM Nat := do
  let g := (← get).graph
  let starts := g.markers .lowLatency
  let ends := g.markers .endLowLatency
  starts.forM assign
  RegionM.onGraph (Rewiring.removeAll (ends ++ starts))
  pure (ends ++ starts).length

end LowLatency

end StreamTopology
