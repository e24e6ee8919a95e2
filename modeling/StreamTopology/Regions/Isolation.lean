import StreamTopology.Graph.Rewiring
import StreamTopology.Regions.Counters

/-!
# Isolation regions

An `$Isolate$` marker separates the operators above it from those below it. Every operator that is
connected to a marker or to a source gets the identifier of its region, and the markers are taken
out.

Topologies in which the two sides of a marker are joined again, or in which two markers follow each
other directly, are refused before anything is changed.
-/

namespace StreamTopology

namespace Isolation

/-- Walks in both directions up to isolation markers. -/
def bounds : Bounds := Bounds.around [.isolate]

/-- Looks at one marker: no other marker directly above it, and no way from the operators above it
to those below it that avoids the markers. -/
def check (marker : Handle) : GraphM Unit := do
  let g ← get
  let parents := g.parents marker
  let producers ← parents.mapM GraphM.lookup
  if producers.any fun op => op.isMarker .isolate then
    throw (.invalidGraph .adjacentIsolates)
  if (g.walk bounds parents).any fun x => (g.children marker).contains x then
    throw (.invalidGraph .rejoinedIsolation)

/-- Puts everything that a walk from these operators visits into a new region. An operator that has
a region keeps it. -/
def assign (starts : List Handle) : RegionM Unit := do
  let region ← RegionM.freshIsolateRegion
  RegionM.onGraph <| GraphM.visit bounds starts fun id =>
    GraphM.update id (Operator.mapPlacement fun p => p.joinIsolateRegion region)

/-- Gives a region to every source that has none, and to what is connected to it. -/
def assignIslands : RegionM Unit := do
  (← get).graph.sources.forM fun start => do
    let op ← RegionM.onGraph (GraphM.lookup start)
    if op.placement.isolateRegion?.isNone then assign [start]

/-- Checks all markers, gives regions to both sides of each and then to what is left, and takes the
markers out. The result is the number of markers. -/
def run : RegionM Nat := do
  let markers := (← get).graph.markers .isolate
  markers.forM fun marker => RegionM.onGraph (check marker)
  markers.forM fun marker => do
    assign ((← get).graph.parents marker)
    assign ((← get).graph.children marker)
  assignIslands
  RegionM.onGraph (Rewiring.removeAll markers)
  pure markers.length

end Isolation

end StreamTopology
