import StreamTopology.Graph.RegionEnds
import StreamTopology.Passes.Autonomous
import StreamTopology.Passes.HashAdders
import StreamTopology.Passes.PassByReference
import StreamTopology.Passes.ThreadedPorts
import StreamTopology.Regions.Colocation
import StreamTopology.Regions.Isolation
import StreamTopology.Regions.LowLatency

/-!
# Preparation

The fixed sequence of passes that leaves a graph without any markers other than those of parallel
regions.
-/

namespace StreamTopology

namespace Preparation

/-- What the passes did. -/
structure Stats where
  hashAddersRelocated : Nat
  markersRemoved : Nat
  threadedPortsDropped : Nat
  operatorsOptimized : Nat
  deriving DecidableEq, Repr

/-- Takes out all markers of a kind. The result is their number. -/
def removeKind (m : Marker) : GraphM Nat := do
  let markers := (← get).markers m
  Rewiring.removeAll markers
  pure markers.length

/-- All passes, one after the other. -/
def run : RegionM Stats := do
  let g := (← get).graph
  g.checkRegionEnds
  let relocated ← RegionM.onGraph HashAdders.relocate
  let isolates ← Isolation.run
  let lowLatency ← LowLatency.run
  let dropped ← RegionM.onGraph ThreadedPorts.run
  let unions ← RegionM.onGraph (removeKind .union)
  let pending ← RegionM.onGraph (removeKind .pending)
  let autonomous ← RegionM.onGraph Autonomous.run
  let _ ← RegionM.onGraph Colocation.run
  let optimized ← RegionM.onGraph PassByReference.run
  pure {
    hashAddersRelocated := relocated
    markersRemoved := isolates + lowLatency + (unions + pending) + autonomous
    threadedPortsDropped := dropped
    operatorsOptimized := optimized }

end Preparation

end StreamTopology
