import StreamTopology.Graph.Rewiring

/-!
# Autonomous regions

The children of an `$Autonomous$` marker run on their own account. The markers are taken out.
-/

namespace StreamTopology

namespace Autonomous

/-- Flags the children of every marker and takes the markers out. The result is the number of
markers. -/
def run : GraphM Nat := do
  let markers := (← get).markers .autonomous
  markers.forM fun marker => do
    ((← get).children marker).forM fun child =>
      GraphM.update child fun op => { op with autonomous := true }
  Rewiring.removeAll markers
  pure markers.length

end Autonomous

end StreamTopology
