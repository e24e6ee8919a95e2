import StreamTopology.Graph.Walk

/-!
# Region counters

Regions are numbered. The numbers go on from one topology to the next within a session, also after
a failure, so that no identifier is given twice.

## Main definitions

* `RegionCounters`, with the identifiers made from them.
* `RegionM`: operations on a graph that also number regions.
-/

namespace StreamTopology

/-- How many regions of each kind have been numbered. -/
structure RegionCounters where
  isolate : Nat := 0
  lowLatency : Nat := 0
  deriving DecidableEq, Repr, Inhabited

/-- The identifier of an isolation region. -/
def isolateRegionName (n : Nat) : String := "__jaa_isolateId" ++ Decimal.intText n

/-- The identifier of a low latency region. -/
def lowLatencyRegionName (n : Nat) : String := "LowLatencyRegion" ++ Decimal.intText n

/-- A graph that is being changed, together with the region counters of its session. -/
structure Workspace where
  graph : Graph
  counters : RegionCounters := {}
  deriving DecidableEq, Repr, Inhabited

/-- An operation on a graph and the region counters. When it fails, both stay as far as they have
come. -/
abbrev RegionM (α : Type) : Type := ExceptT Error (StateM Workspace) α

namespace RegionM

/-- An operation on the graph alone. -/
def onGraph {α : Type} (action : GraphM α) : RegionM α :=
  ExceptT.mk fun w =>
    let (result, graph) := action.run.run w.graph
    (result, { w with graph := graph })

/-- The identifier of a new isolation region. -/
def freshIsolateRegion : RegionM String := do
  let w ← get
  set { w with counters := { w.counters with isolate := w.counters.isolate + 1 } }
  pure (isolateRegionName w.counters.isolate)

/-- The identifier of a new low latency region. -/
def freshLowLatencyRegion : RegionM String := do
  let w ← get
  set { w with counters := { w.counters with lowLatency := w.counters.lowLatency + 1 } }
  pure (lowLatencyRegionName w.counters.lowLatency)

end RegionM

end StreamTopology
