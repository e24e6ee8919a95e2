/-!
# Placement

Where an operator may run: the regions it belongs to, its colocation and its host tags. An empty
identifier counts as none.
-/

namespace StreamTopology

/-- Placement hints of one operator. -/
structure Placement where
  isolateRegionId : Option String := none
  lowLatencyRegionId : Option String := none
  /-- The colocation tag given by the user. -/
  explicitTag : Option String := none
  /-- The colocation key chosen when the graph is prepared. -/
  colocateKey : Option String := none
  resourceTags : List String := []
  deriving DecidableEq, Repr, Inhabited

/-- An identifier, unless it is empty. -/
def nonEmpty? (id : Option String) : Option String := id.filter fun s => !s.isEmpty

namespace Placement

/-- The isolation region. -/
def isolateRegion? (p : Placement) : Option String := nonEmpty? p.isolateRegionId

/-- The low latency region. -/
def lowLatencyRegion? (p : Placement) : Option String := nonEmpty? p.lowLatencyRegionId

/-- Puts the operator into an isolation region, unless it is in one already. -/
def joinIsolateRegion (p : Placement) (id : String) : Placement :=
  if p.isolateRegion?.isSome then p else { p with isolateRegionId := some id }

/-- Puts the operator into a low latency region, unless it is in one already. -/
def joinLowLatencyRegion (p : Placement) (id : String) : Placement :=
  if p.lowLatencyRegion?.isSome then p else { p with lowLatencyRegionId := some id }

/-- The colocation of the operator: the user's tag, else its low latency region, else its isolation
region. -/
def colocation? (p : Placement) : Option String :=
  (nonEmpty? p.explicitTag).or (p.lowLatencyRegion?.or p.isolateRegion?)

/-- Nothing is set. -/
def isDefault (p : Placement) : Bool := p == {}

end Placement

end StreamTopology
