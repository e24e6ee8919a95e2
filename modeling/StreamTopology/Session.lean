import StreamTopology.Passes.Preparation
import StreamTopology.Spl.Application

/-!
# Generation

From a topology to the source of an application: preparation, separation into composites, and
their text.

## Main definitions

* `Session`: the counters that go on from one topology to the next.
* `Session.generate`: generates the source of one topology. The session and the graph that it gives
  back are those at the end of the run, also when the run fails.
-/

namespace StreamTopology

/-- What came out of a successful run. -/
structure Generated where
  spl : String
  composites : Nat
  operatorsEmitted : Nat
  markersRemoved : Nat
  hostPools : Nat
  deriving DecidableEq, Repr

namespace Generated

/-- The composites other than the main one. -/
def parallelComposites (r : Generated) : Nat := r.composites - 1

/-- A summary in one line. -/
def summary (r : Generated) : String :=
  "GenerateResult \x7b " ++ Decimal.intText r.composites ++ " composites ("
    ++ Decimal.intText r.parallelComposites ++ " parallel), "
    ++ Decimal.intText r.operatorsEmitted ++ " operators, "
    ++ Decimal.intText r.markersRemoved ++ " markers removed, "
    ++ Decimal.intText r.hostPools ++ " host pools, "
    ++ Decimal.intText r.spl.utf8ByteSize ++ " bytes \x7d"

end Generated

/-- A series of runs. Region identifiers and numbers of parallel composites are never used twice in
it. -/
structure Session where
  counters : RegionCounters := {}
  parallelComposites : Nat := 0
  deriving DecidableEq, Repr, Inhabited

/-- A session and a graph after a run, and the result of the run. -/
structure Run (α : Type) where
  result : Except Error α
  session : Session
  graph : Graph

namespace Session

/-- The text of the composites of a prepared graph, with what is known about the run. -/
def emit (g : Graph) (values : SubmissionValues) (composites : List Composite)
    (markersRemoved : Nat) : Except Error Generated :=
  let ctx : Invocation.Context :=
    { config := g.config
      values := values
      isScoped := Composite.isChannelScoped g composites }
  let (text, pools) := (Application.emit g ctx composites).run.run {}
  text.map fun spl =>
    { spl := spl
      composites := composites.length
      operatorsEmitted := (composites.flatMap Composite.members).length
      markersRemoved := markersRemoved
      hostPools := pools.pools.length }

/-- Separates a prepared graph into composites and emits them. -/
def generateComposites (s : Session) (g : Graph) (values : SubmissionValues)
    (markersRemoved : Nat) : Run Generated :=
  let markers := (g.markers .parallel).length + (g.markers .endParallel).length
  let (composites, done) := Separation.run values g s.parallelComposites
  let session := { s with parallelComposites := done.count }
  { result := composites.bind fun cs => emit done.graph values cs (markersRemoved + markers)
    session := session
    graph := done.graph }

/-- Generates the source of a topology. -/
def generate (s : Session) (g : Graph) : Run Generated :=
  match SubmissionValues.ofParameters g.parameters with
  | .error e => { result := .error e, session := s, graph := g }
  | .ok values =>
    let (stats, w) := Preparation.run.run.run { graph := g, counters := s.counters }
    let session := { s with counters := w.counters }
    match stats with
    | .error e => { result := .error e, session := session, graph := w.graph }
    | .ok stats => session.generateComposites w.graph values stats.markersRemoved

end Session

end StreamTopology
