import StreamTopology.Number.Decimal

/-!
# Phases

The steps of a generation run, in the order in which they are taken.
-/

namespace StreamTopology

/-- A step of a generation run. -/
inductive Phase where
  | validate
  | relocateHashAdders
  | tagIsolation
  | tagLowLatency
  | threadedPorts
  | removeMarkers
  | autonomous
  | resolveColocation
  | optimize
  | separateComposites
  | emit
  deriving DecidableEq, Repr, Inhabited

namespace Phase

/-- Every phase, in order. -/
def all : List Phase :=
  [.validate, .relocateHashAdders, .tagIsolation, .tagLowLatency, .threadedPorts, .removeMarkers,
   .autonomous, .resolveColocation, .optimize, .separateComposites, .emit]

/-- The number of a phase, from one. -/
def number (p : Phase) : Nat := all.idxOf p + 1

/-- The name of a phase. -/
def name : Phase → String
  | .validate => "VALIDATE"
  | .relocateHashAdders => "RELOCATE_HASH_ADDERS"
  | .tagIsolation => "TAG_ISOLATION"
  | .tagLowLatency => "TAG_LOW_LATENCY"
  | .threadedPorts => "THREADED_PORTS"
  | .removeMarkers => "REMOVE_MARKERS"
  | .autonomous => "AUTONOMOUS"
  | .resolveColocation => "RESOLVE_COLOCATION"
  | .optimize => "OPTIMIZE"
  | .separateComposites => "SEPARATE_COMPOSITES"
  | .emit => "EMIT"

/-- The phase after a phase. -/
def next? (p : Phase) : Option Phase := all[p.number]?

/-- The phase changes the graph before it is separated into composites. -/
def isPreparation (p : Phase) : Bool := p.number ≤ optimize.number

/-- The phase with its number. -/
def title (p : Phase) : String := "Phase " ++ Decimal.intText p.number ++ ": " ++ p.name

end Phase

end StreamTopology
