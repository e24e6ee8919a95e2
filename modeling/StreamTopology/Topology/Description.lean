import StreamTopology.Topology.Operator

/-!
# Descriptions of topologies

A topology as a document describes it: its name, its settings and the list of its operators, whose
port connections are the edges.
-/

namespace StreamTopology

/-- How often the state of the application is saved. -/
structure Checkpoint where
  period : Int
  unit : TimeUnit
  deriving DecidableEq, Repr, Inhabited

/-- Settings of a whole topology. -/
structure GraphConfig where
  /-- Arguments for the virtual machine of every Java operator. -/
  vmArgs : List String := []
  checkpoint : Option Checkpoint := none
  /-- Settings without a meaning here, kept in order. -/
  extra : Json.Members := []
  deriving DecidableEq, Repr, Inhabited

/-- A topology as a document describes it. -/
structure Description where
  name : String
  splNamespace : Option String := none
  isPublic : Bool := true
  parameters : Parameters := {}
  config : GraphConfig := {}
  operators : List Operator := []
  deriving DecidableEq, Repr, Inhabited

end StreamTopology
