import StreamTopology.Build.Status
import StreamTopology.CommandLine
import StreamTopology.Main
import StreamTopology.Phase
import StreamTopology.Proofs.Graph.Arena
import StreamTopology.Proofs.Graph.Streams
import StreamTopology.Proofs.Graph.Rewiring
import StreamTopology.Proofs.Graph.Dataflow
import StreamTopology.Proofs.Graph.Walk
import StreamTopology.Proofs.Regions.Counters
import StreamTopology.Proofs.Regions.Isolation
import StreamTopology.Proofs.Regions.Linked
import StreamTopology.Proofs.Regions.Sides
import StreamTopology.Proofs.Composite.PlanTree
import StreamTopology.Proofs.Composite.Plan
import StreamTopology.Proofs.Composite.Separation
import StreamTopology.Proofs.Composite.Partition
import StreamTopology.Proofs.Composite.CallTree
import StreamTopology.Proofs.Composite.Stacks
import StreamTopology.Proofs.Composite.Members
import StreamTopology.Proofs.Composite.Renaming
import StreamTopology.Proofs.Composite.Resolution
import StreamTopology.Proofs.Graph.Elimination
import StreamTopology.Proofs.Graph.RegionEnds
import StreamTopology.Proofs.Graph.Interposing
import StreamTopology.Proofs.Graph.Insertion
import StreamTopology.Proofs.Passes.Annotations
import StreamTopology.Proofs.Passes.Preparation
import StreamTopology.Proofs.Passes.Success
import StreamTopology.Proofs.Passes.Visits
import StreamTopology.Proofs.Passes.AdderMove
import StreamTopology.Proofs.Passes.Relocation
import StreamTopology.Proofs.Passes.RegionShape
import StreamTopology.Proofs.Endings
import StreamTopology.Proofs.Trace
import StreamTopology.Proofs.Graph.Soundness
import StreamTopology.Proofs.Graph.Edits
import StreamTopology.Proofs.Graph.Narrowing
import StreamTopology.Proofs.Passes.Endings
import StreamTopology.Proofs.Passes.Writes
import StreamTopology.Proofs.Passes.Frame
import StreamTopology.Proofs.Regions.Taggings
import StreamTopology.Proofs.Composite.Numbers
import StreamTopology.Proofs.Spl.Refusals
import StreamTopology.Proofs.Spl.HostPools
import StreamTopology.Proofs.Spl.Configuration
import StreamTopology.Proofs.Spl.Emission
import StreamTopology.Proofs.Composite.ChannelScope
import StreamTopology.Proofs.Composite.Endings
import StreamTopology.Proofs.Composite.Parameters
import StreamTopology.Proofs.Generation
import StreamTopology.Proofs.Placement
import StreamTopology.Proofs.Tally
import StreamTopology.Proofs.Freshness
import StreamTopology.Proofs.Pools
import StreamTopology.Proofs.Json.Distinct
import StreamTopology.Proofs.Document.Decode
import StreamTopology.Proofs.Document.Parameter
import StreamTopology.Proofs.Document.Operator
import StreamTopology.Proofs.Document.Description
import StreamTopology.Proofs.Passes.Boundaries
import StreamTopology.Proofs.Graph.Dangling
import StreamTopology.Proofs.Graph.Detours
import StreamTopology.Proofs.Graph.Transit
import StreamTopology.Proofs.Passes.AdderStreams
import StreamTopology.Proofs.Passes.Exchange
import StreamTopology.Proofs.Passes.Revisions
import StreamTopology.Proofs.Passes.References
import StreamTopology.Proofs.Passes.Threads
import StreamTopology.Proofs.Regions.Repetition
import StreamTopology.Proofs.Regions.Latency
import StreamTopology.Proofs.Passes.Autonomy
import StreamTopology.Proofs.Text.Identifier
import StreamTopology.Proofs.Json.Members
import StreamTopology.Proofs.Spl.Layout
import StreamTopology.Proofs.Spl.ParamClause
import StreamTopology.Proofs.Composite.Declarations
import StreamTopology.Proofs.Composite.Identifiers
import StreamTopology.Proofs.Text.Quoted
import StreamTopology.Proofs.Number.Integer
import StreamTopology.Proofs.Number.Shortest
import StreamTopology.Proofs.Number.Decimal
import StreamTopology.Proofs.Number.Word
import StreamTopology.Proofs.Spl.Literal
import StreamTopology.Proofs.Topology.History
import StreamTopology.Proofs.Build.Status
