import StreamTopology.Number.Decimal

/-!
# Host pools

Operators with resource tags run on hosts that carry all of these tags. Operators with the same set
of tags share a host pool; pools are numbered in the order of their first use.

## Main definitions

* `TagSet.ofList`: the set of the non-empty tags of a list, sorted and without repetition.
* `HostPools.poolOf`: the pool of a set of tags.
-/

namespace StreamTopology

namespace TagSet

/-- Puts a tag into a sorted list, unless it is there already. -/
def insert (tag : String) : List String → List String
  | [] => [tag]
  | t :: ts =>
    if tag < t then tag :: t :: ts else if tag = t then t :: ts else t :: insert tag ts

/-- The non-empty tags of a list, sorted and without repetition. -/
def ofList (tags : List String) : List String :=
  (tags.filter fun t => !t.isEmpty).foldl (fun ts t => insert t ts) []

end TagSet

/-- A host pool: its name, and the tags of its hosts, sorted and without repetition. -/
structure HostPool where
  name : String
  tags : List String
  deriving DecidableEq, Repr, Inhabited

/-- The host pools in the order of their first use. -/
structure HostPools where
  pools : List HostPool := []
  deriving DecidableEq, Repr, Inhabited

namespace HostPools

/-- The name of the pool with a number. -/
def poolName (number : Nat) : String := "__jaaHostPool" ++ Decimal.intText number

/-- The name of the pool of a set of tags, and the pools with that one among them. -/
def poolOf (ps : HostPools) (tags : List String) : String × HostPools :=
  match ps.pools.find? fun p => p.tags == tags with
  | some p => (p.name, ps)
  | none =>
    let name := poolName ps.pools.length
    (name, ⟨ps.pools ++ [{ name := name, tags := tags }]⟩)

end HostPools

end StreamTopology
