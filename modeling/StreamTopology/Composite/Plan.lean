import StreamTopology.Graph.Walk

/-!
# Plans of composites

How the operators of a graph fall into composites: the main one, and one for each parallel region,
found by following the streams from the sources. A region starts at a `$Parallel$` marker and ends
at an `$EndParallel$` marker, behind which the composite around it goes on.

A plan depends on the index and on the operators' kinds only, so it can be made before any stream
is renamed.

## Main definitions

* `Plan`: the members of a composite in order, with the plans of the regions among them.
* `Graph.plan`: the plan of the main composite.
-/

namespace StreamTopology

/-- The members of a composite, in order. -/
inductive Plan where
  /-- No more members. The marker that ends the region, if one was met. -/
  | done (exit : Option Handle)
  /-- An operator of the graph. -/
  | node (id : Handle) (rest : Plan)
  /-- A parallel region, by its marker and what is inside. -/
  | region (marker : Handle) (inside rest : Plan)
  deriving DecidableEq, Repr, Inhabited

/-- The marker that ends the region; of several the one met last. -/
def Plan.exit? : Plan → Option Handle
  | .done exit => exit
  | .node _ rest => rest.exit?
  | .region _ _ rest => rest.exit?

namespace Graph

/-- The virtual kind of the operator at a handle. -/
def marker? (g : Graph) (id : Handle) : Option Marker := (g.get? id).bind Operator.marker?

/-- The plan of a composite from the operators waiting in a queue. `active` holds the markers of
the regions around it, `exit` the last end marker met so far. -/
def planFrom (g : Graph) (active : List Handle) :
    List Handle → List Handle → Option Handle → Except Error Plan
  | [], _, exit => .ok (.done exit)
  | x :: queue, traversed, exit =>
    if x ∈ traversed then planFrom g active queue traversed exit
    else if x ∈ g.order then
      match g.marker? x with
      | some .parallel =>
        if x ∈ active then
          .error (.invalidGraph (.regionInsideItself (((g.get? x).map Operator.name).getD "")))
        else
          match planFrom g (x :: active) (g.children x) [] none with
          | .error e => .error e
          | .ok inside =>
            let beyond := (inside.exit?.map g.children).getD []
            (planFrom g active (queue ++ beyond) (x :: traversed) exit).map (.region x inside)
      | some .endParallel => planFrom g active queue (x :: traversed) (some x)
      | _ => (planFrom g active (queue ++ g.children x) (x :: traversed) exit).map (.node x)
    else .error (.deadHandle x)
termination_by queue traversed =>
  ((g.unseen active).length, (g.unseen traversed).length, queue.length)
decreasing_by
  all_goals simp_wf
  · exact Prod.Lex.right _ (Prod.Lex.right _ (by simp))
  · exact Prod.Lex.left _ _ (length_unseen_lt g (List.subset_cons_self ..) ‹_› ‹_›
      List.mem_cons_self)
  all_goals
    exact Prod.Lex.right _ (Prod.Lex.left _ _ (length_unseen_lt g (List.subset_cons_self ..) ‹_›
      ‹_› List.mem_cons_self))

/-- The plan of the main composite. -/
def plan (g : Graph) : Except Error Plan := g.planFrom [] g.sources [] none

end Graph

end StreamTopology
