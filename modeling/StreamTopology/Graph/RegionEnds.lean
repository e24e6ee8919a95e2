import StreamTopology.Graph.Basic

/-!
# Ends of parallel regions

The structural rule that a graph must satisfy before it is changed: the end of a parallel region has
exactly one parent, and that parent feeds nothing else.
-/

namespace StreamTopology

namespace Graph

/-- Looks at one end of a parallel region. -/
def checkEnd (g : Graph) (marker : Handle) : Except Error Unit :=
  let title (id : Handle) : Except Error String :=
    match g.get? id with
    | some op => .ok op.name
    | none => .error (.deadHandle id)
  match g.parents marker with
  | [parent] =>
    if (g.children parent).length = 1 then .ok ()
    else do throw (.invalidGraph (.fanOutBeforeEnd (← title parent)))
  | _ => do throw (.invalidGraph (.unionBeforeEnd (← title marker)))

/-- Looks at the ends of all parallel regions, in graph order. -/
def checkRegionEnds (g : Graph) : Except Error Unit :=
  (g.markers .endParallel).forM g.checkEnd

end Graph

end StreamTopology
