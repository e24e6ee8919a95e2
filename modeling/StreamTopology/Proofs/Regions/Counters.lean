import StreamTopology.Proofs.Graph.Arena
import StreamTopology.Proofs.Number.Integer
import StreamTopology.Regions.Counters

/-!
# Numbered regions

An identifier is a number behind something that is not empty. So no identifier is empty, and an
operator that was put into a region is told apart from one that was not; that two regions never
share an identifier is `Decimal.numbered_injective`.
-/

namespace StreamTopology

/-- A text that begins with something is not empty. -/
theorem nonEmpty?_append {start rest : String} (h : start ≠ "") :
    nonEmpty? (some (start ++ rest)) = some (start ++ rest) := by
  have hfull : (start ++ rest).isEmpty = false := by
    rcases hb : (start ++ rest).isEmpty with _ | _
    · rfl
    · exact absurd (String.append_eq_empty_iff.mp (String.isEmpty_iff.mp hb)).1 h
  simp only [nonEmpty?, Option.filter_some, hfull, Bool.not_false, if_true]

/-! ### Operations on graphs and counters -/

variable {α : Type} {w w' : Workspace} {a : α} {r : String} {x : Handle} {op : Operator}

theorem yields_onGraph {action : GraphM α} :
    Yields (RegionM.onGraph action) w a w' ↔
      ∃ g', Yields action w.graph a g' ∧ w' = { w with graph := g' } := by
  have hrun : (RegionM.onGraph action).run.run w =
      ((action.run.run w.graph).1, { w with graph := (action.run.run w.graph).2 }) := rfl
  rw [Yields, hrun]
  constructor
  · intro h
    obtain ⟨h, h'⟩ := Prod.ext_iff.mp h
    exact ⟨_, Prod.ext h rfl, h'.symm⟩
  · rintro ⟨g', h, rfl⟩
    rw [Yields] at h
    rw [h]

theorem Yields.of_onGraph {action : GraphM α} (h : Yields (RegionM.onGraph action) w a w') :
    Yields action w.graph a w'.graph := by
  obtain ⟨g', hgraph, rfl⟩ := yields_onGraph.mp h
  exact hgraph

/-- Looking up a live operator of the graph goes on with it. -/
theorem yields_onGraph_lookup_bind {rest : Operator → RegionM α}
    (h : w.graph.get? x = some op) :
    Yields (RegionM.onGraph (GraphM.lookup x) >>= rest) w a w' ↔ Yields (rest op) w a w' := by
  simp only [yields_bind, yields_onGraph, yields_lookup, h, Option.some.injEq]
  constructor
  · rintro ⟨_, _, ⟨_, ⟨rfl, rfl⟩, rfl⟩, hrest⟩
    exact hrest
  · exact fun hrest => ⟨op, w, ⟨w.graph, ⟨rfl, rfl⟩, rfl⟩, hrest⟩

/-- An identifier is made of the counters, and the counters go on. -/
theorem yields_fresh (name : RegionCounters → String) (next : RegionCounters → RegionCounters) :
    Yields (get >>= fun w => set { w with counters := next w.counters } >>= fun _ =>
        pure (name w.counters) : RegionM String) w r w' ↔
      r = name w.counters ∧ w' = { w with counters := next w.counters } := by
  rw [yields_get_bind]
  simp only [yields_bind, yields_set, yields_pure]
  constructor
  · rintro ⟨_, _, rfl, rfl, rfl⟩
    exact ⟨rfl, rfl⟩
  · rintro ⟨rfl, rfl⟩
    exact ⟨⟨⟩, _, rfl, rfl, rfl⟩

theorem yields_freshIsolateRegion :
    Yields RegionM.freshIsolateRegion w r w' ↔
      r = isolateRegionName w.counters.isolate ∧
        w' = { w with counters := { w.counters with isolate := w.counters.isolate + 1 } } :=
  yields_fresh (fun c => isolateRegionName c.isolate) fun c => { c with isolate := c.isolate + 1 }

theorem yields_freshLowLatencyRegion :
    Yields RegionM.freshLowLatencyRegion w r w' ↔
      r = lowLatencyRegionName w.counters.lowLatency ∧
        w' = { w with
          counters := { w.counters with lowLatency := w.counters.lowLatency + 1 } } :=
  yields_fresh (fun c => lowLatencyRegionName c.lowLatency) fun c =>
    { c with lowLatency := c.lowLatency + 1 }

end StreamTopology
