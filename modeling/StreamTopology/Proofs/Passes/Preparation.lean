import StreamTopology.Proofs.Graph.RegionEnds
import StreamTopology.Proofs.Passes.Annotations

/-!
# The markers that preparation takes out

After the hash adders have been moved, every pass either annotates or takes out the markers of some
kinds. Each pass *sheds* a list of kinds, shedding composes, and so the whole rest of a run is one
elimination: of the operators with a kind in `Marker.consumed`.

## Main definitions

* `Marker.consumed`: the kinds that are taken out.
* `Graph.Marked`, `Graph.Sheds`

## Main results

* `Preparation.run_passes`: what a run that succeeds consists of.
* `Preparation.run_sheds`: what it takes out.
-/

namespace StreamTopology

/-- The kinds of markers that preparation takes out, in the order in which it does. -/
def Marker.consumed : List Marker :=
  [.isolate, .lowLatency, .endLowLatency, .union, .pending, .autonomous]

namespace Graph

variable {g g' g'' t : Graph} {ms ms' : List Marker} {m : Marker} {x : Handle} {ids : List Handle}

/-- The operator is a marker of one of these kinds. -/
def Marked (g : Graph) (ms : List Marker) (x : Handle) : Prop := ∃ m ∈ ms, g.marker? x = some m

instance (g : Graph) (ms : List Marker) (x : Handle) : Decidable (g.Marked ms x) :=
  inferInstanceAs (Decidable (∃ m ∈ ms, g.marker? x = some m))

/-- `g'` is `g` without the markers of some kinds. -/
def Sheds (g : Graph) (ms : List Marker) (g' : Graph) : Prop := g.Eliminates (g.Marked ms) g'

theorem Sheds.trans (h : g.Sheds ms g') (h' : g'.Sheds ms' g'') : g.Sheds (ms ++ ms') g'' := by
  refine (Eliminates.trans h h').congr fun x => ?_
  have happend : g.Marked (ms ++ ms') x ↔ g.Marked ms x ∨ g.Marked ms' x := by
    simp only [Marked, List.mem_append, or_and_right, exists_or]
  rw [happend]
  by_cases hx : g.Marked ms x
  · exact iff_of_true (Or.inl hx) (Or.inl hx)
  · rw [Marked, Marked, marker?_congr (h.kind x hx)]
    rfl

/-- Annotating and then taking out all markers of some kinds. -/
theorem sheds_of_annotates (hg : g.WellFormed) (hi : g.Indexed) (hco : g.Coherent)
    (h : g.Annotates t) (hids : ∀ x, x ∈ ids ↔ g.Marked ms x)
    (hrun : Yields (Rewiring.removeAll ids) t ⟨⟩ g') : g.Sheds ms g' := by
  have hfirst := h.eliminates hg hi hco
  refine (hfirst.trans (removeAll_eliminates hfirst.wellFormed hfirst.indexed hfirst.coherent
    hrun)).congr fun x => ?_
  rw [hids, false_or]

/-- Annotating sheds nothing. -/
theorem sheds_nil (hg : g.WellFormed) (hi : g.Indexed) (hco : g.Coherent)
    (h : g.Annotates g') : g.Sheds [] g' := by
  refine (h.eliminates hg hi hco).congr fun x => ?_
  simp [Marked]

end Graph

/-! ### The passes that take out markers -/

section

variable {g g' : Graph} {w w' : Workspace} {n : Nat} {m : Marker}

theorem removeKind_sheds (hg : g.WellFormed) (hi : g.Indexed) (hco : g.Coherent)
    (hrun : Yields (Preparation.removeKind m) g n g') : g.Sheds [m] g' := by
  refine Graph.sheds_of_annotates hg hi hco (.refl g) (fun x => ?_) (removeKind_stages hrun).1
  simp [Graph.mem_markers hg, Graph.Marked]

theorem isolation_sheds (hg : w.graph.WellFormed) (hi : w.graph.Indexed)
    (hco : w.graph.Coherent) (hrun : Yields Isolation.run w n w') :
    w.graph.Sheds [.isolate] w'.graph := by
  obtain ⟨t, hwrites, hremove, _⟩ := isolation_stages hrun
  have hannotates : w.graph.Annotates t :=
    hwrites Graph.Annotates fun _ => annotates_of_skeleton fun _ => rfl
  refine Graph.sheds_of_annotates hg hi hco hannotates (fun x => ?_) hremove
  simp [Graph.mem_markers hg, Graph.Marked]

theorem lowLatency_sheds (hg : w.graph.WellFormed) (hi : w.graph.Indexed)
    (hco : w.graph.Coherent) (hrun : Yields LowLatency.run w n w') :
    w.graph.Sheds [.lowLatency, .endLowLatency] w'.graph := by
  obtain ⟨t, hwrites, hremove, _⟩ := lowLatency_stages hrun
  have hannotates : w.graph.Annotates t :=
    hwrites Graph.Annotates fun _ => annotates_of_skeleton fun _ => rfl
  refine Graph.sheds_of_annotates hg hi hco hannotates (fun x => ?_) hremove
  simp [Graph.mem_markers hg, Graph.Marked, or_comm]

theorem autonomous_sheds (hg : g.WellFormed) (hi : g.Indexed) (hco : g.Coherent)
    (hrun : Yields Autonomous.run g n g') : g.Sheds [.autonomous] g' := by
  obtain ⟨t, hwrites, hremove, _⟩ := autonomous_stages hrun
  have hannotates : g.Annotates t := hwrites Graph.Annotates (annotates_of_skeleton fun _ => rfl)
  refine Graph.sheds_of_annotates hg hi hco hannotates (fun x => ?_) hremove
  simp [Graph.mem_markers hg, Graph.Marked]

end

namespace Preparation

variable {w w' : Workspace} {stats : Stats}

/-- **A run that succeeds**, pass by pass. -/
theorem run_passes (hrun : Yields run w stats w') :
    w.graph.checkRegionEnds = .ok () ∧
      ∃ w₁ w₂ w₃ g₄ g₅ g₆ g₇ g₈ isolates lowLatency unions pending autonomous placed,
        Yields HashAdders.relocate w.graph stats.hashAddersRelocated w₁.graph ∧
        Yields Isolation.run w₁ isolates w₂ ∧ Yields LowLatency.run w₂ lowLatency w₃ ∧
        Yields ThreadedPorts.run w₃.graph stats.threadedPortsDropped g₄ ∧
        Yields (removeKind .union) g₄ unions g₅ ∧ Yields (removeKind .pending) g₅ pending g₆ ∧
        Yields Autonomous.run g₆ autonomous g₇ ∧ Yields Colocation.run g₇ placed g₈ ∧
        Yields PassByReference.run g₈ stats.operatorsOptimized w'.graph ∧
        stats.markersRemoved = isolates + lowLatency + (unions + pending) + autonomous := by
  rw [run, yields_get_bind] at hrun
  simp only [yields_bind, yields_pure, yields_liftM] at hrun
  obtain ⟨_, _, ⟨hcheck, rfl⟩, _, w₁, hrelocate, _, w₂, hisolation, _, w₃, hlowLatency,
    _, w₄, hthreaded, _, w₅, hunion, _, w₆, hpending, _, w₇, hautonomous, _, w₈, hcolocation,
    _, _, hreference, rfl, rfl⟩ := hrun
  exact ⟨hcheck, w₁, w₂, w₃, w₄.graph, w₅.graph, w₆.graph, w₇.graph, w₈.graph, _, _, _, _, _, _,
    hrelocate.of_onGraph, hisolation, hlowLatency, hthreaded.of_onGraph, hunion.of_onGraph,
    hpending.of_onGraph, hautonomous.of_onGraph, hcolocation.of_onGraph, hreference.of_onGraph,
    rfl⟩

/-- **What a run does after the hash adders have been moved** sheds the markers that are
consumed. -/
theorem run_sheds (hrun : Yields run w stats w') :
    w.graph.checkRegionEnds = .ok () ∧
      ∃ g, Yields HashAdders.relocate w.graph stats.hashAddersRelocated g ∧
        (g.WellFormed → g.Indexed → g.Coherent → g.Sheds Marker.consumed w'.graph) := by
  obtain ⟨hcheck, w₁, w₂, w₃, g₄, g₅, g₆, g₇, g₈, _, _, _, _, _, _, hrelocate, hisolation,
    hlowLatency, hthreaded, hunion, hpending, hautonomous, hcolocation, hreference, _⟩ :=
    run_passes hrun
  refine ⟨hcheck, w₁.graph, hrelocate, fun hg hi hco => ?_⟩
  have h₂ := isolation_sheds hg hi hco hisolation
  have h₃ := lowLatency_sheds h₂.wellFormed h₂.indexed h₂.coherent hlowLatency
  have h₄ := Graph.sheds_nil h₃.wellFormed h₃.indexed h₃.coherent
    (annotating_threadedPorts _ _ _ hthreaded)
  have h₅ := removeKind_sheds h₄.wellFormed h₄.indexed h₄.coherent hunion
  have h₆ := removeKind_sheds h₅.wellFormed h₅.indexed h₅.coherent hpending
  have h₇ := autonomous_sheds h₆.wellFormed h₆.indexed h₆.coherent hautonomous
  have hlast := (annotating_colocation _ _ _ hcolocation).trans
    (annotating_passByReference _ _ _ hreference)
  have h₉ := Graph.sheds_nil h₇.wellFormed h₇.indexed h₇.coherent hlast
  exact h₂.trans (h₃.trans (h₄.trans (h₅.trans (h₆.trans (h₇.trans h₉)))))

end Preparation

end StreamTopology
