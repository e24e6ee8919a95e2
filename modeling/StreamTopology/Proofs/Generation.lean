import StreamTopology.Proofs.Composite.Endings
import StreamTopology.Proofs.Passes.Endings
import StreamTopology.Proofs.Passes.RegionShape
import StreamTopology.Proofs.Spl.Refusals
import StreamTopology.Session

/-!
# Generation

A run of a session prepares the graph, separates it into composites and emits them. Each stage hands
on what the next one relies on: preparation a sound graph, separation composites whose members are
live. So no stage ever looks up an operator that is not there, whatever the ports of the topology
list, and the only way to fail is to refuse the topology.

## Main definitions

* `Session.ComesTo`: the composites that a run comes to, and the graph at that point.
* `Session.Stage`: the graph after some of the passes, and at the end.

## Main results

* `stages_of_generate`, `yields_of_generate`, `exists_comesTo_of_generate`: a run that succeeds has
  come to composites and emitted them.
* `Stage.wellFormed`: the graph is well formed at every stage.
* `generate_refuses`: a run succeeds or refuses the topology.
-/

namespace StreamTopology

namespace Session

variable {s : Session} {g t : Graph} {values : SubmissionValues} {n : Nat} {r : Generated}
  {cs : List Composite}

/-- A run on the graph `g` comes to the composites `cs`, and the graph is `t` then. -/
def ComesTo (s : Session) (g : Graph) (cs : List Composite) (t : Graph) : Prop :=
  ∃ values stats w done, SubmissionValues.ofParameters g.parameters = .ok values ∧
    Yields Preparation.run { graph := g, counters := s.counters } stats w ∧
    Yields (Separation.separate values) { graph := w.graph, count := s.parallelComposites } cs
      done ∧ t = done.graph

/-- **Composites have live members.** -/
theorem ComesTo.live (hg : g.Sound) (h : s.ComesTo g cs t) :
    ∀ c ∈ cs, ∀ x ∈ c.nodes, t.contains x = true := by
  obtain ⟨values, stats, w, done, _, hprepare, hseparate, rfl⟩ := h
  have hw : w.graph.Sound := (Preparation.run_settles hg).of_yields hprepare
  exact ((Separation.separate_ends hw.wellFormed).of_yields hseparate).2

/-- **What a run that succeeds consists of.** -/
theorem stages_of_generate (h : (s.generate g).result = .ok r) :
    ∃ values stats w cs done, SubmissionValues.ofParameters g.parameters = .ok values ∧
      Yields Preparation.run { graph := g, counters := s.counters } stats w ∧
      Yields (Separation.separate values) { graph := w.graph, count := s.parallelComposites } cs
        done ∧
      (s.generate g).graph = done.graph ∧
      emit done.graph values cs (stats.markersRemoved +
        ((w.graph.markers .parallel).length + (w.graph.markers .endParallel).length)) = .ok r := by
  unfold generate at h ⊢
  rcases hvalues : SubmissionValues.ofParameters g.parameters with e | values
  · simp only [hvalues] at h
    cases h
  simp only [hvalues] at h ⊢
  rcases hprepare : Preparation.run.run.run { graph := g, counters := s.counters } with
    ⟨e | stats, w⟩
  · simp only [hprepare] at h
    cases h
  simp only [hprepare, generateComposites, Separation.run] at h ⊢
  rcases hseparate : (Separation.separate values).run.run
    { graph := w.graph, count := s.parallelComposites } with ⟨e | cs, done⟩
  · simp only [hseparate] at h
    cases h
  simp only [hseparate] at h ⊢
  exact ⟨values, stats, w, cs, done, rfl, hprepare, hseparate, rfl, h⟩

/-- What a run that succeeds says about its stages. -/
theorem yields_of_generate (h : (s.generate g).result = .ok r) :
    ∃ values stats w cs done, SubmissionValues.ofParameters g.parameters = .ok values ∧
      Yields Preparation.run { graph := g, counters := s.counters } stats w ∧
      Yields (Separation.separate values) { graph := w.graph, count := s.parallelComposites } cs
        done ∧
      (s.generate g).graph = done.graph ∧ r.composites = cs.length ∧
      r.markersRemoved = stats.markersRemoved +
        ((w.graph.markers .parallel).length + (w.graph.markers .endParallel).length) := by
  obtain ⟨values, stats, w, cs, done, hvalues, hprepare, hseparate, hgraph, hemit⟩ :=
    stages_of_generate h
  obtain ⟨text, _, rfl⟩ := map_eq_ok.mp hemit
  exact ⟨values, stats, w, cs, done, hvalues, hprepare, hseparate, hgraph, rfl, rfl⟩

/-- A run whose stages all succeed has a result. -/
theorem exists_generate {stats : Preparation.Stats} {w : Workspace} {done : Separation}
    (hvalues : SubmissionValues.ofParameters g.parameters = .ok values)
    (hprepare : Yields Preparation.run { graph := g, counters := s.counters } stats w)
    (hseparate : Yields (Separation.separate values)
      { graph := w.graph, count := s.parallelComposites } cs done)
    (hemit : (emit done.graph values cs (stats.markersRemoved +
      ((w.graph.markers .parallel).length + (w.graph.markers .endParallel).length))).isOk = true) :
    ∃ r, (s.generate g).result = .ok r := by
  have hrun : (s.generate g).result = emit done.graph values cs (stats.markersRemoved +
      ((w.graph.markers .parallel).length + (w.graph.markers .endParallel).length)) := by
    unfold Yields at hprepare hseparate
    simp only [generate, hvalues, hprepare, generateComposites, Separation.run, hseparate]
    rfl
  rw [← hrun] at hemit
  rcases hresult : (s.generate g).result with e | r
  · rw [hresult] at hemit
    cases hemit
  · exact ⟨r, rfl⟩

theorem exists_comesTo_of_generate (h : (s.generate g).result = .ok r) :
    ∃ cs, s.ComesTo g cs (s.generate g).graph ∧ r.composites = cs.length := by
  obtain ⟨values, stats, w, cs, done, hvalues, hprepare, hseparate, hgraph, hlength, _⟩ :=
    yields_of_generate h
  exact ⟨cs, ⟨values, stats, w, done, hvalues, hprepare, hseparate, hgraph⟩, hlength⟩

theorem emit_refuses (hlive : ∀ c ∈ cs, ∀ x ∈ c.nodes, g.contains x = true) :
    OnlyRefuses (emit g values cs n) := by
  have hsettles : Settles (fun _ => True)
      (Application.emit g ⟨g.config, values, Composite.isChannelScoped g cs⟩ cs) {} :=
    Application.emit_refuses hlive
  obtain ⟨pools, _, ⟨text, hrun⟩ | ⟨e, he, hrun⟩⟩ := hsettles.cases
  · simp only [emit, hrun]
    exact (onlyRefuses_ok text).map _
  · simp only [emit, hrun]
    exact (onlyRefuses_error.mpr he).map _

theorem generateComposites_refuses (hg : g.WellFormed) :
    OnlyRefuses (s.generateComposites g values n).result := by
  have hends : Ends _ _ (Separation.separate values)
      { graph := g, count := s.parallelComposites } := Separation.separate_ends hg
  unfold Ends at hends
  simp only [generateComposites, Separation.run]
  rcases hseparate : (Separation.separate values).run.run
    { graph := g, count := s.parallelComposites } with ⟨e | cs, done⟩
  · rw [hseparate] at hends
    exact onlyRefuses_error.mpr hends.1
  · rw [hseparate] at hends
    exact emit_refuses hends.2

/-- A run on a sound graph refuses, if it fails. -/
theorem generate_onlyRefuses (hg : g.Sound) (s : Session) : OnlyRefuses (s.generate g).result := by
  unfold generate
  rcases hvalues : SubmissionValues.ofParameters g.parameters with e | values
  · exact onlyRefuses_error.mpr (SubmissionValues.ofParameters_refuses _ e hvalues)
  obtain ⟨w, hw, ⟨stats, hprepare⟩ | ⟨e, he, hprepare⟩⟩ :=
    (Preparation.run_settles (w := { graph := g, counters := s.counters }) hg).cases
  · simp only [hprepare]
    exact generateComposites_refuses hw.wellFormed
  · simp only [hprepare]
    exact onlyRefuses_error.mpr he

/-! ### Stages -/

/-- The graph at some stage of a run: after some passes of preparation, of which the last may have
failed, or at the end, whichever way the run ends. -/
inductive Stage (s : Session) (g : Graph) : Graph → Prop
  | pass (k : Nat) : Stage s g (Preparation.stage { graph := g, counters := s.counters } k).graph
  | last : Stage s g (s.generate g).graph

theorem generateComposites_wellFormed (hg : g.WellFormed) :
    (s.generateComposites g values n).graph.WellFormed := by
  have hends : Ends _ _ (Separation.separate values)
      { graph := g, count := s.parallelComposites } := Separation.separate_ends hg
  exact hends.after (P := fun t => t.graph.WellFormed) (fun _ _ h => h.1.wellFormed)
    fun _ _ h => h.2.wellFormed

theorem generate_wellFormed (hg : g.Sound) (s : Session) : (s.generate g).graph.WellFormed := by
  unfold generate
  rcases SubmissionValues.ofParameters g.parameters with e | values
  · exact hg.wellFormed
  obtain ⟨w, hw, ⟨stats, hprepare⟩ | ⟨e, _, hprepare⟩⟩ :=
    (Preparation.run_settles (w := { graph := g, counters := s.counters }) hg).cases
  · simp only [hprepare]
    exact generateComposites_wellFormed hw.wellFormed
  · simp only [hprepare]
    exact hw.wellFormed

/-- **The graph is well formed at every stage.** -/
theorem Stage.wellFormed (hg : g.Sound) (h : s.Stage g t) : t.WellFormed := by
  cases h with
  | pass k => exact (Preparation.stage_sound hg k).wellFormed
  | last => exact generate_wellFormed hg s

/-- **Generation cannot hit a vacated handle.** On the graph of any description and from any
session, a run succeeds or refuses the topology: it never looks up an operator that is not there,
and has no other failure. Where it comes to composites, all their members are there, and at every
stage the operators in the order of the graph and all neighbours of operators are there. -/
theorem generate_refuses {d : Description} {g : Graph} (h : Graph.ofDescription d = .ok g)
    (s : Session) :
    ((∃ r, (s.generate g).result = .ok r) ∨
        (∃ c, (s.generate g).result = .error (.invalidGraph c)) ∨
        ∃ c, (s.generate g).result = .error (.unmapped c)) ∧
      (∀ cs t, s.ComesTo g cs t → ∀ c ∈ cs, ∀ x ∈ c.nodes, t.contains x = true) ∧
      ∀ t, s.Stage g t → t.Live := by
  have hg : g.Sound := .ofDescription h
  refine ⟨?_, fun cs t hcomes => hcomes.live hg, fun t hstage => (hstage.wellFormed hg).live⟩
  rcases hresult : (s.generate g).result with e | r
  · refine Or.inr ((generate_onlyRefuses hg s e hresult).cases.imp ?_ ?_)
    · rintro ⟨c, rfl⟩
      exact ⟨c, rfl⟩
    · rintro ⟨c, rfl⟩
      exact ⟨c, rfl⟩
  · exact Or.inl ⟨r, rfl⟩

/-- A hash adder is moved in this graph: its place is vacated, and taken by its copy. -/
theorem generate_refuses_chainedRegions :
    Graph.ofDescription chainedRegions.toDescription = .ok chainedRegions ∧
      (∃ e h, chainedRegions.Behind e h) ∧
      ((∃ r, (generate {} chainedRegions).result = .ok r) ∨
        (∃ c, (generate {} chainedRegions).result = .error (.invalidGraph c)) ∨
        ∃ c, (generate {} chainedRegions).result = .error (.unmapped c)) ∧
      ∀ t, Stage {} chainedRegions t → t.Live := by
  obtain ⟨hresult, _, hlive⟩ := generate_refuses chainedRegions_ofDescription {}
  exact ⟨chainedRegions_ofDescription, ⟨⟨4⟩, ⟨5⟩, by decide⟩, hresult, hlive⟩

end Session

end StreamTopology
