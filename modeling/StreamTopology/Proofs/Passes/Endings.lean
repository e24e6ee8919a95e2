import StreamTopology.Proofs.Graph.Soundness
import StreamTopology.Proofs.Passes.AdderMove
import StreamTopology.Proofs.Passes.Success

/-!
# How preparation ends

On a sound graph every pass settles: it leaves a sound graph behind, and if it fails, the topology
is at fault. The ports of the topology need not agree with each other for that.

A pass that annotates cannot fail, and annotating keeps a graph sound. A pass that takes out markers
looks for them on the graph it starts from, so they are live, and each is named once. The one pass
that takes out an operator and puts it back is the move of a hash adder: the copy gets the place
that the adder leaves, so that the same handles are live before and after the move, and a handle
that was collected before is as good as it was.

## Main definitions

* `Preparation.passes`, `Preparation.stage`: a run pass by pass.

## Main results

* `moveChild_ends`: a move leaves the same handles live.
* `Preparation.stage_sound`: the graph is sound after every pass.
* `Preparation.run_settles`: a run settles.
-/

namespace StreamTopology

theorem Graph.Annotates.sound {g t : Graph} (h : g.Annotates t) (hg : g.Sound) : t.Sound :=
  ⟨h.wellFormed hg.wellFormed, h.indexed hg.indexed⟩

/-! ### Operations on the graph of a workspace -/

section

variable {α : Type} {w : Workspace} {action : GraphM α}

theorem ends_onGraph {Q : α → Workspace → Prop} {F : Error → Workspace → Prop}
    (h : Ends (fun a g => Q a { w with graph := g }) (fun e g => F e { w with graph := g }) action
      w.graph) : Ends Q F (RegionM.onGraph action) w := by
  have hrun : (RegionM.onGraph action).run.run w =
      ((action.run.run w.graph).1, { w with graph := (action.run.run w.graph).2 }) := rfl
  unfold Ends at h ⊢
  rw [hrun]
  rcases hgraph : action.run.run w.graph with ⟨e | a, t⟩
  · rw [hgraph] at h
    exact h
  · rw [hgraph] at h
    exact h

theorem settles_onGraph {P : Graph → Prop} (h : Settles P action w.graph) :
    Settles (fun w => P w.graph) (RegionM.onGraph action) w :=
  ends_onGraph h

end

section

variable {g t : Graph} {w : Workspace} {m : Marker} {x : Handle}

/-- An action that annotates and succeeds settles. -/
theorem settles_of_annotates {α : Type} {action : GraphM α} (hg : g.Sound)
    (h : Succeeds g.Annotates action g) : Settles Graph.Sound action g :=
  h.ends.mono (fun _ _ ht => ht.sound hg) fun _ _ ht => ht

/-! ### The ends of regions -/

theorem checkEnd_refuses (hg : g.WellFormed) (hx : g.contains x = true) :
    OnlyRefuses (g.checkEnd x) := by
  obtain ⟨op, hop⟩ := Graph.contains_iff.mp hx
  unfold Graph.checkEnd
  split
  next parent hparents =>
    split
    · exact onlyRefuses_ok ()
    · have hparent : parent ∈ g.parents x := hparents ▸ List.mem_singleton_self parent
      obtain ⟨above, habove⟩ :=
        Graph.contains_iff.mp (Graph.contains_of_mem_parents hg hparent)
      simp only [habove]
      exact onlyRefuses_error.mpr trivial
  next =>
    simp only [hop]
    exact onlyRefuses_error.mpr trivial

theorem checkRegionEnds_refuses (hg : g.WellFormed) : OnlyRefuses g.checkRegionEnds :=
  onlyRefuses_forM fun x hx => checkEnd_refuses hg (live_of_mem_findAll hg (.refl g) x hx)

/-! ### Hash adders -/

/-- A copy of an operator that has been taken out gets its place back. -/
theorem Graph.Sound.replaced {op : Operator} (hg : g.Sound) (hop : g.get? x = some op)
    (anchor : Handle) (copy : Operator) :
    ((g.without x op).insertBefore anchor copy).1 = x ∧
      ((g.without x op).insertBefore anchor copy).2.Sound ∧
      g.Retains ((g.without x op).insertBefore anchor copy).2 := by
  have hplace : ((g.without x op).insertBefore anchor copy).1 = x :=
    Graph.insertBefore_fst (Graph.vacant_without hop)
  have hsound := (hg.without hop).insertBefore anchor copy
  refine ⟨hplace, hsound, hsound.wellFormed, fun y => ?_⟩
  rw [(hg.without hop).wellFormed.contains_insertBefore, hplace]
  by_cases hy : y = x
  · rw [hy, beq_self_eq_true, Bool.true_or, Graph.contains, hop]
    rfl
  · rw [beq_false_of_ne hy, Bool.false_or, Graph.contains_without hy]

theorem succeeds_withSchema {schema : String} (hg : g.Sound) (hx : g.contains x = true) :
    Succeeds (fun t => t.Sound ∧ g.Retains t)
      (GraphM.update x (HashAdders.withSchema schema)) g := by
  obtain ⟨a, ha⟩ := Graph.contains_iff.mp hx
  refine ⟨⟨⟩, _, yields_update.mpr ⟨a, ha, rfl⟩, ?_, ?_⟩
  · exact (Graph.annotates_set ha Operator.skeleton_withSchema).sound hg
  · rw [Graph.set_eq_mapAt ha]
    exact (Graph.Retains.refl hg.wellFormed).mapAt [x] _

/-- **How the move of a hash adder ends.** The same handles are live afterwards. -/
theorem moveChild_ends (hg : g.Sound) :
    Ends (fun _ t => t.Sound ∧ g.Retains t) (fun e t => e.IsRefusal ∧ t.Sound)
      (HashAdders.moveChild x) g := by
  refine ends_get_bind ?_
  split
  next adder hchildren =>
    have hadder : adder ∈ g.children x := hchildren ▸ List.mem_singleton_self adder
    have hend : g.contains x = true :=
      (hg.wellFormed.mem_order x).mp (Graph.mem_children_links.mp hadder).1
    have hlive : g.contains adder = true := Graph.contains_of_mem_children hg.wellFormed hadder
    refine ends_lookup_bind (fun op hop => ?_) fun hdead => ?_
    · rcases op.outputs.head? with _ | output
      · exact ends_pure ⟨hg, .refl hg.wellFormed⟩
      refine ends_bind ((remove_ends hg.wellFormed).mono (fun _ _ h => h) ?_) ?_
      · rintro e t ⟨rfl, hrefuse⟩
        exact ⟨hrefuse hlive, hg⟩
      rintro _ t ⟨op', hop', rfl⟩
      obtain rfl := Option.some.inj (hop.symm.trans hop')
      obtain ⟨hplace, hsound, hretains⟩ := hg.replaced hop x (op.copyAs op.name)
      refine ends_get_bind (ends_bind (P := fun _ t => t = _) (ends_set rfl) ?_)
      rintro _ _ rfl
      refine ends_bind ((interposeAbove_ends hsound).mono (fun _ _ h => h) ?_) ?_
      · rintro e t ⟨ht, hrefuse⟩
        refine ⟨hrefuse ?_, ht⟩
        exact (congrArg _ hplace).trans ((hretains.contains adder).trans hlive)
      rintro _ t ⟨ht, hmoved⟩
      have hkept := hretains.trans hmoved
      exact ends_bind (succeeds_withSchema ht ((hkept.contains x).trans hend)).ends
        fun _ _ h => ends_pure ⟨h.1, hkept.trans h.2⟩
    · rw [hdead] at hlive
      cases hlive
  next => exact ends_pure ⟨hg, .refl hg.wellFormed⟩

theorem relocate_settles (hg : g.Sound) : Settles Graph.Sound HashAdders.relocate g := by
  have hends : Ends (fun _ t => t = g) (fun e t => e.IsRefusal ∧ t.Sound) HashAdders.ends g := by
    refine ends_get_bind (ends_bind (P := fun _ t => t = g) (ends_mapM rfl fun adder _ t ht => ?_)
      fun _ _ h => ends_pure h)
    refine ends_get_bind ?_
    split
    next parent hparents =>
      have hparent : t.contains parent = true :=
        Graph.contains_of_mem_parents (ht ▸ hg.wellFormed)
          (hparents ▸ List.mem_singleton_self parent)
      refine ends_lookup_bind (fun _ _ => ends_pure ht) fun hdead => ?_
      rw [hdead] at hparent
      cases hparent
    next => exact ends_pure ht
  refine ends_bind hends fun ids t ht => ?_
  refine ends_bind (ends_mapM (ht ▸ hg) fun x _ t ht => ?_) fun _ _ h => ends_pure h
  exact (moveChild_ends ht).mono (fun _ _ h => h.1) fun _ _ h => h

/-! ### Passes that take out markers -/

/-- After annotating, the markers of a list are taken out. -/
theorem removeAll_annotates_settles {ids : List Handle} (hg : g.Sound) (h : g.Annotates t)
    (hids : ids.Nodup) (hlive : ∀ x ∈ ids, g.contains x = true) :
    Settles Graph.Sound (Rewiring.removeAll ids) t :=
  removeAll_settles (h.sound hg) hids fun x hx => h.contains.trans (hlive x hx)

theorem removeKind_settles (hg : g.Sound) : Settles Graph.Sound (Preparation.removeKind m) g :=
  ends_get_bind <| ends_bind
    (removeAll_settles hg (Graph.findAll_nodup hg.wellFormed)
      (live_of_mem_findAll hg.wellFormed (.refl g)))
    fun _ _ h => ends_pure h

theorem autonomous_settles (hg : g.Sound) : Settles Graph.Sound Autonomous.run g := by
  refine ends_get_bind (ends_bind (succeeds_autonomous hg.wellFormed _).ends fun _ t ht => ?_)
  refine ends_bind (removeAll_annotates_settles hg ht (Graph.findAll_nodup hg.wellFormed) ?_)
    fun _ _ h => ends_pure h
  exact live_of_mem_findAll hg.wellFormed (.refl g)

/-- The check of a marker changes nothing, and has two ways to fail. -/
theorem check_ends (hg : g.WellFormed) :
    Ends (fun _ t => t = g)
      (fun e t => (e = .invalidGraph .adjacentIsolates ∨ e = .invalidGraph .rejoinedIsolation) ∧
        t = g) (Isolation.check x) g := by
  refine ends_get_bind (ends_lookups_bind (fun _ => Graph.contains_of_mem_parents hg) ?_)
  dsimp only
  split
  · exact ends_bind (P := fun _ _ => False) (ends_throw ⟨Or.inl rfl, rfl⟩) fun _ _ h => h.elim
  · exact ends_reject (fun _ => ⟨Or.inr rfl, rfl⟩) fun _ => rfl

theorem isolation_settles (hg : w.graph.Sound) :
    Settles (fun t => t.graph.Sound) Isolation.run w := by
  have hwf := hg.wellFormed
  refine ends_get_bind (ends_bind (P := fun _ t => w.graph.Annotates t.graph) ?_ fun _ t ht => ?_)
  · refine ends_forM (.refl _) fun marker _ t ht => ends_onGraph ?_
    refine (check_ends (ht.wellFormed hwf)).mono ?_ ?_
    · rintro _ _ rfl
      exact ht
    · rintro _ _ ⟨rfl | rfl, rfl⟩
      · exact ⟨trivial, ht.sound hg⟩
      · exact ⟨trivial, ht.sound hg⟩
  have hassign : Succeeds (fun t => w.graph.Annotates t.graph)
      ((w.graph.markers .isolate).forM fun marker => do
        Isolation.assign ((← get).graph.parents marker)
        Isolation.assign ((← get).graph.children marker)) t := by
    refine succeeds_forM ht fun marker _ t ht => succeeds_get_bind ?_
    refine succeeds_bind (succeeds_isolation_assign hwf ht (live_of_mem_parents hwf ht))
      fun _ t ht => succeeds_get_bind ?_
    exact succeeds_isolation_assign hwf ht (live_of_mem_children hwf ht)
  refine ends_bind hassign.ends fun _ t ht => ?_
  refine ends_bind (succeeds_islands hwf ht).ends fun _ t ht => ?_
  refine ends_bind (settles_onGraph (removeAll_annotates_settles hg ht (Graph.findAll_nodup hwf)
    (live_of_mem_findAll hwf (.refl _)))) fun _ _ h => ends_pure h

theorem lowLatency_settles (hg : w.graph.Sound) :
    Settles (fun t => t.graph.Sound) LowLatency.run w := by
  have hwf := hg.wellFormed
  have hassign : Succeeds (fun t => w.graph.Annotates t.graph)
      ((w.graph.markers .lowLatency).forM LowLatency.assign) w :=
    succeeds_forM (.refl _) fun _ _ _ ht => succeeds_lowLatency_assign hwf ht
  refine ends_get_bind (ends_bind hassign.ends fun _ t ht => ?_)
  refine ends_bind (settles_onGraph (removeAll_annotates_settles hg ht
    (lowLatencyMarkers_nodup hwf) fun x hx => ?_)) fun _ _ h => ends_pure h
  rcases List.mem_append.mp hx with hx | hx
  · exact live_of_mem_findAll hwf (.refl _) x hx
  · exact live_of_mem_findAll hwf (.refl _) x hx

end

/-! ### The run -/

namespace Preparation

/-- The pass without what it counts. -/
def silent {α : Type} (pass : RegionM α) : RegionM Unit := do
  let _ ← pass
  pure ()

/-- The passes of a run, in their order. -/
def passes : List (RegionM Unit) :=
  [do (← get).graph.checkRegionEnds,
   silent (RegionM.onGraph HashAdders.relocate),
   silent Isolation.run,
   silent LowLatency.run,
   silent (RegionM.onGraph ThreadedPorts.run),
   silent (RegionM.onGraph (removeKind .union)),
   silent (RegionM.onGraph (removeKind .pending)),
   silent (RegionM.onGraph Autonomous.run),
   silent (RegionM.onGraph Colocation.run),
   silent (RegionM.onGraph PassByReference.run)]

/-- The workspace after some of the passes, or where one of them has failed. -/
def stage (w : Workspace) (k : Nat) : Workspace := (((passes.take k).forM id).run.run w).2

variable {w : Workspace}

theorem silent_run : silent run = passes.forM id := by
  rw [silent, run, passes]
  simp only [List.forM_eq_forM, List.forM_cons, List.forM_nil, id_eq, silent, bind_assoc, pure_bind]

theorem settles_silent {α : Type} {P : Workspace → Prop} {pass : RegionM α} :
    Settles P (silent pass) w ↔ Settles P pass w := by
  refine ⟨fun h => ?_, fun h => ends_bind h fun _ _ ht => ends_pure ht⟩
  have hrun : (silent pass).run.run w = ExceptT.bindCont (fun _ => (pure () : RegionM Unit))
      (pass.run.run w).1 (pass.run.run w).2 := rfl
  unfold Settles Ends at h ⊢
  rw [hrun] at h
  rcases hpass : pass.run.run w with ⟨e | a, t⟩
  · rw [hpass] at h
    exact h
  · rw [hpass] at h
    exact h

/-- **How a pass ends**: it leaves a sound graph, and if it fails, the topology is at fault. -/
theorem passes_settle : ∀ pass ∈ passes, ∀ w : Workspace, w.graph.Sound →
    Settles (fun t => t.graph.Sound) pass w := by
  simp only [passes, List.forall_mem_cons, List.not_mem_nil, false_implies, implies_true, and_true,
    settles_silent]
  refine ⟨fun w hg => ends_get_bind ?_, fun w hg => settles_onGraph (relocate_settles hg),
    fun w hg => isolation_settles hg, fun w hg => lowLatency_settles hg,
    fun w hg => settles_onGraph (settles_of_annotates hg (succeeds_threadedPorts hg.wellFormed)),
    fun w hg => settles_onGraph (removeKind_settles hg),
    fun w hg => settles_onGraph (removeKind_settles hg),
    fun w hg => settles_onGraph (autonomous_settles hg),
    fun w hg => settles_onGraph (settles_of_annotates hg (succeeds_colocation hg.wellFormed)),
    fun w hg => settles_onGraph (settles_of_annotates hg (succeeds_passByReference hg.wellFormed))⟩
  exact ends_liftM (fun _ _ => hg) fun e he => ⟨checkRegionEnds_refuses hg.wellFormed e he, hg⟩

/-- Some of the passes, one after the other. -/
theorem settles_take (hg : w.graph.Sound) (k : Nat) :
    Settles (fun t => t.graph.Sound) ((passes.take k).forM id) w :=
  ends_forM hg fun pass hpass t ht => passes_settle pass (List.mem_of_mem_take hpass) t ht

/-- **The graph is sound at every stage.** -/
theorem stage_sound (hg : w.graph.Sound) (k : Nat) : (stage w k).graph.Sound :=
  (settles_take hg k).after (fun _ _ h => h) fun _ _ h => h.2

/-- **How a run of preparation ends**: it leaves a sound graph, and if it fails, the topology is at
fault. -/
theorem run_settles (hg : w.graph.Sound) : Settles (fun t => t.graph.Sound) run w := by
  rw [← settles_silent, silent_run]
  exact settles_take hg passes.length

end Preparation

end StreamTopology
