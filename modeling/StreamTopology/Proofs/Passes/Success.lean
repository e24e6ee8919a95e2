import StreamTopology.Proofs.Passes.Preparation
import StreamTopology.Proofs.Regions.Isolation

/-!
# Runs of preparation that succeed

Passes that annotate look up and change operators that are live when the pass begins, and annotating
leaves them live; so these passes succeed on every well-formed graph. Taking out a marker needs that
it has one output port at most, and no pass changes that of another operator. What is left that may
fail is what is meant to: the two checks, and the moves of hash adders.

## Main results

* `succeeds_threadedPorts`, `succeeds_colocation`, `succeeds_passByReference`: passes that cannot
  fail.
* `Preparation.run_total`: when a run succeeds.
-/

namespace StreamTopology

/-! ### Passes that annotate -/

section

variable {g t : Graph} {x : Handle} {xs : List Handle} {bs : List Marker} {f : Operator → Operator}

theorem Graph.Annotates.contains (h : g.Annotates t) : t.contains x = g.contains x := by
  have hsome := congrArg Option.isSome (h.skeleton x)
  simpa [Graph.contains] using hsome

theorem succeeds_lookup (h : g.Annotates t) (hx : g.contains x = true) :
    Succeeds g.Annotates (GraphM.lookup x) t := by
  obtain ⟨op, hop⟩ := Graph.contains_iff.mp (h.contains.trans hx)
  exact ⟨op, t, yields_lookup.mpr ⟨hop, rfl⟩, h⟩

theorem succeeds_lookups (h : g.Annotates t) (hxs : ∀ x ∈ xs, g.contains x = true) :
    Succeeds g.Annotates (xs.mapM GraphM.lookup) t :=
  succeeds_mapM h fun x hx _ ht => succeeds_lookup ht (hxs x hx)

theorem succeeds_update (h : g.Annotates t) (hx : g.contains x = true)
    (hf : ∀ op, (f op).skeleton = op.skeleton) :
    Succeeds g.Annotates (GraphM.update x f) t := by
  obtain ⟨op, hop⟩ := Graph.contains_iff.mp (h.contains.trans hx)
  exact ⟨⟨⟩, t.set x (f op), yields_update.mpr ⟨op, hop, rfl⟩,
    h.trans (Graph.annotates_set hop (hf op))⟩

theorem succeeds_onGraph {α : Type} {P : Graph → Prop} {action : GraphM α} {w : Workspace}
    (h : Succeeds P action w.graph) :
    Succeeds (fun w' => P w'.graph) (RegionM.onGraph action) w := by
  obtain ⟨a, g', hrun, hg'⟩ := h
  exact ⟨a, { w with graph := g' }, yields_onGraph.mpr ⟨g', hrun, rfl⟩, hg'⟩

variable (hg : g.WellFormed)

include hg

theorem live_of_mem_parents (h : g.Annotates t) : ∀ p ∈ t.parents x, g.contains p = true :=
  fun _ hp => h.contains ▸ Graph.contains_of_mem_parents (h.wellFormed hg) hp

theorem live_of_mem_children (h : g.Annotates t) : ∀ c ∈ t.children x, g.contains c = true :=
  fun _ hc => h.contains ▸ Graph.contains_of_mem_children (h.wellFormed hg) hc

theorem succeeds_visit (h : g.Annotates t) (hxs : ∀ x ∈ xs, g.contains x = true)
    (hf : ∀ op, (f op).skeleton = op.skeleton) :
    Succeeds g.Annotates (GraphM.visit (.around bs) xs fun x => GraphM.update x f) t := by
  refine succeeds_get_bind (succeeds_forM h fun x hx _ ht => succeeds_update ht ?_ hf)
  rw [← h.contains]
  exact Graph.walk_live (h.wellFormed hg) (fun s hs => h.contains.trans (hxs s hs)) hx

/-- The handles of operators with a property are live. -/
theorem live_of_mem_findAll {p : Operator → Bool} (h : g.Annotates t) :
    ∀ x ∈ t.findAll p, g.contains x = true := by
  intro x hx
  obtain ⟨op, hop, _⟩ := (Graph.mem_findAll (h.wellFormed hg)).mp hx
  exact h.contains ▸ Graph.contains_iff.mpr ⟨op, hop⟩

theorem succeeds_threadedPorts : Succeeds g.Annotates ThreadedPorts.run g := by
  refine succeeds_get_bind (succeeds_bind (succeeds_mapM (.refl g) fun x hx t ht => ?_)
    fun _ _ ht => succeeds_pure ht)
  have hlive : g.contains x = true :=
    Graph.walk_live hg (live_of_mem_findAll hg (.refl g)) hx
  refine succeeds_bind (succeeds_lookup ht hlive) fun op t ht => ?_
  split
  · split
    · exact succeeds_pure ht
    · refine succeeds_get_bind (succeeds_bind (succeeds_lookups ht (live_of_mem_parents hg ht))
        fun parents t ht => ?_)
      split
      · exact succeeds_bind (succeeds_update ht hlive fun _ => Operator.skeleton_drop)
          fun _ _ ht => succeeds_pure ht
      · dsimp only
        split
        · exact succeeds_bind (succeeds_update ht hlive fun _ => rfl) fun _ _ ht =>
            succeeds_pure ht
        · exact succeeds_pure ht
  · exact succeeds_pure ht

theorem succeeds_autonomous (ms : List Handle) :
    Succeeds g.Annotates (ms.forM fun marker => do
      ((← get).children marker).forM fun child =>
        GraphM.update child fun op => { op with autonomous := true }) g :=
  succeeds_forM (.refl g) fun _ _ _ ht => succeeds_get_bind <| succeeds_forM ht fun x hx _ ht' =>
    succeeds_update ht' (live_of_mem_children hg ht x hx) fun _ => rfl

theorem succeeds_colocation : Succeeds g.Annotates Colocation.run g := by
  refine succeeds_get_bind (succeeds_bind (succeeds_mapM (.refl g) fun x hx t ht => ?_)
    fun _ _ ht => succeeds_pure ht)
  obtain ⟨op, hop⟩ := hg.mem_order_iff.mp hx
  have hlive : g.contains x = true := Graph.contains_iff.mpr ⟨op, hop⟩
  refine succeeds_bind (succeeds_update ht hlive fun _ => rfl) fun _ _ ht => ?_
  exact succeeds_bind (succeeds_lookup ht hlive) fun _ _ ht => succeeds_pure ht

theorem succeeds_passByReference : Succeeds g.Annotates PassByReference.run g := by
  refine succeeds_get_bind (succeeds_bind (succeeds_mapM (.refl g) fun x hx t ht => ?_)
    fun _ _ ht => succeeds_pure ht)
  obtain ⟨op, hop⟩ := hg.mem_order_iff.mp hx
  have hlive : g.contains x = true := Graph.contains_iff.mpr ⟨op, hop⟩
  refine succeeds_bind (succeeds_lookup ht hlive) fun op t ht => ?_
  split
  · refine succeeds_get_bind (succeeds_bind (succeeds_lookups ht (live_of_mem_children hg ht))
      fun consumers t ht => ?_)
    dsimp only
    split
    · exact succeeds_pure ht
    · exact succeeds_bind (succeeds_update ht hlive fun _ => rfl) fun _ _ ht => succeeds_pure ht
  · exact succeeds_pure ht

end

/-! ### Regions -/

section

variable {w t : Workspace} {m : Handle} {starts : List Handle} (hg : w.graph.WellFormed)
  (ht : w.graph.Annotates t.graph)

include hg ht

theorem succeeds_isolation_assign (hstarts : ∀ s ∈ starts, w.graph.contains s = true) :
    Succeeds (fun t => w.graph.Annotates t.graph) (Isolation.assign starts) t := by
  refine succeeds_bind (P := fun t => w.graph.Annotates t.graph)
    ⟨_, _, yields_freshIsolateRegion.mpr ⟨rfl, rfl⟩, ht⟩ fun region t ht => ?_
  exact succeeds_onGraph (succeeds_visit hg ht hstarts fun _ => rfl)

theorem succeeds_islands :
    Succeeds (fun t => w.graph.Annotates t.graph) Isolation.assignIslands t := by
  refine succeeds_get_bind (succeeds_forM ht fun start hstart t' ht' => ?_)
  have hlive := live_of_mem_findAll hg ht start hstart
  refine succeeds_bind (succeeds_onGraph (succeeds_lookup ht' hlive)) fun op t'' ht'' => ?_
  split
  · refine succeeds_isolation_assign hg ht'' fun s hs => ?_
    rwa [List.mem_singleton.mp hs]
  · exact succeeds_pure ht''

theorem succeeds_lowLatency_assign :
    Succeeds (fun t => w.graph.Annotates t.graph) (LowLatency.assign m) t := by
  refine succeeds_bind (P := fun t => w.graph.Annotates t.graph)
    ⟨_, _, yields_freshLowLatencyRegion.mpr ⟨rfl, rfl⟩, ht⟩ fun region t ht => ?_
  exact succeeds_get_bind <| succeeds_onGraph <|
    succeeds_visit hg ht (live_of_mem_children hg ht) fun _ => rfl

end

/-! ### Passes that take out markers -/

namespace Graph

variable {g g' t : Graph} {ms ms' : List Marker} {ids : List Handle}

/-- Markers of these kinds have one output port at most. -/
def Trim (g : Graph) (ms : List Marker) : Prop :=
  ∀ x op, g.Marked ms x → g.get? x = some op → op.outputs.length ≤ 1

theorem Trim.mono (h : g.Trim ms) (hsub : ms' ⊆ ms) : g.Trim ms' :=
  fun x op ⟨m, hm, hx⟩ hop => h x op ⟨m, hsub hm, hx⟩ hop

theorem Eliminates.trim {gone : Handle → Prop} (h : g.Eliminates gone g') (htrim : g.Trim ms) :
    g'.Trim ms := by
  rintro x op ⟨m, hm, hx⟩ hop
  have hstays : ¬ gone x := by
    intro hgone
    rw [h.vacated x hgone] at hop
    cases hop
  have hlen := h.outputs x hstays
  rw [hop, Option.map_some] at hlen
  obtain ⟨a, ha, heq⟩ := Option.map_eq_some_iff.mp hlen.symm
  rw [← heq]
  exact htrim x a ⟨m, hm, marker?_congr (h.kind x hstays) ▸ hx⟩ ha

/-- Markers that have one output port at most can be taken out. -/
theorem Trim.removable (hg : g.WellFormed) (hi : g.Indexed) (hco : g.Coherent) (htrim : g.Trim ms)
    (h : g.Annotates t) (hids : ids.Nodup) (hmem : ∀ x ∈ ids, g.Marked ms x) :
    ∃ g', Yields (Rewiring.removeAll ids) t ⟨⟩ g' := by
  refine (yields_removeAll (h.wellFormed hg) hids).mpr fun x hx => ?_
  obtain ⟨m, hm, hmarker⟩ := hmem x hx
  obtain ⟨a, ha, _⟩ := marker?_eq_some.mp hmarker
  obtain ⟨op, hop, _⟩ := h.exists_after ha
  have hsame : t.marker? x = some m := (marker?_congr (h.kind x)).trans hmarker
  exact ⟨op, hop, (h.eliminates hg hi hco).trim htrim x op ⟨m, hm, hsame⟩ hop⟩

end Graph

section

variable {g : Graph} {w : Workspace} {m : Marker}

/-- No operator starts a low latency region and ends one. -/
theorem lowLatencyMarkers_nodup (hg : g.WellFormed) :
    (g.markers .endLowLatency ++ g.markers .lowLatency).Nodup := by
  refine (Graph.findAll_nodup hg).append (Graph.findAll_nodup hg) fun x hx hx' => ?_
  have hmarker := (Graph.mem_markers hg).mp hx
  rw [(Graph.mem_markers hg).mp hx'] at hmarker
  cases hmarker

theorem removeKind_total (hg : g.WellFormed) (hi : g.Indexed) (hco : g.Coherent)
    (htrim : g.Trim [m]) : Succeeds (g.Sheds [m]) (Preparation.removeKind m) g := by
  obtain ⟨g', hremove⟩ := htrim.removable hg hi hco (.refl g) (Graph.findAll_nodup hg)
    fun x hx => ⟨m, List.mem_singleton_self m, (Graph.mem_markers hg).mp hx⟩
  have hrun : Yields (Preparation.removeKind m) g (g.markers m).length g' := by
    rw [Preparation.removeKind, yields_get_bind]
    exact yields_bind.mpr ⟨⟨⟩, g', hremove, yields_pure.mpr ⟨rfl, rfl⟩⟩
  exact ⟨_, g', hrun, removeKind_sheds hg hi hco hrun⟩

theorem autonomous_total (hg : g.WellFormed) (hi : g.Indexed) (hco : g.Coherent)
    (htrim : g.Trim [.autonomous]) : Succeeds (g.Sheds [.autonomous]) Autonomous.run g := by
  obtain ⟨_, t, hflags, ht⟩ := succeeds_autonomous hg (g.markers .autonomous)
  obtain ⟨g', hremove⟩ := htrim.removable hg hi hco ht (Graph.findAll_nodup hg)
    fun x hx => ⟨.autonomous, List.mem_singleton_self _, (Graph.mem_markers hg).mp hx⟩
  have hrun : Yields Autonomous.run g (g.markers .autonomous).length g' := by
    rw [Autonomous.run, yields_get_bind]
    exact yields_bind.mpr ⟨⟨⟩, t, hflags,
      yields_bind.mpr ⟨⟨⟩, g', hremove, yields_pure.mpr ⟨rfl, rfl⟩⟩⟩
  exact ⟨_, g', hrun, autonomous_sheds hg hi hco hrun⟩

theorem isolation_total (hg : w.graph.WellFormed) (hi : w.graph.Indexed)
    (hco : w.graph.Coherent) (hblank : ∀ x op, w.graph.get? x = some op → op.region? = none)
    (hpass : ∀ m ∈ w.graph.markers .isolate, Isolation.Passable w.graph m)
    (htrim : w.graph.Trim [.isolate]) :
    Succeeds (fun w' => w.graph.Sheds [.isolate] w'.graph) Isolation.run w := by
  obtain ⟨w', hrun⟩ := Isolation.run_total hg hblank hpass fun m hm => by
    have hmarker := (Graph.mem_markers hg).mp hm
    obtain ⟨op, hop, _⟩ := Graph.marker?_eq_some.mp hmarker
    exact ⟨op, hop, htrim m op ⟨.isolate, List.mem_singleton_self _, hmarker⟩ hop⟩
  exact ⟨_, w', hrun, isolation_sheds hg hi hco hrun⟩

theorem lowLatency_total (hg : w.graph.WellFormed) (hi : w.graph.Indexed)
    (hco : w.graph.Coherent) (htrim : w.graph.Trim [.lowLatency, .endLowLatency]) :
    Succeeds (fun w' => w.graph.Sheds [.lowLatency, .endLowLatency] w'.graph) LowLatency.run w := by
  have hassigns : Succeeds (fun t => w.graph.Annotates t.graph)
      ((w.graph.markers .lowLatency).forM LowLatency.assign) w :=
    succeeds_forM (.refl _) fun _ _ _ ht => succeeds_lowLatency_assign hg ht
  obtain ⟨_, t, hassigned, ht⟩ := hassigns
  obtain ⟨g', hremove⟩ := htrim.removable hg hi hco ht (lowLatencyMarkers_nodup hg) fun x hx => by
    rcases List.mem_append.mp hx with hx | hx
    · exact ⟨.endLowLatency, by simp, (Graph.mem_markers hg).mp hx⟩
    · exact ⟨.lowLatency, by simp, (Graph.mem_markers hg).mp hx⟩
  have hrun : Yields LowLatency.run w
      (w.graph.markers .endLowLatency ++ w.graph.markers .lowLatency).length
      { t with graph := g' } := by
    rw [LowLatency.run, yields_get_bind]
    exact yields_bind.mpr ⟨⟨⟩, t, hassigned, yields_bind.mpr ⟨⟨⟩, _,
      yields_onGraph.mpr ⟨g', hremove, rfl⟩, yields_pure.mpr ⟨rfl, rfl⟩⟩⟩
  exact ⟨_, _, hrun, lowLatency_sheds hg hi hco hrun⟩

end

/-! ### The run -/

namespace Preparation

variable {w : Workspace} {g : Graph} {n : Nat}

/-- **When a run succeeds.** The ends of regions are in order and hash adders can be moved; after
that no operator has a region yet, every isolate is passable, and no marker that is to be taken out
has two output ports. -/
theorem run_total (hcheck : w.graph.checkRegionEnds = .ok ())
    (hrelocate : Yields HashAdders.relocate w.graph n g) (hg : g.WellFormed) (hi : g.Indexed)
    (hco : g.Coherent) (hblank : ∀ x op, g.get? x = some op → op.region? = none)
    (hpass : ∀ m ∈ g.markers .isolate, Isolation.Passable g m) (htrim : g.Trim Marker.consumed) :
    ∃ stats w', Yields run w stats w' := by
  obtain ⟨k, w₂, hisolation, h₂⟩ := isolation_total (w := { w with graph := g }) hg hi hco hblank
    hpass (htrim.mono (by decide))
  have t₂ := h₂.trim htrim
  obtain ⟨l, w₃, hlowLatency, h₃⟩ :=
    lowLatency_total h₂.wellFormed h₂.indexed h₂.coherent (t₂.mono (by decide))
  obtain ⟨d, g₄, hports, h₄⟩ := succeeds_threadedPorts h₃.wellFormed
  have h₄ := Graph.sheds_nil h₃.wellFormed h₃.indexed h₃.coherent h₄
  have t₄ := h₄.trim (h₃.trim t₂)
  obtain ⟨u, g₅, hunion, h₅⟩ :=
    removeKind_total h₄.wellFormed h₄.indexed h₄.coherent (m := .union) (t₄.mono (by decide))
  have t₅ := h₅.trim t₄
  obtain ⟨p, g₆, hpending, h₆⟩ :=
    removeKind_total h₅.wellFormed h₅.indexed h₅.coherent (m := .pending) (t₅.mono (by decide))
  obtain ⟨a, g₇, hautonomous, h₇⟩ :=
    autonomous_total h₆.wellFormed h₆.indexed h₆.coherent ((h₆.trim t₅).mono (by decide))
  obtain ⟨c, g₈, hcolocation, h₈⟩ := succeeds_colocation h₇.wellFormed
  obtain ⟨o, g₉, hreference, _⟩ := succeeds_passByReference (h₈.wellFormed h₇.wellFormed)
  refine ⟨⟨n, k + l + (u + p) + a, d, o⟩, { w₃ with graph := g₉ }, ?_⟩
  rw [run, yields_get_bind]
  simp only [yields_bind, yields_pure, yields_liftM, yields_onGraph]
  exact ⟨⟨⟩, _, ⟨hcheck, rfl⟩, n, _, ⟨g, hrelocate, rfl⟩, k, w₂, hisolation, l, w₃, hlowLatency,
    d, _, ⟨g₄, hports, rfl⟩, u, _, ⟨g₅, hunion, rfl⟩, p, _, ⟨g₆, hpending, rfl⟩,
    a, _, ⟨g₇, hautonomous, rfl⟩, c, _, ⟨g₈, hcolocation, rfl⟩, o, _, ⟨g₉, hreference, rfl⟩,
    rfl, rfl⟩

end Preparation

end StreamTopology
