import StreamTopology.Proofs.Generation
import StreamTopology.Proofs.Graph.Narrowing
import StreamTopology.Proofs.Regions.Linked

/-!
# Every emitted operator has a colocation

Regions are given out early, by walks that follow streams in both directions, start at the sources
and around the isolation markers, and do not pass these markers. Operators are emitted late, when
all markers but those of parallel regions are gone, by following streams downwards from the sources.
Nothing in the code compares the two. What links them is that every pass in between makes the graph
narrower: what is emitted was reachable when the regions were given out, and what was reachable then
has been given one, because a chain of streams from a source passes from one walk to the next at
every marker.

The relocation of hash adders comes before the walks. It gives nobody a region, but it may give
ports names that are in use, so the names of input ports are compared after it.

## Main definitions

* `Graph.Regionless`: no operator has an isolation region.

## Main results

* `Isolation.Outcome.claimed`: what is reachable is an isolation marker or has been given a region.
* `Preparation.run_keyed`: what preparation leaves reachable has a colocation key.
* `Session.generate_colocated`: so has every member of a composite.
-/

namespace StreamTopology

/-! ### Regions of what is reachable -/

namespace Isolation

open StreamTopology.Graph

variable {g g' : Graph} {n : Nat} {islands : List Handle} {x : Handle} {op : Operator}

/-- **What a source reaches is claimed by a batch**, unless it is a marker. A walk goes on along the
chain of streams, and where the chain goes through a marker, the batch of its children takes
over. -/
theorem Outcome.claimed (ho : Outcome g n islands g') (hg : g.WellFormed) (hi : g.Indexed)
    (hx : g.Reachable x) :
    x ∈ g.markers .isolate ∨ firstBatch g (batches g islands) x ≠ none := by
  obtain ⟨s, hs, hsx⟩ := hx
  induction hsx with
  | refl => exact Or.inr (ho.covered s hs)
  | @tail y z _ hyz ih =>
    by_cases hz : z ∈ g.markers .isolate
    · exact Or.inl hz
    have hgate : g.isGate bounds z = false :=
      Bool.eq_false_iff.mpr fun h => hz ((isGate_iff_mem_markers hg).mp h)
    have hchild : z ∈ g.children y := (mem_children hg hi).mpr hyz
    refine Or.inr (firstBatch_ne_none.mpr ?_)
    rcases ih with hy | hy
    · refine ⟨g.children y, List.mem_append_left _ ?_, start_mem_walk hgate hchild⟩
      exact List.mem_flatMap.mpr ⟨y, hy, by simp⟩
    · obtain ⟨starts, hstarts, hvisit⟩ := firstBatch_ne_none.mp hy
      exact ⟨starts, hstarts, walk_closed hvisit (Or.inr hchild) hgate⟩

/-- What is reachable and left has a region. -/
theorem Outcome.region_of_reachable (ho : Outcome g n islands g') (hg : g.WellFormed)
    (hi : g.Indexed) (hx : g.Reachable x) (hop : g'.get? x = some op) : op.region? ≠ none := by
  rcases ho.claimed hg hi hx with hmarker | hclaimed
  · rw [ho.gone x hmarker] at hop
    cases hop
  · rw [ho.region x op hop, ne_eq, Option.map_eq_none_iff]
    exact hclaimed

end Isolation

/-! ### Relocation gives out no regions -/

/-- No operator has an isolation region. -/
def Graph.Regionless (g : Graph) : Prop := ∀ x op, g.get? x = some op → op.region? = none

/-- A step that keeps a well-formed graph well formed and gives nobody a region. -/
def Graph.Spares (g g' : Graph) : Prop :=
  g.WellFormed ∧ g.Regionless → g'.WellFormed ∧ g'.Regionless

instance : Std.Refl Graph.Spares := ⟨fun _ => id⟩

instance : IsTrans Graph Graph.Spares := ⟨fun _ _ _ h h' => h' ∘ h⟩

namespace HashAdders

open StreamTopology.Graph

variable {g g' : Graph} {n : Nat} {x : Handle} {op : Operator}

theorem spares_set {op' : Operator} (hop : g.get? x = some op) (hconfig : op'.config = op.config) :
    Spares g (g.set x op') := by
  rintro ⟨hg, hblank⟩
  refine ⟨set_eq_mapAt (f := fun _ => op') hop ▸ hg.mapAt _ _, fun y a ha => ?_⟩
  rw [get?_set (contains_iff.mpr ⟨op, hop⟩)] at ha
  split at ha
  · obtain rfl := Option.some.inj ha
    rw [Operator.region?, Operator.placement, hconfig]
    exact hblank x op hop
  · exact hblank y a ha

/-- The copy of an operator without a region has none. -/
theorem spares_copied {e : Handle} (hop : g.get? x = some op) : Spares g (g.copied e x op) := by
  rintro ⟨hg, hblank⟩
  have hwithout := hg.without x op
  refine ⟨hwithout.insertBefore e _, fun y a ha => ?_⟩
  rw [copied, hwithout.get?_insertBefore] at ha
  split at ha
  · obtain rfl := Option.some.inj ha
    exact hblank x op hop
  · have hy : y ≠ x := by
      rintro rfl
      rw [get?_without_self] at ha
      cases ha
    obtain ⟨b, hb, heq⟩ := exists_of_disconnected (disconnected_without hy) ha
    rw [← Operator.region?_disconnected, ← heq, Operator.region?_disconnected]
    exact hblank y b hb

/-- **Relocation gives out no regions.** -/
theorem relocate_regionless (hg : g.WellFormed) (hblank : g.Regionless)
    (hrun : Yields relocate g n g') : g'.Regionless := by
  obtain ⟨_, hspares⟩ := confined_relocate (R := Spares)
    (fun _ _ _ _ _ hop hconfig _ => spares_set hop hconfig)
    (fun _ hg => ⟨hg.1.reindexed, hg.2⟩) (fun _ _ _ _ _ hop => spares_copied hop) hg hrun
  exact (hspares ⟨hg, hblank⟩).2

end HashAdders

/-! ### Keys -/

theorem nonEmpty?_eq_some {id : Option String} {key : String} (h : nonEmpty? id = some key) :
    key ≠ "" := by
  rw [nonEmpty?, Option.filter_eq_some_iff] at h
  rintro rfl
  simp at h

/-- An operator with an isolation region has a colocation. -/
theorem Placement.colocation?_of_region {p : Placement} (h : p.isolateRegion? ≠ none) :
    ∃ key, p.colocation? = some key ∧ key ≠ "" := by
  obtain ⟨region, hregion⟩ := Option.ne_none_iff_exists'.mp h
  rcases htag : nonEmpty? p.explicitTag with _ | tag
  · rcases hlow : p.lowLatencyRegion? with _ | low
    · refine ⟨region, ?_, nonEmpty?_eq_some hregion⟩
      rw [colocation?, htag, hlow, hregion]
      rfl
    · refine ⟨low, ?_, nonEmpty?_eq_some hlow⟩
      rw [colocation?, htag, hlow]
      rfl
  · refine ⟨tag, ?_, nonEmpty?_eq_some htag⟩
    rw [colocation?, htag]
    rfl

/-- The colocation key is the colocation. -/
def Operator.Keyed (op : Operator) : Prop := op.placement.colocateKey = op.placement.colocation?

/-- **Every operator is keyed** by the pass that chooses the keys. -/
theorem Colocation.run_keyed {g g' : Graph} {n : Nat} (hg : g.WellFormed)
    (hrun : Yields Colocation.run g n g') : ∀ x op, g'.get? x = some op → op.Keyed := by
  have hannotates : g.Annotates g' := annotating_colocation _ _ _ hrun
  rw [Colocation.run, yields_get_bind] at hrun
  obtain ⟨keyed, t, hloop, hrun⟩ := yields_bind.mp hrun
  obtain ⟨_, rfl⟩ := yields_pure.mp hrun
  have hkeyed := Yields.mapM_induction
    (I := fun done t => ∀ x ∈ done, ∀ op, t.get? x = some op → op.Keyed)
    (fun done x t₁ _ t₂ _ hI hstep => ?_) (fun _ hx => by cases hx) hloop
  · intro x op hop
    refine hkeyed x ?_ op hop
    rw [← hannotates.order]
    exact (hannotates.wellFormed hg).mem_order_iff.mpr ⟨op, hop⟩
  · simp only [yields_bind, yields_update, yields_lookup, yields_pure] at hstep
    obtain ⟨_, _, ⟨a, ha, rfl⟩, _, _, ⟨_, rfl⟩, _, rfl⟩ := hstep
    intro y hy op hop
    rw [Graph.get?_set (Graph.contains_iff.mpr ⟨a, ha⟩)] at hop
    split at hop
    · obtain rfl := Option.some.inj hop
      rfl
    · rename_i hne
      refine hI y ?_ op hop
      exact (List.mem_append.mp hy).resolve_right fun hx => hne (List.mem_singleton.mp hx)

/-! ### The whole preparation -/

namespace Preparation

open StreamTopology.Graph

variable {w w' : Workspace} {stats : Stats} {x : Handle} {op : Operator}

theorem narrows_removes (x : Handle) :
    Confined (Narrows Operator.region?) (Rewiring.remove x) :=
  narrows_remove (fun _ => rfl) x

/-- Joining a low latency region leaves the isolation region. -/
theorem region?_joinLowLatency {region : String} (op : Operator) :
    (op.mapPlacement fun p => p.joinLowLatencyRegion region).region? = op.region? := by
  simp only [Operator.region?, Operator.placement, Operator.mapPlacement,
    Placement.joinLowLatencyRegion]
  split <;> rfl

/-- **What preparation leaves reachable has a colocation key**, if nobody came with a region and the
names of input ports are different once hash adders have been moved. -/
theorem run_keyed (hg : w.graph.Sound) (hblank : w.graph.Regionless)
    (hnames : ∀ n g, Yields HashAdders.relocate w.graph n g →
      (g.inputPorts.map InputPort.name).Nodup)
    (hrun : Yields run w stats w') (hx : w'.graph.Reachable x) (hop : w'.graph.get? x = some op) :
    ∃ key, op.placement.colocateKey = some key ∧ key ≠ "" := by
  obtain ⟨_, w₁, w₂, w₃, g₄, g₅, g₆, g₇, g₈, _, _, _, _, _, _, hrelocate, hisolation,
    hlowLatency, hthreaded, hunion, hpending, hautonomous, hcolocation, hreference, _⟩ :=
    run_passes hrun
  have hg₁ : w₁.graph.Addressed := ⟨(relocate_settles hg).of_yields hrelocate, hnames _ _ hrelocate⟩
  have hblank₁ := HashAdders.relocate_regionless hg.wellFormed hblank hrelocate
  obtain ⟨_, islands, houtcome⟩ := Isolation.run_outcome hg₁.sound.wellFormed hblank₁ hisolation
  -- giving out regions: only the names matter for what is reachable
  have h₂ : Narrowed (fun _ => ()) w₁.graph w₂.graph :=
    confined_isolation (narrows_remove fun _ => rfl)
      (fun _ => narrows_writes (fun _ => rfl) (fun _ => rfl) fun _ => rfl) _ _ _ hisolation hg₁
  -- up to the choice of keys, regions stay
  have h₃ := confined_lowLatency narrows_removes
    (fun _ => narrows_writes (fun _ => rfl) (fun _ => rfl) region?_joinLowLatency) _ _ _
    hlowLatency h₂.addressed
  have h₄ := confined_threadedPorts (R := Narrows Operator.region?)
    (fun _ => narrows_writes (fun _ => Operator.skeleton_drop) (fun _ => rfl) fun _ => rfl)
    (fun g x _ port hop _ => narrows_writes (f := ThreadedPorts.configure port) (fun _ => rfl)
      (fun _ => rfl) (fun _ => rfl) g x _ hop) _ _ _ hthreaded h₃.addressed
  have h₅ := confined_removeKind narrows_removes _ _ _ _ hunion h₄.addressed
  have h₆ := confined_removeKind narrows_removes _ _ _ _ hpending h₅.addressed
  have h₇ := confined_autonomous narrows_removes
    (narrows_writes (fun _ => rfl) (fun _ => rfl) fun _ => rfl) _ _ _ hautonomous h₆.addressed
  have h₈ := confined_colocation (R := Narrows Operator.region?)
    (narrows_writes (fun _ => rfl) (fun _ => rfl) fun _ => rfl) _ _ _ hcolocation h₇.addressed
  have hkeyed := Colocation.run_keyed h₇.addressed.sound.wellFormed hcolocation
  -- afterwards, keys stay
  have h₉ := confined_passByReference (R := Narrows fun op => op.placement.colocateKey)
    (fun _ => narrows_writes (fun _ => rfl) (fun _ => rfl) fun _ => rfl) _ _ _ hreference
    h₈.addressed
  have hregions := h₃.trans (h₄.trans (h₅.trans (h₆.trans (h₇.trans h₈))))
  have hreach₂ := hregions.reachable h₂.addressed.sound.wellFormed
    (h₉.reachable h₈.addressed.sound.wellFormed hx)
  obtain ⟨a, ha, hkey, _⟩ := h₉.kept x op hop
  obtain ⟨b, hb, hregion, _⟩ := hregions.kept x a ha
  have hplaced : a.region? ≠ none := by
    rw [← hregion]
    exact houtcome.region_of_reachable hg₁.sound.wellFormed hg₁.sound.indexed
      (h₂.reachable hg₁.sound.wellFormed hreach₂) hb
  obtain ⟨key, hcolocation, hne⟩ := Placement.colocation?_of_region hplaced
  exact ⟨key, hkey.symm.trans ((hkeyed x a ha).trans hcolocation), hne⟩

end Preparation

namespace Session

variable {s : Session} {g : Graph} {r : Generated}

/-- **Every emitted operator has a colocation.** If no operator comes with an isolation region, and
no two input ports share a name once hash adders have been moved, then after a run that succeeds,
every operator that is a member of a composite has a colocation key, which is not empty. The ports
need not agree with each other on their streams. -/
theorem generate_colocated {d : Description} (h : Graph.ofDescription d = .ok g)
    (hblank : ∀ x op, g.get? x = some op → op.region? = none)
    (hnames : ∀ n t, Yields HashAdders.relocate g n t → (t.inputPorts.map InputPort.name).Nodup)
    (hresult : (s.generate g).result = .ok r) :
    ∃ cs, s.ComesTo g cs (s.generate g).graph ∧ r.composites = cs.length ∧
      ∀ c ∈ cs, ∀ x ∈ c.nodes, ∃ op key, (s.generate g).graph.get? x = some op ∧
        op.placement.colocateKey = some key ∧ key ≠ "" := by
  have hg : g.Sound := .ofDescription h
  obtain ⟨cs, hcomes, hlength⟩ := exists_comesTo_of_generate hresult
  refine ⟨cs, hcomes, hlength, fun c hc x hx => ?_⟩
  have hlive := hcomes.live hg c hc x hx
  obtain ⟨values, stats, w, done, _, hprepare, hseparate, hdone⟩ := hcomes
  have hw : w.graph.Sound := (Preparation.run_settles hg).of_yields hprepare
  have hreach := Separation.separate_reached hw.wellFormed hw.indexed hseparate c hc x hx
  obtain ⟨op, hop⟩ := Graph.contains_iff.mp hlive
  -- a separation renames streams, and leaves placements alone
  have hrenamed := Separation.separate_renamed hseparate x
  rw [← hdone, hop] at hrenamed
  obtain ⟨a, ha, hsame⟩ := Option.map_eq_some_iff.mp hrenamed.symm
  have hconfig : a.unstreamed.config = op.unstreamed.config := congrArg Operator.config hsame
  obtain ⟨key, hkey, hne⟩ := Preparation.run_keyed
    (w := { graph := g, counters := s.counters }) hg hblank hnames hprepare hreach ha
  refine ⟨op, key, hop, ?_, hne⟩
  rw [← hkey]
  exact congrArg (fun c => c.placement.colocateKey) hconfig.symm

/-- A source, and a sink that it feeds without the sink saying so. -/
def loosePair : Graph := Graph.reindexed
  { name := "loosePair"
    slots := [
      some { name := "s", kind := "Beacon"
             outputs := [{ name := "so", connections := ["ti"] }] },
      some { name := "t", kind := "Custom", inputs := [{ name := "ti" }] }]
    order := (List.range 2).map Handle.mk }

/-- The pair with its region. -/
def loosePairJoined : Graph :=
  loosePair.mapAt [⟨0⟩, ⟨1⟩] (Operator.joined (isolateRegionName 0))

/-- The pair after preparation. -/
def loosePairPrepared : Graph :=
  (PassByReference.run.run.run (Colocation.run.run.run loosePairJoined).2).2

theorem loosePair_ofDescription :
    Graph.ofDescription loosePair.toDescription = .ok loosePair := by decide

theorem loosePair_isolation : Yields Isolation.run { graph := loosePair } 0
    { graph := loosePairJoined, counters := { isolate := 1 } } := by
  have hwalk : loosePair.walk Isolation.bounds [⟨0⟩] = [⟨0⟩, ⟨1⟩] :=
    Graph.walkFrom_of_within (n := 2) (by decide)
  have hrun : Yields Isolation.run { graph := loosePair } 0 _ :=
    Isolation.yields_run_of_island (.ofDescription loosePair_ofDescription) (by decide)
      (show loosePair.sources = [⟨0⟩] by decide) rfl rfl
  rw [hwalk] at hrun
  exact hrun

theorem loosePair_prepare : Yields Preparation.run { graph := loosePair } ⟨0, 0, 0, 0⟩
    { graph := loosePairPrepared, counters := { isolate := 1 } } := by
  have hwalk : loosePairJoined.walk (Bounds.around []) [⟨0⟩] = [⟨0⟩, ⟨1⟩] :=
    Graph.walkFrom_of_within (n := 2) (by decide)
  have hthreaded : Yields ThreadedPorts.run loosePairJoined 0 loosePairJoined := by
    rw [ThreadedPorts.run, yields_get_bind]
    show Yields ((loosePairJoined.walk (Bounds.around []) [⟨0⟩]).mapM ThreadedPorts.settle >>= _)
      _ _ _
    rw [hwalk]
    rfl
  rw [Preparation.run, yields_get_bind]
  simp only [yields_bind, yields_pure, yields_liftM]
  exact ⟨_, _, ⟨rfl, rfl⟩, _, _, rfl, _, _, loosePair_isolation, _, _, rfl, _, _,
    yields_onGraph.mpr ⟨_, hthreaded, rfl⟩, _, _, rfl, _, _, rfl, _, _, rfl, _, _, rfl, _, _, rfl,
    rfl, rfl⟩

theorem loosePair_generate : ∃ r, (generate {} loosePair).result = .ok r := by
  have hplan : loosePairPrepared.plan = .ok (.node ⟨0⟩ (.node ⟨1⟩ (.done none))) :=
    Graph.planFrom_of_within (n := 4) (by decide)
  have hvalues : SubmissionValues.ofParameters loosePair.parameters = .ok {} := rfl
  have hseparate : Yields (Separation.separate {}) { graph := loosePairPrepared, count := 0 } _ _ :=
    Separation.yields_separate.mpr ⟨_, _, _, _, hplan, rfl, rfl, rfl, rfl⟩
  exact exists_generate hvalues loosePair_prepare hseparate (by decide)

theorem generate_colocated_loosePair :
    Graph.ofDescription loosePair.toDescription = .ok loosePair ∧ ¬ loosePair.Agrees ∧
      (∀ x op, loosePair.get? x = some op → op.region? = none) ∧
      (∀ n t, Yields HashAdders.relocate loosePair n t →
        (t.inputPorts.map InputPort.name).Nodup) ∧
      ∃ r, (generate {} loosePair).result = .ok r ∧
        ∃ cs, ComesTo {} loosePair cs (generate {} loosePair).graph ∧ r.composites = cs.length ∧
          ∀ c ∈ cs, ∀ x ∈ c.nodes, ∃ op key, (generate {} loosePair).graph.get? x = some op ∧
            op.placement.colocateKey = some key ∧ key ≠ "" := by
  have hof := loosePair_ofDescription
  have hblank : ∀ x op, loosePair.get? x = some op → op.region? = none := by
    intro x op hop
    have hall : ∀ x ∈ loosePair.order, ∀ op ∈ loosePair.get? x, op.region? = none := by decide
    exact hall x ((Graph.WellFormed.ofDescription hof).mem_order_iff.mpr ⟨op, hop⟩) op hop
  have hnames : ∀ n t, Yields HashAdders.relocate loosePair n t →
      (t.inputPorts.map InputPort.name).Nodup := by
    intro n t hrun
    have hstays : Yields HashAdders.relocate loosePair 0 loosePair := rfl
    rw [(hrun.unique hstays).2]
    decide
  obtain ⟨r, hresult⟩ := loosePair_generate
  exact ⟨hof, by decide, hblank, hnames, r, hresult,
    generate_colocated hof hblank hnames hresult⟩

end Session

end StreamTopology
