import StreamTopology.Proofs.Passes.Visits
import StreamTopology.Proofs.Regions.Counters
import StreamTopology.Regions.LowLatency

/-!
# The extent of low latency regions

A low latency region is meant to be what lies between its markers: what is below a `$LowLatency$`
marker on paths that pass no `$EndLowLatency$` marker. All of that is put into a region. But the
walk that does so goes in both directions, and so a region takes in more: an operator outside that
feeds one inside, everything connected to that operator, and, where the walk comes to a marker from
one side, whatever else is on that side of the marker.

How far the walk goes around a marker depends on the order in which it comes to its neighbours, so
there is no simple rule for graphs in which operators inside and outside share a marker. Where none
do, the regions are what they are meant to be exactly if no stream leads from outside to inside.

## Main definitions

* `Graph.Enclosed`: what is meant to be in a region.
* `Graph.Unjoined`: no stream leads from outside to inside.
* `Graph.Unmixed`: no marker is shared by operators inside and outside.
* `LowLatency.firstWalk`: the first marker from which an operator is visited.

## Main results

* `LowLatency.run_regions`: the regions that a run that succeeds has given out.
* `Graph.Enclosed.visited`: what is enclosed is visited.
* `Graph.Unmixed.enclosed_of_walk`: what is visited is enclosed, where nothing is mixed or joined.
* `lowLatency_encloses`: which operators are in regions after the pass, and when these are the
  enclosed ones.
-/

namespace StreamTopology

namespace Operator

/-- The low latency region of the operator. -/
def lowLatencyRegion? (op : Operator) : Option String := op.placement.lowLatencyRegion?

/-- The operator in a low latency region, unless it is in one already. -/
def hastened (region : String) (op : Operator) : Operator :=
  op.mapPlacement fun p => p.joinLowLatencyRegion region

theorem lowLatencyRegion?_hastened (n : Nat) (op : Operator) :
    (op.hastened (lowLatencyRegionName n)).lowLatencyRegion? =
      op.lowLatencyRegion?.or (some (lowLatencyRegionName n)) := by
  simp only [hastened, lowLatencyRegion?, placement, mapPlacement, Placement.joinLowLatencyRegion]
  rcases h : op.config.placement.lowLatencyRegion? with _ | r
  · exact nonEmpty?_append (by decide)
  · simp [h]

theorem lowLatencyRegion?_disconnected (op : Operator) :
    op.disconnected.lowLatencyRegion? = op.lowLatencyRegion? := rfl

end Operator

/-- The low latency region of the operator at a handle. -/
def Graph.latencyOf (g : Graph) (x : Handle) : Option String :=
  (g.get? x).bind Operator.lowLatencyRegion?

/-! ### The regions that a run gives out -/

namespace LowLatency

open StreamTopology.Graph

variable {g : Graph} {w w' : Workspace} {ms : List Handle} {m x y z : Handle} {op : Operator}
  {n k : Nat}

theorem isGate_iff_mem_markers (hg : g.WellFormed) :
    g.isGate bounds x = true ↔ x ∈ g.markers .lowLatency ∨ x ∈ g.markers .endLowLatency := by
  simp only [isGate_iff, bounds, Bounds.around, List.mem_cons, List.not_mem_nil, or_false,
    markers, mem_findAll hg, exists_eq_or_imp, exists_eq_left, and_or_left, exists_or]

/-- The first of some markers such that the walk from its children visits the operator. -/
def firstWalk (g : Graph) (ms : List Handle) (x : Handle) : Option Nat :=
  ms.findIdx? fun m => (g.walk bounds (g.children m)).contains x

theorem firstWalk_snoc : firstWalk g (ms ++ [m]) x =
    (firstWalk g ms x).or
      (if x ∈ g.walk bounds (g.children m) then some ms.length else none) := by
  rw [firstWalk, List.findIdx?_append]
  by_cases hx : x ∈ g.walk bounds (g.children m)
  · simp [firstWalk, hx]
  · simp [firstWalk, hx]

theorem isSome_firstWalk : (firstWalk g ms x).isSome = true ↔
    ∃ m ∈ ms, x ∈ g.walk bounds (g.children m) := by
  rw [firstWalk, List.findIdx?_isSome]
  simp

/-- **What one marker does**: what the walk from its children visits joins the region of the next
number. -/
theorem yields_assign (hg : w.graph.WellFormed) :
    Yields (assign m) w ()
      { graph := w.graph.mapAt (w.graph.walk bounds (w.graph.children m))
          (Operator.hastened (lowLatencyRegionName w.counters.lowLatency))
        counters := { w.counters with lowLatency := w.counters.lowLatency + 1 } } := by
  simp only [LowLatency.assign, yields_bind, yields_freshLowLatencyRegion, yields_get,
    yields_onGraph]
  refine ⟨_, _, ⟨rfl, rfl⟩, _, _, ⟨rfl, rfl⟩, _, ?_, rfl⟩
  rw [GraphM.visit, yields_get_bind]
  exact (yields_forM_update walk_nodup).mpr
    ⟨fun x => walk_live hg fun _ => contains_of_mem_children hg, rfl⟩

/-- The state after some markers have had their turn, with regions numbered from `n` on: nothing but
annotations has changed, and an operator is in the region of the first marker that visits it. -/
structure Tagged (g : Graph) (n : Nat) (ms : List Handle) (w : Workspace) : Prop where
  annotates : g.Annotates w.graph
  counter : w.counters.lowLatency = n + ms.length
  region : ∀ x op, w.graph.get? x = some op →
    op.lowLatencyRegion? = (firstWalk g ms x).map fun i => lowLatencyRegionName (n + i)

theorem Tagged.init (hblank : ∀ x op, w.graph.get? x = some op → op.lowLatencyRegion? = none) :
    Tagged w.graph w.counters.lowLatency [] w :=
  ⟨.refl _, rfl, hblank⟩

/-- One marker more. -/
theorem Tagged.step (hg : g.WellFormed) (h : Tagged g n ms w) :
    ∃ w', Yields (assign m) w () w' ∧ Tagged g n (ms ++ [m]) w' := by
  have hname : w.counters.lowLatency = n + ms.length := h.counter
  refine ⟨_, yields_assign (h.annotates.wellFormed hg),
    h.annotates.trans (annotates_mapAt fun _ => rfl), ?_, fun x op hop => ?_⟩
  · rw [hname, List.length_append, List.length_singleton, Nat.add_assoc]
  · rw [firstWalk_snoc]
    rw [h.annotates.children, h.annotates.walk, get?_mapAt] at hop
    split at hop
    · obtain ⟨a, ha, rfl⟩ := Option.map_eq_some_iff.mp hop
      rw [if_pos ‹_›, Operator.lowLatencyRegion?_hastened, h.region x a ha, hname]
      cases firstWalk g ms x <;> rfl
    · rw [if_neg ‹_›, Option.or_none]
      exact h.region x op hop

theorem Tagged.steps (hg : g.WellFormed) (h : Tagged g n [] w) (ms : List Handle) :
    ∃ w', Yields (ms.forM assign) w () w' ∧ Tagged g n ms w' :=
  yields_forM_total (I := fun done t => Tagged g n done t) (fun _ _ _ _ ht => ht.step hg) h

/-- **The regions of a run that succeeds.** The markers are gone, and every other operator is in the
region of the first marker that visits it, if one does. -/
theorem run_regions (hg : w.graph.WellFormed)
    (hblank : ∀ x op, w.graph.get? x = some op → op.lowLatencyRegion? = none)
    (hrun : Yields run w k w') :
    (∀ x, w'.graph.contains x = true ↔
      w.graph.contains x = true ∧ w.graph.isGate bounds x = false) ∧
    ∀ x, w'.graph.contains x = true → w'.graph.latencyOf x =
      (firstWalk w.graph (w.graph.markers .lowLatency) x).map
        fun i => lowLatencyRegionName (w.counters.lowLatency + i) := by
  obtain ⟨t, hsteps, ht⟩ := (Tagged.init hblank).steps hg (w.graph.markers .lowLatency)
  rw [run, yields_get_bind] at hrun
  simp only [yields_bind, yields_onGraph, yields_pure] at hrun
  obtain ⟨_, t', hassigned, _, _, ⟨g', hremoved, rfl⟩, _, rfl⟩ := hrun
  obtain ⟨_, rfl⟩ := hassigned.unique hsteps
  have hcleared := removeAll_cleared (ht.annotates.wellFormed hg) (lowLatencyMarkers_nodup hg)
    hremoved
  refine ⟨fun x => ?_, fun x hx => ?_⟩
  · rw [hcleared.contains_iff, ht.annotates.contains, List.mem_append, or_comm,
      ← isGate_iff_mem_markers hg, Bool.not_eq_true]
  · obtain ⟨op, hop⟩ := contains_iff.mp hx
    obtain ⟨_, a, ha, hsame⟩ := hcleared.exists_before hop
    rw [latencyOf, hop, Option.bind_some, ← Operator.lowLatencyRegion?_disconnected, ← hsame]
    exact ht.region x a ha

end LowLatency

/-! ### What is meant to be in a region -/

namespace Graph

open LowLatency

variable {g : Graph} {m x y z : Handle}

/-- The operator is below a marker that starts a region, on a path that passes no marker that ends
one. -/
def Enclosed (g : Graph) (x : Handle) : Prop :=
  ∃ m ∈ g.markers .lowLatency, Bridged g.Feeds (fun z => z ∉ g.markers .endLowLatency) m x

/-- No stream leads from an operator outside directly to one inside. -/
def Unjoined (g : Graph) : Prop :=
  ∀ x y, g.isGate bounds x = false → g.isGate bounds y = false → g.Feeds x y → g.Enclosed y →
    g.Enclosed x

/-- Markers do not follow each other, the operators above a marker are all inside or all outside,
and so are those below a marker that ends a region. -/
structure Unmixed (g : Graph) : Prop where
  apart : ∀ k y, g.isGate bounds k = true → g.Feeds k y → g.isGate bounds y = false
  above : ∀ k x y, g.isGate bounds k = true → g.Feeds x k → g.Feeds y k → g.Enclosed x →
    g.Enclosed y
  below : ∀ k x y, k ∈ g.markers .endLowLatency → g.Feeds k x → g.Feeds k y → g.Enclosed x →
    g.Enclosed y

theorem not_end_of_not_gate (hg : g.WellFormed) (hx : g.isGate bounds x = false) :
    x ∉ g.markers .endLowLatency := fun hend => by
  rw [(isGate_iff_mem_markers hg).mpr (Or.inr hend)] at hx
  cases hx

theorem Enclosed.child (hx : g.Enclosed x) (hend : x ∉ g.markers .endLowLatency)
    (h : g.Feeds x y) : g.Enclosed y := by
  obtain ⟨m, hm, hpath⟩ := hx
  exact ⟨m, hm, hpath.trans hend (.direct h)⟩

/-- Some walk from the children of a marker that starts a region visits the operator. -/
def Visited (g : Graph) (x : Handle) : Prop :=
  ∃ m ∈ g.markers .lowLatency, x ∈ g.walk bounds (g.children m)

section

variable (hg : g.WellFormed) (hi : g.Indexed)

include hg hi

/-- What follows a marker that starts a region, or an operator that is visited, is visited. -/
theorem visited_of_feeds (hx : x ∈ g.markers .lowLatency ∨ g.Visited x) (h : g.Feeds x y)
    (hy : g.isGate bounds y = false) : g.Visited y := by
  have hchild : y ∈ g.children x := (mem_children hg hi).mpr h
  rcases hx with hm | ⟨m, hm, hvisited⟩
  · exact ⟨x, hm, start_mem_walk hy hchild⟩
  · exact ⟨m, hm, walk_closed hvisited (Or.inr hchild) hy⟩

/-- **What is enclosed is visited.** The path may pass other markers that start regions; the last of
them visits the operator. -/
theorem Enclosed.visited (hx : g.Enclosed x) (hgate : g.isGate bounds x = false) :
    g.Visited x := by
  obtain ⟨m, hm, hpath⟩ := hx
  have hfrom : m ∈ g.markers .lowLatency ∨ g.Visited m := Or.inl hm
  clear hm
  induction hpath with
  | direct h => exact visited_of_feeds hg hi hfrom h hgate
  | @through y z x hyz hz _ ih =>
    refine ih hgate ?_
    rcases hk : g.isGate bounds z with _ | _
    · exact Or.inr (visited_of_feeds hg hi hfrom hyz hk)
    · exact Or.inl (((isGate_iff_mem_markers hg).mp hk).resolve_right hz)

variable (ha : g.Agrees)

include ha

/-- **What is visited is enclosed**, where no marker is shared and no stream leads inside. -/
theorem Unmixed.enclosed_of_walk (hmix : g.Unmixed) (hjoin : g.Unjoined)
    (hm : m ∈ g.markers .lowLatency) (hx : x ∈ g.walk bounds (g.children m)) :
    g.isGate bounds x = false ∧ g.Enclosed x := by
  have hgate : g.isGate bounds m = true := (isGate_iff_mem_markers hg).mpr (Or.inl hm)
  have hchildren : ∀ {a b}, b ∈ g.children a → g.Feeds a b := (mem_children hg hi).mp
  have hparents : ∀ {a b}, a ∈ g.parents b → g.Feeds a b := (mem_parents hg hi ha).mp
  obtain ⟨s, hs, hsx⟩ := walk_sound hx
  clear hx
  induction hsx with
  | refl => exact ⟨hmix.apart m s hgate (hchildren hs), m, hm, .direct (hchildren hs)⟩
  | @tail y z _ hstep ih =>
    obtain ⟨hy, hinside⟩ := ih
    rcases hstep with ⟨hz, hup | hdown⟩ | ⟨k, hk, ⟨hky, hkz⟩ | ⟨hyk, hzk⟩⟩
    · exact ⟨hz, hjoin z y hz hy (hparents hup) hinside⟩
    · exact ⟨hz, hinside.child (not_end_of_not_gate hg hy) (hchildren hdown)⟩
    · have hkz := hchildren hkz
      refine ⟨hmix.apart k z hk hkz, ?_⟩
      rcases (isGate_iff_mem_markers hg).mp hk with hstart | hend
      · exact ⟨k, hstart, .direct hkz⟩
      · exact hmix.below k y z hend (hparents hky) hkz hinside
    · have hzk := hparents hzk
      refine ⟨?_, hmix.above k y z hk (hchildren hyk) hzk hinside⟩
      rcases hz : g.isGate bounds z with _ | _
      · rfl
      · exact absurd ((hmix.apart z k hz hzk).symm.trans hk) Bool.false_ne_true

end

end Graph

open StreamTopology.Graph LowLatency

/-- **The extent of low latency regions.** After a run that succeeds, an operator is in the region
of the first marker from which it is visited. Everything enclosed is in a region. If nothing else
is, then no stream leads from an operator outside to one inside; and where no marker is shared by
operators inside and outside, that is enough for the regions to hold what is enclosed and nothing
else. -/
theorem lowLatency_encloses {w w' : Workspace} {k : Nat} (hg : w.graph.WellFormed)
    (hi : w.graph.Indexed) (ha : w.graph.Agrees)
    (hblank : ∀ x op, w.graph.get? x = some op → op.lowLatencyRegion? = none)
    (hrun : Yields LowLatency.run w k w') :
    (∀ x, w'.graph.contains x = true → w'.graph.latencyOf x =
      (firstWalk w.graph (w.graph.markers .lowLatency) x).map
        fun i => lowLatencyRegionName (w.counters.lowLatency + i)) ∧
    (∀ x, w'.graph.contains x = true → w.graph.Enclosed x →
      (w'.graph.latencyOf x).isSome = true) ∧
    ((∀ x, w'.graph.contains x = true → (w'.graph.latencyOf x).isSome = true →
      w.graph.Enclosed x) → w.graph.Unjoined) ∧
    (w.graph.Unmixed → w.graph.Unjoined → ∀ x, w'.graph.contains x = true →
      ((w'.graph.latencyOf x).isSome = true ↔ w.graph.Enclosed x)) := by
  obtain ⟨hleft, hregions⟩ := run_regions hg hblank hrun
  have htagged : ∀ x, w'.graph.contains x = true →
      ((w'.graph.latencyOf x).isSome = true ↔ w.graph.Visited x) := by
    intro x hx
    rw [hregions x hx, Option.isSome_map, isSome_firstWalk]
    rfl
  have hinside : ∀ x, w'.graph.contains x = true → w.graph.Enclosed x →
      (w'.graph.latencyOf x).isSome = true := fun x hx hx' =>
    (htagged x hx).mpr (hx'.visited hg hi ((hleft x).mp hx).2)
  refine ⟨hregions, hinside, fun h x y hx hy hfeeds hy' => ?_,
    fun hmix hjoin x hx => ⟨fun h => ?_, hinside x hx⟩⟩
  · -- the walk that visits `y` goes up to `x`
    obtain ⟨a, _, ha', _, _⟩ := id hfeeds
    have hlive : w'.graph.contains x = true :=
      (hleft x).mpr ⟨contains_iff.mpr ⟨a, ha'⟩, hx⟩
    obtain ⟨m, hm, hvisited⟩ := hy'.visited hg hi hy
    have hparent : x ∈ w.graph.parents y := (mem_parents hg hi ha).mpr hfeeds
    exact h x hlive ((htagged x hlive).mpr ⟨m, hm, walk_closed hvisited (Or.inl hparent) hx⟩)
  · obtain ⟨m, hm, hwalk⟩ := (htagged x hx).mp h
    exact (hmix.enclosed_of_walk hg hi ha hjoin hm hwalk).2

/-- A region of two operators, the second of which also reads a source outside. -/
def joinedRegion : Graph := Graph.reindexed
  { name := "joinedRegion"
    slots := [
      some { name := "a", kind := "Beacon"
             outputs := [{ name := "ao", connections := ["si"] }] },
      some { name := "s", kind := "$LowLatency$"
             inputs := [{ name := "si", connections := ["ao"] }]
             outputs := [{ name := "so", connections := ["bi"] }] },
      some { name := "b", kind := "Custom"
             inputs := [{ name := "bi", connections := ["so"] }]
             outputs := [{ name := "bo", connections := ["ci"] }] },
      some { name := "c", kind := "Custom"
             inputs := [{ name := "ci", connections := ["bo", "xo"] }]
             outputs := [{ name := "co", connections := ["ei"] }] },
      some { name := "e", kind := "$EndLowLatency$"
             inputs := [{ name := "ei", connections := ["co"] }]
             outputs := [{ name := "eo", connections := ["di"] }] },
      some { name := "d", kind := "Custom"
             inputs := [{ name := "di", connections := ["eo"] }] },
      some { name := "x", kind := "Beacon"
             outputs := [{ name := "xo", connections := ["ci"] }] }]
    order := (List.range 7).map Handle.mk }

theorem joinedRegion_ofDescription :
    Graph.ofDescription joinedRegion.toDescription = .ok joinedRegion := by decide

theorem joinedRegion_coherent : joinedRegion.Coherent := by decide

theorem joinedRegion_blank :
    ∀ x op, joinedRegion.get? x = some op → op.lowLatencyRegion? = none := by
  intro x op hop
  have hall : ∀ x ∈ joinedRegion.order, ∀ op ∈ joinedRegion.get? x,
      op.lowLatencyRegion? = none := by decide
  have hg := WellFormed.ofDescription joinedRegion_ofDescription
  exact hall x (hg.mem_order_iff.mpr ⟨op, hop⟩) op hop

theorem joinedRegion_run : ∃ k w', Yields LowLatency.run { graph := joinedRegion } k w' := by
  have hg := WellFormed.ofDescription joinedRegion_ofDescription
  have htrim : joinedRegion.Trim [.lowLatency, .endLowLatency] := by
    intro x op _ hop
    have hall : ∀ x ∈ joinedRegion.order, ∀ op ∈ joinedRegion.get? x,
        op.outputs.length ≤ 1 := by decide
    exact hall x (hg.mem_order_iff.mpr ⟨op, hop⟩) op hop
  obtain ⟨k, w', hrun, _⟩ := lowLatency_total (w := { graph := joinedRegion }) hg
    (Indexed.ofDescription joinedRegion_ofDescription) joinedRegion_coherent htrim
  exact ⟨k, w', hrun⟩

theorem lowLatency_encloses_joinedRegion :
    joinedRegion.WellFormed ∧ joinedRegion.Indexed ∧ joinedRegion.Agrees ∧
      (∀ x op, joinedRegion.get? x = some op → op.lowLatencyRegion? = none) ∧
      ∃ k w', Yields LowLatency.run { graph := joinedRegion } k w' ∧
        (∀ x, w'.graph.contains x = true → w'.graph.latencyOf x =
          (firstWalk joinedRegion (joinedRegion.markers .lowLatency) x).map
            fun i => lowLatencyRegionName (0 + i)) ∧
        (∀ x, w'.graph.contains x = true → joinedRegion.Enclosed x →
          (w'.graph.latencyOf x).isSome = true) ∧
        ((∀ x, w'.graph.contains x = true → (w'.graph.latencyOf x).isSome = true →
          joinedRegion.Enclosed x) → joinedRegion.Unjoined) ∧
        (joinedRegion.Unmixed → joinedRegion.Unjoined → ∀ x, w'.graph.contains x = true →
          ((w'.graph.latencyOf x).isSome = true ↔ joinedRegion.Enclosed x)) := by
  have hg := WellFormed.ofDescription joinedRegion_ofDescription
  have hi := Indexed.ofDescription joinedRegion_ofDescription
  have ha := joinedRegion_coherent.agrees
  obtain ⟨k, w', hrun⟩ := joinedRegion_run
  exact ⟨hg, hi, ha, joinedRegion_blank, k, w', hrun,
    lowLatency_encloses (w := { graph := joinedRegion }) hg hi ha joinedRegion_blank hrun⟩

/-- **A region that goes beyond its markers.** The source outside is in the region, although nothing
leads to it at all. -/
theorem joinedRegion_escapes :
    joinedRegion.WellFormed ∧ joinedRegion.Indexed ∧ joinedRegion.Coherent ∧
      (∀ x op, joinedRegion.get? x = some op → op.lowLatencyRegion? = none) ∧
      ∃ k w', Yields LowLatency.run { graph := joinedRegion } k w' ∧
        w'.graph.contains ⟨6⟩ = true ∧
        w'.graph.latencyOf ⟨6⟩ = some (lowLatencyRegionName 0) ∧
        ¬ joinedRegion.Enclosed ⟨6⟩ := by
  have hg := WellFormed.ofDescription joinedRegion_ofDescription
  have hi := Indexed.ofDescription joinedRegion_ofDescription
  obtain ⟨k, w', hrun⟩ := joinedRegion_run
  obtain ⟨hleft, hregions⟩ :=
    run_regions (w := { graph := joinedRegion }) hg joinedRegion_blank hrun
  have hlive : w'.graph.contains ⟨6⟩ = true := (hleft ⟨6⟩).mpr (by decide)
  refine ⟨hg, hi, joinedRegion_coherent, joinedRegion_blank, k, w', hrun, hlive, ?_, ?_⟩
  · have hmarkers : joinedRegion.markers .lowLatency = [⟨1⟩] := by decide
    have hchildren : joinedRegion.children ⟨1⟩ = [⟨2⟩] := by decide
    have hwalk : joinedRegion.walk bounds [⟨2⟩] = [⟨2⟩, ⟨3⟩, ⟨6⟩] :=
      walkFrom_of_within (n := 10) (by decide)
    have hfirst : firstWalk joinedRegion (joinedRegion.markers .lowLatency) ⟨6⟩ = some 0 := by
      rw [hmarkers, firstWalk]
      simp [hchildren, hwalk]
    rw [hregions ⟨6⟩ hlive, hfirst]
    rfl
  · have hsource : joinedRegion.parents ⟨6⟩ = [] := by decide
    have hno : ∀ z, ¬ joinedRegion.Feeds z ⟨6⟩ := fun z hz => by
      have hparent := (mem_parents hg hi joinedRegion_coherent.agrees).mpr hz
      rw [hsource] at hparent
      cases hparent
    rintro ⟨m, _, hpath⟩
    rcases hpath.last with h | ⟨z, _, _, h⟩
    · exact hno m h
    · exact hno z h

end StreamTopology
