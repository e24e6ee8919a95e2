import StreamTopology.Proofs.Graph.Rewiring
import StreamTopology.Proofs.Graph.Walk
import StreamTopology.Proofs.Regions.Counters
import StreamTopology.Regions.Isolation

/-!
# A run of the isolation pass

The pass checks every marker on the graph as it finds it, and then gives out regions in *batches*:
the parents and the children of each marker, and afterwards single sources. A batch claims what a
walk from it visits, and an operator belongs to the first batch that claims it. Since neither the
checks nor the regions depend on anything that the pass changes before the markers go, all walks can
be read on the graph as it was.

## Main definitions

* `Isolation.Passable`: what the check of a marker establishes.
* `Isolation.firstBatch`: the batch that an operator belongs to.
* `Isolation.Tagged`: a graph after some batches.
* `Isolation.Outcome`: what a run leaves.

## Main results

* `Isolation.run_total`: when every marker is passable and has one output at most, the run succeeds.
* `Isolation.run_outcome`: what a run that succeeds has established.
-/

namespace StreamTopology

namespace Operator

/-- The operator without an isolation region. -/
def unplaced (op : Operator) : Operator :=
  op.mapPlacement fun p => { p with isolateRegionId := none }

/-- The operator in an isolation region, unless it is in one already. -/
def joined (region : String) (op : Operator) : Operator :=
  op.mapPlacement fun p => p.joinIsolateRegion region

/-- The isolation region of the operator. -/
def region? (op : Operator) : Option String := op.placement.isolateRegion?

theorem unplaced_joined (region : String) (op : Operator) :
    (op.joined region).unplaced = op.unplaced := by
  simp only [joined, unplaced, mapPlacement, Placement.joinIsolateRegion]
  split <;> rfl

theorem region?_joined (n : Nat) (op : Operator) :
    (op.joined (isolateRegionName n)).region? = op.region?.or (some (isolateRegionName n)) := by
  simp only [joined, region?, placement, mapPlacement, Placement.joinIsolateRegion]
  rcases h : op.config.placement.isolateRegion? with _ | r
  · exact nonEmpty?_append (by decide)
  · simp [h]

theorem region?_disconnected (op : Operator) : op.disconnected.region? = op.region? := rfl

end Operator

namespace Isolation

open StreamTopology.Graph

variable {g g' : Graph} {w w' : Workspace} {n k : Nat} {m x s : Handle} {starts : List Handle}
  {bs : List (List Handle)} {op : Operator} {u : PUnit}

/-! ### Checks -/

/-- No marker stands directly above this one, and what is connected to the operators above it, on
this side of all markers, is not below it. -/
structure Passable (g : Graph) (m : Handle) : Prop where
  apart : ∀ p ∈ g.parents m, g.isGate bounds p = false
  parted : ∀ x ∈ g.walk bounds (g.parents m), x ∉ g.children m

theorem isGate_bounds : g.isGate bounds x = true ↔
    ∃ op, g.get? x = some op ∧ op.isMarker .isolate = true := by
  rw [isGate_iff]
  simp [bounds, Bounds.around]

theorem isGate_iff_mem_markers (hg : g.WellFormed) :
    g.isGate bounds x = true ↔ x ∈ g.markers .isolate :=
  isGate_bounds.trans (mem_findAll hg).symm

theorem yields_check (hg : g.WellFormed) :
    Yields (check m) g u g' ↔ Passable g m ∧ g' = g := by
  have hlive : ∀ p ∈ g.parents m, g.contains p = true :=
    fun p hp => contains_of_mem_parents hg hp
  have hany : (((g.parents m).filterMap g.get?).any fun op => op.isMarker .isolate) = true ↔
      ∃ p ∈ g.parents m, g.isGate bounds p = true := by
    simp only [List.any_eq_true, List.mem_filterMap, isGate_bounds]
    constructor
    · rintro ⟨op, ⟨p, hp, hop⟩, h⟩
      exact ⟨p, hp, op, hop, h⟩
    · rintro ⟨p, hp, op, hop, h⟩
      exact ⟨op, ⟨p, hp, hop⟩, h⟩
  have hwalk : ((g.walk bounds (g.parents m)).any fun x => (g.children m).contains x) = true ↔
      ∃ x ∈ g.walk bounds (g.parents m), x ∈ g.children m := by
    simp
  rw [check, yields_get_bind, yields_lookups_bind hlive]
  by_cases h₁ : ∃ p ∈ g.parents m, g.isGate bounds p = true
  · rw [if_pos (hany.mpr h₁), yields_bind]
    constructor
    · rintro ⟨_, _, h, _⟩
      exact absurd h not_yields_throw
    · rintro ⟨hpass, _⟩
      obtain ⟨p, hp, hgate⟩ := h₁
      rw [hpass.apart p hp] at hgate
      cases hgate
  · rw [if_neg (fun h => h₁ (hany.mp h))]
    by_cases h₂ : ∃ x ∈ g.walk bounds (g.parents m), x ∈ g.children m
    · simp only [if_pos (hwalk.mpr h₂)]
      refine ⟨fun h => absurd h not_yields_throw, ?_⟩
      rintro ⟨hpass, _⟩
      obtain ⟨x, hx, hc⟩ := h₂
      exact absurd hc (hpass.parted x hx)
    · simp only [if_neg (fun h => h₂ (hwalk.mp h)), yields_pure]
      constructor
      · rintro ⟨_, rfl⟩
        refine ⟨⟨fun p hp => ?_, fun x hx hc => h₂ ⟨x, hx, hc⟩⟩, rfl⟩
        exact Bool.eq_false_iff.mpr fun h => h₁ ⟨p, hp, h⟩
      · rintro ⟨_, rfl⟩
        exact ⟨trivial, rfl⟩

/-- All checks together: they change nothing. -/
theorem yields_checks (hg : w.graph.WellFormed) {ms : List Handle} :
    Yields (ms.forM fun m => RegionM.onGraph (check m)) w u w' ↔
      (∀ m ∈ ms, Passable w.graph m) ∧ w' = w := by
  induction ms with
  | nil =>
    exact yields_forM_nil.trans
      ⟨fun h => ⟨fun _ hm => (List.not_mem_nil hm).elim, h⟩, fun h => h.2⟩
  | cons m ms ih =>
    rw [yields_forM_cons]
    simp only [yields_onGraph, yields_check hg, List.mem_cons, forall_eq_or_imp]
    constructor
    · rintro ⟨t, ⟨g', ⟨hm, rfl⟩, rfl⟩, hrest⟩
      obtain ⟨hms, rfl⟩ := ih.mp hrest
      exact ⟨⟨hm, hms⟩, rfl⟩
    · rintro ⟨⟨hm, hms⟩, rfl⟩
      exact ⟨w', ⟨w'.graph, ⟨hm, rfl⟩, rfl⟩, ih.mpr ⟨hms, rfl⟩⟩

/-! ### Batches -/

/-- The first of some batches whose walk visits the operator. -/
def firstBatch (g : Graph) (bs : List (List Handle)) (x : Handle) : Option Nat :=
  bs.findIdx? fun starts => (g.walk bounds starts).contains x

theorem firstBatch_snoc : firstBatch g (bs ++ [starts]) x =
    (firstBatch g bs x).or
      (if x ∈ g.walk bounds starts then some bs.length else none) := by
  rw [firstBatch, List.findIdx?_append]
  by_cases hx : x ∈ g.walk bounds starts
  · simp [firstBatch, hx]
  · simp [firstBatch, hx]

/-- **What giving out a region does** to what a walk visits. -/
theorem yields_assign (hg : w.graph.WellFormed)
    (hstarts : ∀ s ∈ starts, w.graph.contains s = true) :
    Yields (assign starts) w ()
      { graph := w.graph.mapAt (w.graph.walk bounds starts)
          (Operator.joined (isolateRegionName w.counters.isolate))
        counters := { w.counters with isolate := w.counters.isolate + 1 } } := by
  simp only [Isolation.assign, yields_bind, yields_freshIsolateRegion, yields_onGraph]
  refine ⟨_, _, ⟨rfl, rfl⟩, _, ?_, rfl⟩
  rw [GraphM.visit, yields_get_bind]
  exact (yields_forM_update walk_nodup).mpr ⟨fun x => walk_live hg hstarts, rfl⟩

/-- **A graph of one island.** Without markers and with one source, which has no region yet, a run
gives out one region, to what the walk from the source visits. -/
theorem yields_run_of_island (hg : w.graph.WellFormed) (hmarkers : w.graph.markers .isolate = [])
    (hsources : w.graph.sources = [x]) (hop : w.graph.get? x = some op)
    (hnone : op.placement.isolateRegion? = none) :
    Yields run w 0
      { graph := w.graph.mapAt (w.graph.walk bounds [x])
          (Operator.joined (isolateRegionName w.counters.isolate))
        counters := { w.counters with isolate := w.counters.isolate + 1 } } := by
  have hstarts : ∀ s ∈ [x], w.graph.contains s = true := fun s hs =>
    List.mem_singleton.mp hs ▸ contains_iff.mpr ⟨op, hop⟩
  rw [run, yields_get_bind]
  simp only [hmarkers, yields_bind, yields_pure]
  refine ⟨⟨⟩, w, yields_forM_nil.mpr rfl, ⟨⟩, w, yields_forM_nil.mpr rfl, ⟨⟩, ⟨_, _⟩, ?_, ⟨⟩,
    _, yields_onGraph.mpr ⟨_, yields_forM_nil.mpr rfl, rfl⟩, rfl, rfl⟩
  rw [assignIslands, yields_get_bind, hsources]
  refine yields_forM_cons.mpr ⟨_, ?_, yields_forM_nil.mpr rfl⟩
  refine yields_bind.mpr ⟨op, w, yields_onGraph.mpr ⟨_, yields_lookup.mpr ⟨hop, rfl⟩, rfl⟩, ?_⟩
  rw [hnone, Option.isNone_none, if_pos rfl]
  exact yields_assign hg hstarts

/-- The state after some batches have been given out, numbered from `n` on: nothing but the regions
of operators has changed. -/
structure Tagged (g : Graph) (n : Nat) (bs : List (List Handle)) (w : Workspace) : Prop where
  wellFormed : w.graph.WellFormed
  counter : w.counters.isolate = n + bs.length
  order : w.graph.order = g.order
  links : w.graph.links = g.links
  rest : ∀ x, (w.graph.get? x).map Operator.unplaced = (g.get? x).map Operator.unplaced
  region : ∀ x op, w.graph.get? x = some op →
    op.region? = (firstBatch g bs x).map fun i => isolateRegionName (n + i)

theorem Tagged.init (hg : w.graph.WellFormed)
    (hblank : ∀ x op, w.graph.get? x = some op → op.region? = none) :
    Tagged w.graph w.counters.isolate [] w :=
  ⟨hg, rfl, rfl, rfl, fun _ => rfl, hblank⟩

section

variable (h : Tagged g n bs w)

include h

theorem Tagged.parents : w.graph.parents x = g.parents x := by
  rw [Graph.parents, Graph.parents, h.order, h.links]

theorem Tagged.children : w.graph.children x = g.children x := by
  rw [Graph.children, Graph.children, h.order, h.links]

theorem Tagged.contains : w.graph.contains x = g.contains x := by
  have hsome := congrArg Option.isSome (h.rest x)
  simpa [Graph.contains] using hsome

theorem Tagged.walk : w.graph.walk bounds starts = g.walk bounds starts := by
  refine walk_congr (fun x => h.parents) (fun x => h.children) fun x => ?_
  have hkind := map_eq_of_map_eq (f := fun op => op.isMarker .isolate) (h.rest x) fun _ => rfl
  rw [Bool.eq_iff_iff, isGate_bounds, isGate_bounds]
  have hmap : ∀ {o : Option Operator}, (∃ op, o = some op ∧ op.isMarker .isolate = true) ↔
      o.map (fun op => op.isMarker .isolate) = some true := by
    intro o
    rw [Option.map_eq_some_iff]
  rw [hmap, hmap, hkind]

theorem Tagged.sources : w.graph.sources = g.sources :=
  findAll_congr h.order fun x => map_eq_of_map_eq (h.rest x) fun _ => rfl

/-- **One batch.** It succeeds, and it comes after the others. -/
theorem Tagged.batch (hstarts : ∀ s ∈ starts, g.contains s = true) :
    ∃ w', Yields (assign starts) w () w' ∧ Tagged g n (bs ++ [starts]) w' := by
  have hname : w.counters.isolate = n + bs.length := h.counter
  refine ⟨_, yields_assign h.wellFormed fun s hs => h.contains.trans (hstarts s hs), ?_⟩
  refine ⟨h.wellFormed.mapAt _ _, ?_, h.order, h.links, fun x => ?_, fun x op hop => ?_⟩
  · simp [hname, Nat.add_assoc]
  · rw [← h.rest x, get?_mapAt]
    split
    · rw [Option.map_map]
      exact congrFun (congrArg Option.map (funext fun op => Operator.unplaced_joined _ op)) _
    · rfl
  · rw [firstBatch_snoc, ← h.walk]
    rw [get?_mapAt] at hop
    split at hop
    · obtain ⟨a, ha, rfl⟩ := Option.map_eq_some_iff.mp hop
      rw [if_pos ‹_›, Operator.region?_joined, h.region x a ha, hname]
      cases firstBatch g bs x <;> rfl
    · rw [if_neg ‹_›, Option.or_none]
      exact h.region x op hop

end

/-- The batches around the markers of a list: what is above a marker, then what is below. -/
def around (g : Graph) (ms : List Handle) : List (List Handle) :=
  ms.flatMap fun m => [g.parents m, g.children m]

/-- All batches of a run that gave regions of their own to some sources. -/
def batches (g : Graph) (islands : List Handle) : List (List Handle) :=
  around g (g.markers .isolate) ++ islands.map fun s => [s]

theorem Tagged.markers (hg : g.WellFormed) (h : Tagged g n [] w) (ms : List Handle) :
    ∃ w', Yields (ms.forM fun m => do
        assign ((← get).graph.parents m)
        assign ((← get).graph.children m)) w () w' ∧ Tagged g n (around g ms) w' := by
  refine yields_forM_total (I := fun done t => Tagged g n (Isolation.around g done) t) ?_ h
  intro done m t _ ht
  have habove : ∀ s ∈ g.parents m, g.contains s = true := fun s => contains_of_mem_parents hg
  have hbelow : ∀ s ∈ g.children m, g.contains s = true := fun s => contains_of_mem_children hg
  obtain ⟨t₁, hrun₁, ht₁⟩ := ht.batch habove
  obtain ⟨t₂, hrun₂, ht₂⟩ := ht₁.batch hbelow
  refine ⟨t₂, ?_, ?_⟩
  · rw [yields_get_bind, ht.parents, yields_bind]
    refine ⟨_, t₁, hrun₁, ?_⟩
    rwa [yields_get_bind, ht₁.children]
  · simpa [Isolation.around] using ht₂

/-- The state after the sources of a list have been given regions of their own, where they had
none. -/
def Islanded (g : Graph) (n : Nat) (bs : List (List Handle)) (done : List Handle)
    (w : Workspace) : Prop :=
  ∃ islands : List Handle, islands ⊆ done ∧ Tagged g n (bs ++ islands.map fun s => [s]) w ∧
    ∀ s ∈ done, firstBatch g (bs ++ islands.map fun s => [s]) s ≠ none

theorem Tagged.islands (hg : g.WellFormed) (h : Tagged g n bs w) :
    ∃ w', Yields assignIslands w () w' ∧ Islanded g n bs g.sources w' := by
  rw [assignIslands]
  simp only [yields_get_bind, h.sources]
  refine yields_forM_total (I := fun done t => Islanded g n bs done t) ?_ ?_
  · rintro done s t hs ⟨islands, hsub, ht, hcovered⟩
    obtain ⟨a, ha, _⟩ := (mem_findAll hg).mp hs
    obtain ⟨op, hop⟩ := contains_iff.mp (ht.contains.trans (contains_iff.mpr ⟨a, ha⟩))
    simp only [yields_onGraph_lookup_bind hop]
    have hregion : op.placement.isolateRegion? = _ := ht.region s op hop
    rcases hfirst : firstBatch g (bs ++ islands.map fun s => [s]) s with _ | i
    · rw [hfirst, Option.map_none] at hregion
      have hlive : ∀ x ∈ [s], g.contains x = true := by
        intro x hx
        rw [List.mem_singleton.mp hx]
        exact contains_iff.mpr ⟨a, ha⟩
      obtain ⟨t', hrun, ht'⟩ := ht.batch hlive
      have hbatches : bs ++ (islands ++ [s]).map (fun s => [s]) =
          bs ++ islands.map (fun s => [s]) ++ [[s]] := by simp
      refine ⟨t', ?_, islands ++ [s], ?_, hbatches ▸ ht', fun x hx => ?_⟩
      · rwa [hregion, Option.isNone_none, if_pos rfl]
      · exact List.append_subset.mpr ⟨fun x hx => List.mem_append_left _ (hsub hx), by simp⟩
      · rw [hbatches, firstBatch_snoc]
        rcases List.mem_append.mp hx with hx | hx
        · exact fun hnone => hcovered x hx (Option.or_eq_none_iff.mp hnone).1
        · rw [List.mem_singleton.mp hx, if_pos mem_walk_self]
          simp
    · rw [hfirst, Option.map_some] at hregion
      refine ⟨t, ?_, islands, fun x hx => List.mem_append_left _ (hsub hx), ht, fun x hx => ?_⟩
      · rw [hregion, Option.isNone_some, if_neg Bool.false_ne_true]
        exact yields_pure.mpr ⟨rfl, rfl⟩
      · rcases List.mem_append.mp hx with hx | hx
        · exact hcovered x hx
        · rw [List.mem_singleton.mp hx, hfirst]
          exact Option.some_ne_none i
  · refine ⟨[], List.nil_subset _, ?_, fun s hs => (List.not_mem_nil hs).elim⟩
    rwa [List.map_nil, List.append_nil]

/-! ### The run -/

/-- What a run leaves that gave regions of their own to the islands: the markers are gone, the other
operators keep everything but their connections and their region, which is that of their batch. -/
structure Outcome (g : Graph) (n : Nat) (islands : List Handle) (g' : Graph) : Prop where
  islands_sub : islands ⊆ g.sources
  covered : ∀ s ∈ g.sources, firstBatch g (batches g islands) s ≠ none
  gone : ∀ m ∈ g.markers .isolate, g'.get? m = none
  kept : ∀ x ∉ g.markers .isolate,
    (g'.get? x).map (fun op => op.disconnected.unplaced) =
      (g.get? x).map fun op => op.disconnected.unplaced
  region : ∀ x op, g'.get? x = some op →
    op.region? = (firstBatch g (batches g islands) x).map fun i => isolateRegionName (n + i)

/-- Up to the removal of the markers, a run consists of steps that succeed. -/
theorem run_tagged (hg : w.graph.WellFormed)
    (hblank : ∀ x op, w.graph.get? x = some op → op.region? = none) :
    ∃ t, Islanded w.graph w.counters.isolate (around w.graph (w.graph.markers .isolate))
        w.graph.sources t ∧
      ∀ k w', Yields run w k w' ↔ (∀ m ∈ w.graph.markers .isolate, Passable w.graph m) ∧
        (∃ g', Yields (Rewiring.removeAll (w.graph.markers .isolate)) t.graph () g' ∧
          w' = { t with graph := g' }) ∧ k = (w.graph.markers .isolate).length := by
  obtain ⟨t₁, hrun₁, ht₁⟩ := (Tagged.init hg hblank).markers hg (w.graph.markers .isolate)
  obtain ⟨t₂, hrun₂, ht₂⟩ := ht₁.islands hg
  refine ⟨t₂, ht₂, fun k w' => ?_⟩
  rw [run, yields_get_bind]
  simp only [yields_bind, yields_checks hg, yields_onGraph, yields_pure]
  constructor
  · rintro ⟨_, _, ⟨hpass, rfl⟩, _, t, hmarkers, _, t', hislands, _, _, ⟨g', hgone, rfl⟩, rfl, rfl⟩
    obtain ⟨_, rfl⟩ := hmarkers.unique hrun₁
    obtain ⟨_, rfl⟩ := hislands.unique hrun₂
    exact ⟨hpass, ⟨g', hgone, rfl⟩, rfl⟩
  · rintro ⟨hpass, ⟨g', hgone, rfl⟩, rfl⟩
    exact ⟨⟨⟩, w, ⟨hpass, rfl⟩, ⟨⟩, t₁, hrun₁, ⟨⟩, t₂, hrun₂, ⟨⟩, _, ⟨g', hgone, rfl⟩, rfl, rfl⟩

theorem Islanded.outcome {t : Workspace} (hg : g.WellFormed)
    (ht : Islanded g n (around g (g.markers .isolate)) g.sources t)
    (hgone : Yields (Rewiring.removeAll (g.markers .isolate)) t.graph u g') :
    ∃ islands, Outcome g n islands g' := by
  obtain ⟨islands, hsub, ht, hcovered⟩ := ht
  have hcleared := removeAll_cleared ht.wellFormed (findAll_nodup hg) hgone
  have hstays : ∀ {x op}, g'.get? x = some op → x ∉ g.markers .isolate := by
    intro x op hop hx
    rw [hcleared.gone x hx] at hop
    cases hop
  refine ⟨islands, hsub, hcovered, hcleared.gone, fun x hx => ?_, fun x op hop => ?_⟩
  · have hrest := map_eq_of_map_eq (f := fun op => op.disconnected.unplaced) (ht.rest x)
      fun _ => rfl
    have hkept := congrArg (Option.map Operator.unplaced) (hcleared.kept x hx)
    rw [Option.map_map, Option.map_map] at hkept
    exact hkept.trans hrest
  · obtain ⟨a, ha, heq⟩ := exists_of_disconnected (hcleared.kept x (hstays hop)) hop
    have hregion : a.region? = op.region? := by
      rw [← Operator.region?_disconnected, heq, Operator.region?_disconnected]
    rw [← hregion]
    exact ht.region x a ha

/-- **What a run that succeeds has established.** -/
theorem run_outcome (hg : w.graph.WellFormed)
    (hblank : ∀ x op, w.graph.get? x = some op → op.region? = none) (h : Yields run w k w') :
    (∀ m ∈ w.graph.markers .isolate, Passable w.graph m) ∧
      ∃ islands, Outcome w.graph w.counters.isolate islands w'.graph := by
  obtain ⟨t, ht, hiff⟩ := run_tagged hg hblank
  obtain ⟨hpass, ⟨g', hgone, rfl⟩, _⟩ := (hiff k w').mp h
  exact ⟨hpass, ht.outcome hg hgone⟩

/-- **A run succeeds** when every marker is passable and has one output at most. -/
theorem run_total (hg : w.graph.WellFormed)
    (hblank : ∀ x op, w.graph.get? x = some op → op.region? = none)
    (hpass : ∀ m ∈ w.graph.markers .isolate, Passable w.graph m)
    (hout : ∀ m ∈ w.graph.markers .isolate,
      ∃ op, w.graph.get? m = some op ∧ op.outputs.length ≤ 1) :
    ∃ w', Yields run w (w.graph.markers .isolate).length w' := by
  obtain ⟨t, ⟨islands, hsub, ht, hcovered⟩, hiff⟩ := run_tagged hg hblank
  have hremovable : ∀ m ∈ w.graph.markers .isolate,
      ∃ op, t.graph.get? m = some op ∧ op.outputs.length ≤ 1 := by
    intro m hm
    obtain ⟨op, hop, hlen⟩ := hout m hm
    have hsame := map_eq_of_map_eq (f := fun op => op.outputs.length) (ht.rest m) fun _ => rfl
    rw [hop, Option.map_some, Option.map_eq_some_iff] at hsame
    obtain ⟨a, ha, heq⟩ := hsame
    exact ⟨a, ha, heq ▸ hlen⟩
  obtain ⟨g', hgone⟩ := (yields_removeAll ht.wellFormed (findAll_nodup hg)).mpr hremovable
  exact ⟨_, (hiff _ _).mpr ⟨hpass, ⟨g', hgone, rfl⟩, rfl⟩⟩

end Isolation

end StreamTopology
