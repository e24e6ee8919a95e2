import StreamTopology.Proofs.Passes.Endings
import StreamTopology.Proofs.Regions.Linked

/-!
# Running the isolation pass again

A run of the isolation pass that is refused must not have used up a number, and one that succeeds
must not have anything left to do. Neither follows from what a single batch does: a removal that
failed would leave the batches before it in the graph, and a source that no batch claims would be
given a region by the next run.

All checks come before the first batch, and after the checks nothing can fail, since a batch puts
operators into regions and touches nothing that a removal looks at. Operators may be in regions from
the start here, the ports need not agree with each other, and the index may be out of date: a batch
reads the index of the graph as it is, and regions are all it writes.

## Main definitions

* `Aborts`: a run that fails and leaves the state as it was.
* `Graph.Spreads`: one graph is another one with more operators in regions.

## Main results

* `Isolation.assignIslands_spreads`: after the islands every source is in a region.
* `Isolation.yields_run_of_placed`: without markers, and with all sources in regions, a run changes
  nothing.
* `isolation_repeats`: a run is refused and changes nothing, or it succeeds and the next one changes
  nothing.
-/

namespace StreamTopology

/-! ### Runs that leave the state as it was -/

section

variable {σ α β : Type} {s s' : σ} {action : ExceptT Error (StateM σ) α} {e : Error}

/-- The action fails from the state `s` with this error, and leaves the state as it was. -/
def Aborts (action : ExceptT Error (StateM σ) α) (s : σ) (e : Error) : Prop :=
  action.run.run s = (.error e, s)

theorem aborts_get_bind {f : σ → ExceptT Error (StateM σ) β} (h : Aborts (f s) s e) :
    Aborts (get >>= f) s e := h

theorem Aborts.bind {f : α → ExceptT Error (StateM σ) β} (h : Aborts action s e) :
    Aborts (action >>= f) s e := by
  have step : (action >>= f).run.run s =
      ExceptT.bindCont (fun a => f a) (action.run.run s).1 (action.run.run s).2 := rfl
  rw [Aborts, step, h]
  rfl

/-- A loop whose steps change nothing changes nothing. -/
theorem yields_forM_still {f : α → ExceptT Error (StateM σ) PUnit} {xs : List α}
    (h : ∀ x ∈ xs, Yields (f x) s ⟨⟩ s) : Yields (xs.forM f) s ⟨⟩ s := by
  induction xs with
  | nil => exact yields_forM_nil.mpr rfl
  | cons x xs ih =>
    exact yields_forM_cons.mpr
      ⟨s, h x List.mem_cons_self, ih fun y hy => h y (List.mem_cons_of_mem x hy)⟩

/-- A run that does not succeed, and leaves the state alone when it fails, aborts. -/
theorem Ends.aborts {Q : α → σ → Prop} {F : Error → Prop}
    (h : Ends Q (fun e t => F e ∧ t = s) action s) (hno : ∀ a t, ¬ Yields action s a t) :
    ∃ e, F e ∧ Aborts action s e := by
  unfold Ends at h
  rcases hrun : action.run.run s with ⟨e | a, t⟩
  · rw [hrun] at h
    obtain ⟨he, rfl⟩ := h
    exact ⟨e, he, hrun⟩
  · exact absurd hrun (hno a t)

end

/-! ### More operators in regions -/

namespace Graph

variable {g g' g'' : Graph} {x : Handle} {xs : List Handle} {n : Nat} {op : Operator}

/-- `g'` is `g` after regions have been given out: an operator may have come into a region, and no
operator has come out of one. -/
structure Spreads (g g' : Graph) : Prop where
  wellFormed : g.WellFormed → g'.WellFormed
  order : g'.order = g.order
  rest : ∀ x, (g'.get? x).map Operator.unplaced = (g.get? x).map Operator.unplaced
  stays : ∀ x, (g.regionOf x).isSome = true → (g'.regionOf x).isSome = true

theorem Spreads.refl (g : Graph) : g.Spreads g := ⟨id, rfl, fun _ => rfl, fun _ => id⟩

theorem Spreads.trans (h : g.Spreads g') (h' : g'.Spreads g'') : g.Spreads g'' :=
  ⟨h'.wellFormed ∘ h.wellFormed, h'.order.trans h.order, fun x => (h'.rest x).trans (h.rest x),
    fun x => h'.stays x ∘ h.stays x⟩

/-- What is in the graph and among the operators of a batch is in a region afterwards. -/
theorem regionOf_mapAt_joined (hx : x ∈ xs) (hop : g.get? x = some op) :
    ((g.mapAt xs (Operator.joined (isolateRegionName n))).regionOf x).isSome = true := by
  rw [regionOf, get?_mapAt, if_pos hx, hop, Option.map_some, Option.bind_some,
    Operator.region?_joined]
  cases op.region? <;> rfl

theorem spreads_mapAt_joined :
    g.Spreads (g.mapAt xs (Operator.joined (isolateRegionName n))) := by
  refine ⟨fun hg => hg.mapAt _ _, rfl, fun x => ?_, fun x hx => ?_⟩
  · rw [get?_mapAt]
    split
    · rw [Option.map_map]
      exact congrFun (congrArg Option.map (funext fun op => Operator.unplaced_joined _ op)) _
    · rfl
  · by_cases hm : x ∈ xs
    · rcases hop : g.get? x with _ | op
      · rw [regionOf, hop] at hx
        cases hx
      · exact regionOf_mapAt_joined hm hop
    · rwa [regionOf, get?_mapAt, if_neg hm]

section

variable (h : g.Spreads g')

include h

theorem Spreads.contains : g'.contains x = g.contains x := by
  have hsome := congrArg Option.isSome (h.rest x)
  simpa [Graph.contains] using hsome

theorem Spreads.sources : g'.sources = g.sources :=
  findAll_congr h.order fun x => map_eq_of_map_eq (h.rest x) fun _ => rfl

theorem Spreads.markers {m : Marker} : g'.markers m = g.markers m :=
  findAll_congr h.order fun x => map_eq_of_map_eq (h.rest x) fun _ => rfl

theorem Spreads.outputs : (g'.get? x).map (fun op => op.outputs.length) =
    (g.get? x).map fun op => op.outputs.length :=
  map_eq_of_map_eq (h.rest x) fun _ => rfl

end

/-- An operator that is left after a removal has the region that it had. -/
theorem Cleared.regionOf {ids : List Handle} (h : g.Cleared ids g') (hop : g'.get? x = some op) :
    g'.regionOf x = g.regionOf x := by
  obtain ⟨_, a, ha, hsame⟩ := h.exists_before hop
  rw [Graph.regionOf, Graph.regionOf, hop, ha, Option.bind_some, Option.bind_some,
    ← Operator.region?_disconnected, ← hsame, Operator.region?_disconnected]

end Graph

/-! ### The steps of a run -/

namespace Isolation

open StreamTopology.Graph

variable {w : Workspace} {starts : List Handle}

theorem assign_spreads (hg : w.graph.WellFormed)
    (hstarts : ∀ s ∈ starts, w.graph.contains s = true) :
    ∃ w', Yields (assign starts) w () w' ∧ w.graph.Spreads w'.graph :=
  ⟨_, yields_assign hg hstarts, spreads_mapAt_joined⟩

/-- A source is put into a region by a batch of its own. -/
theorem assign_places {s : Handle} (hg : w.graph.WellFormed) (hs : w.graph.contains s = true) :
    ∃ w', Yields (assign [s]) w () w' ∧ w.graph.Spreads w'.graph ∧
      (w'.graph.regionOf s).isSome = true := by
  obtain ⟨op, hop⟩ := contains_iff.mp hs
  have hstarts : ∀ x ∈ [s], w.graph.contains x = true :=
    fun x hx => List.mem_singleton.mp hx ▸ hs
  exact ⟨_, yields_assign hg hstarts, spreads_mapAt_joined, regionOf_mapAt_joined mem_walk_self hop⟩

/-- The batches around the markers of a list succeed. -/
theorem assignAround_spreads (hg : w.graph.WellFormed) (ms : List Handle) :
    ∃ w', Yields (ms.forM fun m => do
        assign ((← get).graph.parents m)
        assign ((← get).graph.children m)) w () w' ∧ w.graph.Spreads w'.graph := by
  refine yields_forM_total (I := fun _ (t : Workspace) => w.graph.Spreads t.graph) ?_ (.refl _)
  intro _ m t _ ht
  have hgt := ht.wellFormed hg
  obtain ⟨t₁, hrun₁, h₁⟩ := assign_spreads hgt fun _ => contains_of_mem_parents hgt (x := _)
  have hgt₁ := h₁.wellFormed hgt
  obtain ⟨t₂, hrun₂, h₂⟩ := assign_spreads hgt₁ fun _ => contains_of_mem_children hgt₁
  refine ⟨t₂, ?_, ht.trans (h₁.trans h₂)⟩
  rw [yields_get_bind, yields_bind]
  exact ⟨⟨⟩, t₁, hrun₁, yields_get_bind.mpr hrun₂⟩

/-- **After the islands** every source is in a region. -/
theorem assignIslands_spreads (hg : w.graph.WellFormed) :
    ∃ w', Yields assignIslands w () w' ∧ w.graph.Spreads w'.graph ∧
      ∀ s ∈ w.graph.sources, (w'.graph.regionOf s).isSome = true := by
  rw [assignIslands]
  simp only [yields_get_bind]
  refine yields_forM_total
    (I := fun done (t : Workspace) => w.graph.Spreads t.graph ∧
      ∀ s ∈ done, (t.graph.regionOf s).isSome = true)
    ?_ ⟨.refl _, fun _ h => (List.not_mem_nil h).elim⟩
  rintro done s t hs ⟨ht, hdone⟩
  obtain ⟨a, ha, _⟩ := (mem_findAll hg).mp hs
  have hlive : t.graph.contains s = true := ht.contains.trans (contains_iff.mpr ⟨a, ha⟩)
  obtain ⟨op, hop⟩ := contains_iff.mp hlive
  -- the sources before `s` stay in their regions, so `s` is all there is to show
  have hnext : ∀ {t' : Workspace}, t.graph.Spreads t'.graph → (t'.graph.regionOf s).isSome = true →
      w.graph.Spreads t'.graph ∧
        ∀ x ∈ done ++ [s], (t'.graph.regionOf x).isSome = true := by
    refine fun h hsome => ⟨ht.trans h, fun x hx => ?_⟩
    rcases List.mem_append.mp hx with hx | hx
    · exact h.stays x (hdone x hx)
    · rwa [List.mem_singleton.mp hx]
  simp only [yields_onGraph_lookup_bind hop]
  rcases hregion : op.placement.isolateRegion? with _ | r
  · obtain ⟨t', hrun, hspreads, hsome⟩ := assign_places (ht.wellFormed hg) hlive
    rw [Option.isNone_none, if_pos rfl]
    exact ⟨t', hrun, hnext hspreads hsome⟩
  · rw [Option.isNone_some, if_neg Bool.false_ne_true]
    refine ⟨t, yields_pure.mpr ⟨rfl, rfl⟩, hnext (.refl _) ?_⟩
    have hregion : op.region? = some r := hregion
    rw [Graph.regionOf, hop, Option.bind_some, hregion, Option.isSome_some]

/-! ### Whole runs -/

/-- **A run with nothing to do**: there are no markers, and all sources are in regions. -/
theorem yields_run_of_placed (hg : w.graph.WellFormed) (hmarkers : w.graph.markers .isolate = [])
    (hsources : ∀ s ∈ w.graph.sources, (w.graph.regionOf s).isSome = true) :
    Yields run w 0 w := by
  have hislands : Yields assignIslands w ⟨⟩ w := by
    rw [assignIslands, yields_get_bind]
    refine yields_forM_still fun s hs => ?_
    have hsome := hsources s hs
    obtain ⟨op, hop, _⟩ := (mem_findAll hg).mp hs
    rw [Graph.regionOf, hop, Option.bind_some] at hsome
    have hplaced : op.placement.isolateRegion?.isNone = false := by
      rw [← Option.not_isSome]
      exact congrArg not hsome
    rw [yields_onGraph_lookup_bind hop, hplaced, if_neg Bool.false_ne_true]
    exact yields_pure.mpr ⟨rfl, rfl⟩
  rw [run, yields_get_bind, hmarkers]
  simp only [yields_bind, yields_pure]
  exact ⟨⟨⟩, w, yields_forM_nil.mpr rfl, ⟨⟩, w, yields_forM_nil.mpr rfl, ⟨⟩, w, hislands, ⟨⟩, w,
    yields_onGraph.mpr ⟨w.graph, yields_forM_nil.mpr rfl, rfl⟩, rfl, rfl⟩

/-- A run that passes the checks succeeds. It leaves no marker, and all sources in regions. -/
theorem run_places (hg : w.graph.WellFormed)
    (hpass : ∀ m ∈ w.graph.markers .isolate, Passable w.graph m)
    (hslim : ∀ m ∈ w.graph.markers .isolate, ∀ op, w.graph.get? m = some op →
      op.outputs.length ≤ 1) :
    ∃ w', Yields run w (w.graph.markers .isolate).length w' ∧ w'.graph.WellFormed ∧
      w'.graph.markers .isolate = [] ∧
      ∀ s ∈ w'.graph.sources, (w'.graph.regionOf s).isSome = true := by
  obtain ⟨t₁, hrun₁, h₁⟩ := assignAround_spreads hg (w.graph.markers .isolate)
  obtain ⟨t₂, hrun₂, h₂, hplaced⟩ := assignIslands_spreads (h₁.wellFormed hg)
  have h := h₁.trans h₂
  have hgt := h.wellFormed hg
  have hremovable : ∀ m ∈ w.graph.markers .isolate,
      ∃ op, t₂.graph.get? m = some op ∧ op.outputs.length ≤ 1 := by
    intro m hm
    obtain ⟨op, hop, _⟩ := (mem_findAll hg).mp hm
    have hsame := h.outputs (x := m)
    rw [hop, Option.map_some] at hsame
    obtain ⟨a, ha, hlen⟩ := Option.map_eq_some_iff.mp hsame
    exact ⟨a, ha, hlen ▸ hslim m hm op hop⟩
  obtain ⟨g', hgone⟩ := (yields_removeAll hgt (findAll_nodup hg)).mpr hremovable
  have hcleared := removeAll_cleared hgt (findAll_nodup hg) hgone
  refine ⟨{ t₂ with graph := g' }, ?_, hcleared.wellFormed, ?_, fun s hs => ?_⟩
  · rw [run, yields_get_bind]
    simp only [yields_bind, yields_checks hg, yields_onGraph, yields_pure]
    exact ⟨⟨⟩, w, ⟨hpass, rfl⟩, ⟨⟩, t₁, hrun₁, ⟨⟩, t₂, hrun₂, ⟨⟩, _, ⟨g', hgone, rfl⟩, trivial,
      rfl⟩
  · exact Cleared.markers_nil hgt (h.markers (m := .isolate) ▸ hcleared)
  · obtain ⟨op, hop, _⟩ := (mem_findAll hcleared.wellFormed).mp hs
    have hsource : s ∈ t₁.graph.sources := h₂.sources ▸ hcleared.sources_subset hgt hs
    exact (congrArg Option.isSome (hcleared.regionOf hop)).trans (hplaced s hsource)

/-- A run that does not pass the checks aborts. -/
theorem run_aborts (hg : w.graph.WellFormed)
    (hblocked : ¬ ∀ m ∈ w.graph.markers .isolate, Passable w.graph m) :
    ∃ e, (e = .invalidGraph .adjacentIsolates ∨ e = .invalidGraph .rejoinedIsolation) ∧
      Aborts run w e := by
  have hends : Ends (fun _ t => t = w)
      (fun e t => (e = .invalidGraph .adjacentIsolates ∨ e = .invalidGraph .rejoinedIsolation) ∧
        t = w) ((w.graph.markers .isolate).forM fun m => RegionM.onGraph (check m)) w := by
    refine ends_forM rfl fun m _ t ht => ends_onGraph ?_
    subst ht
    refine (check_ends hg).mono ?_ ?_
    · rintro _ _ rfl
      rfl
    · rintro e _ ⟨he, rfl⟩
      exact ⟨he, rfl⟩
  obtain ⟨e, he, haborts⟩ := hends.aborts fun _ _ hrun => hblocked ((yields_checks hg).mp hrun).1
  exact ⟨e, he, aborts_get_bind haborts.bind⟩

end Isolation

open Isolation

/-- **The isolation pass is atomic, and it is done after one run.** Whatever regions operators are
in before and whatever the counters are, if no marker has two output ports: either some marker is
not passable, and the run fails and leaves the graph and the counters as they were; or all markers
are passable, and the run succeeds, and a second run counts no marker and changes neither the graph
nor the counters. -/
theorem isolation_repeats {w : Workspace} (hg : w.graph.WellFormed)
    (hslim : ∀ m ∈ w.graph.markers .isolate, ∀ op, w.graph.get? m = some op →
      op.outputs.length ≤ 1) :
    ((∃ m ∈ w.graph.markers .isolate, ¬ Passable w.graph m) ∧
      ∃ e, (e = .invalidGraph .adjacentIsolates ∨ e = .invalidGraph .rejoinedIsolation) ∧
        Aborts Isolation.run w e) ∨
    ((∀ m ∈ w.graph.markers .isolate, Passable w.graph m) ∧
      ∃ w', Yields Isolation.run w (w.graph.markers .isolate).length w' ∧
        Yields Isolation.run w' 0 w') := by
  by_cases hpass : ∀ m ∈ w.graph.markers .isolate, Passable w.graph m
  · obtain ⟨w', hrun, hg', hmarkers, hsources⟩ := run_places hg hpass hslim
    exact Or.inr ⟨hpass, w', hrun, yields_run_of_placed hg' hmarkers hsources⟩
  · refine Or.inl ⟨?_, run_aborts hg hpass⟩
    simpa only [not_forall, exists_prop] using hpass

theorem isolation_repeats_oneMarker :
    oneMarker.WellFormed ∧
      (∀ m ∈ oneMarker.markers .isolate, ∀ op, oneMarker.get? m = some op →
        op.outputs.length ≤ 1) ∧
      (((∃ m ∈ oneMarker.markers .isolate, ¬ Passable oneMarker m) ∧
        ∃ e, (e = .invalidGraph .adjacentIsolates ∨ e = .invalidGraph .rejoinedIsolation) ∧
          Aborts Isolation.run { graph := oneMarker, counters := ⟨4, 2⟩ } e) ∨
      ((∀ m ∈ oneMarker.markers .isolate, Passable oneMarker m) ∧
        ∃ w', Yields Isolation.run { graph := oneMarker, counters := ⟨4, 2⟩ }
            (oneMarker.markers .isolate).length w' ∧
          Yields Isolation.run w' 0 w')) := by
  have hg := oneMarker_checked.wellFormed
  have hall : ∀ m ∈ oneMarker.markers .isolate, ∀ op ∈ oneMarker.get? m,
      op.outputs.length ≤ 1 := by decide
  exact ⟨hg, hall, isolation_repeats (w := { graph := oneMarker, counters := ⟨4, 2⟩ }) hg hall⟩

end StreamTopology
