import StreamTopology.Proofs.Composite.CallTree
import StreamTopology.Proofs.Composite.Resolution
import StreamTopology.Proofs.Graph.Insertion
import StreamTopology.Proofs.Generation
import StreamTopology.Proofs.Passes.Frame

/-!
# All markers are accounted for

A run says how many markers it has removed. Those of the consumed kinds are spliced out by four
passes, those of parallel regions are counted before they are folded into composites, and in between
hash adders are taken out and put in again, which may be markers of any kind. Nothing is asked of
the ports.

Moving hash adders changes handles and the order, so what stays is counted and not listed:
`Graph.kinds` up to its order. Everything after that is an instance of `Graph.Framed`, which says
which handles go.

## Main definitions

* `Graph.kinds`: the kinds of all operators.
* `Graph.tally`: how many operators are markers of some kinds.

## Main results

* `HashAdders.relocate_kinds`: moving hash adders keeps the kinds.
* `Separation.separate_unmarked`: the members of composites are no markers of a region.
* `Session.generate_tally`: what becomes of the markers in a run that succeeds.
-/

namespace StreamTopology

/-! ### Counting markers -/

namespace Graph

variable {g g' : Graph} {ms ms' : List Marker} {m : Marker} {x e : Handle} {op op' : Operator}

/-- The kinds of all operators, in graph order. -/
def kinds (g : Graph) : List String := g.operators.map Operator.kind

/-- How many operators are markers of these kinds. -/
def tally (g : Graph) (ms : List Marker) : Nat := g.order.countP fun x => g.Marked ms x

theorem kinds_eq : g.kinds = g.order.filterMap fun x => (g.get? x).map Operator.kind := by
  rw [kinds, operators_eq_filterMap, List.map_filterMap]

theorem WellFormed.length_kinds (hg : g.WellFormed) : g.kinds.length = g.size := by
  rw [kinds_eq, List.length_filterMap_eq_countP, Graph.size, List.countP_eq_length]
  intro x hx
  obtain ⟨op, hop⟩ := hg.mem_order_iff.mp hx
  simp [hop]

theorem tally_eq : g.tally ms = g.kinds.countP fun k => ∃ m ∈ ms, Marker.ofKind? k = some m := by
  rw [tally, kinds_eq, List.countP_filterMap]
  refine List.countP_congr fun x _ => ?_
  rw [decide_eq_true_eq, Marked, marker?]
  cases g.get? x <;> simp [Operator.marker?]

theorem length_markers : (g.markers m).length = g.tally [m] := by
  rw [markers, findAll_eq_filter, tally, List.countP_eq_length_filter]
  congr 1
  refine List.filter_congr fun x _ => ?_
  have hmarker : g.Marked [m] x ↔ (g.get? x).any fun op => op.isMarker m := by
    simp only [Marked, List.mem_singleton, exists_eq_left, marker?_eq_some, Option.any_eq_true,
      Operator.isMarker, beq_iff_eq]
  simp only [hmarker, Bool.decide_eq_true]

theorem tally_congr (h : ∀ m, m ∈ ms ↔ m ∈ ms') : g.tally ms = g.tally ms' := by
  refine List.countP_congr fun x _ => ?_
  simp only [decide_eq_true_eq]
  simp only [Marked, h]

/-- An operator has one kind. -/
theorem tally_append (h : ms.Disjoint ms') : g.tally (ms ++ ms') = g.tally ms + g.tally ms' := by
  rw [tally, tally, tally]
  induction g.order with
  | nil => rfl
  | cons x order ih =>
    have hboth : ¬ (g.Marked ms x ∧ g.Marked ms' x) := by
      rintro ⟨⟨m, hm, hkind⟩, m', hm', hkind'⟩
      obtain rfl := Option.some.inj (hkind.symm.trans hkind')
      exact h hm hm'
    have happend : g.Marked (ms ++ ms') x ↔ g.Marked ms x ∨ g.Marked ms' x := by
      simp only [Marked, List.mem_append, or_and_right, exists_or]
    simp only [List.countP_cons, ih, happend, decide_eq_true_eq]
    by_cases hx : g.Marked ms x
    · have hx' : ¬ g.Marked ms' x := fun hx' => hboth ⟨hx, hx'⟩
      simp only [hx, hx', true_or, if_true, if_false]
      omega
    · simp only [hx, false_or, if_false]
      omega

/-- A marker is consumed by preparation, or it begins or ends a parallel region. -/
theorem tally_all : g.tally Marker.all =
    g.tally Marker.consumed + (g.tally [.parallel] + g.tally [.endParallel]) := by
  rw [← tally_append (by simp), ← tally_append (by simp [Marker.consumed])]
  exact tally_congr fun m => by cases m <;> decide

theorem marker?_eq_none (hconsumed : ¬ g.Marked Marker.consumed x) (hplain : g.IsPlain x) :
    g.marker? x = none := by
  rcases hmarker : g.marker? x with _ | m
  · rfl
  · exfalso
    have hnot : m ∉ Marker.consumed := fun hm => hconsumed ⟨m, hm, hmarker⟩
    rw [IsPlain, hmarker] at hplain
    revert hplain hnot
    cases m <;> decide

/-- Markers of other kinds are all left. -/
theorem Framed.tally (h : g.Framed ms g') (hdisjoint : ms.Disjoint ms') :
    g'.tally ms' = g.tally ms' := by
  have hkept : g'.tally ms' = g'.order.countP fun x => g.Marked ms' x :=
    List.countP_congr fun x hx => by
      rw [decide_eq_true_eq, decide_eq_true_eq, Marked, h.marker? hx, Marked]
  rw [hkept, h.order, List.countP_filter, Graph.tally]
  refine List.countP_congr fun x _ => ?_
  simp only [Bool.and_eq_true, decide_eq_true_eq, and_iff_left_iff_imp]
  rintro ⟨m, hm, hkind⟩ ⟨m', hm', hkind'⟩
  obtain rfl := Option.some.inj (hkind.symm.trans hkind')
  exact hdisjoint hm' hm

/-- None of the markers is left. -/
theorem Framed.unmarked (h : g.Framed ms g') : ¬ g'.Marked ms x := by
  rintro ⟨m, hm, hkind⟩
  obtain ⟨op, hop, _⟩ := marker?_eq_some.mp hkind
  have hx : x ∈ g'.order := h.wellFormed.mem_order_iff.mpr ⟨op, hop⟩
  rw [h.marker? hx] at hkind
  rw [h.order, List.mem_filter, decide_eq_true_eq] at hx
  exact hx.2 ⟨m, hm, hkind⟩

/-! ### Moving operators -/

/-- A step that keeps the kinds of all operators, up to their order. -/
def SameKinds (g g' : Graph) : Prop := g'.kinds.Perm g.kinds

instance : Std.Refl SameKinds := ⟨fun _ => .refl _⟩

instance : IsTrans Graph SameKinds := ⟨fun _ _ _ h h' => h'.trans h⟩

theorem sameKinds_set (hop : g.get? x = some op) (hkind : op'.kind = op.kind) :
    SameKinds g (g.set x op') := by
  have horder : (g.set x op').order = g.order := rfl
  rw [SameKinds, kinds_eq, kinds_eq, horder]
  refine List.Perm.of_eq (List.filterMap_congr fun y _ => ?_)
  rw [get?_set (contains_iff.mpr ⟨op, hop⟩)]
  by_cases hy : y = x
  · rw [if_pos hy, hy, hop, Option.map_some, Option.map_some, hkind]
  · rw [if_neg hy]

theorem sameKinds_copied (hg : g.WellFormed) (hop : g.get? x = some op) :
    SameKinds g (g.copied e x op) := by
  have hx : x ∈ g.order := hg.mem_order_iff.mpr ⟨op, hop⟩
  have hwithout : (g.without x op).kinds =
      (g.order.erase x).filterMap fun y => (g.get? y).map Operator.kind := by
    rw [kinds_eq, hg.order_without, ← hg.order_nodup.erase_eq_filter]
    refine List.filterMap_congr fun y hy => ?_
    have hne : y ≠ x := (hg.order_nodup.mem_erase_iff.mp hy).1
    exact map_eq_of_map_eq (disconnected_without hne) fun _ => rfl
  have hinsert : (g.copied e x op).kinds.Perm (op.kind :: (g.without x op).kinds) :=
    (hg.without x op).operators_insertBefore.map Operator.kind
  refine hinsert.trans ?_
  rw [hwithout, kinds_eq]
  refine List.Perm.symm ?_
  refine ((List.perm_cons_erase hx).filterMap _).trans ?_
  rw [List.filterMap_cons, hop, Option.map_some]

end Graph

namespace HashAdders

open StreamTopology.Graph

variable {g g' : Graph} {n : Nat} {ms : List Marker}

/-- **Moving hash adders keeps the kinds.** -/
theorem relocate_kinds (hg : g.WellFormed) (hrun : Yields relocate g n g') :
    g'.WellFormed ∧ g'.size = g.size ∧ ∀ ms, g'.tally ms = g.tally ms := by
  obtain ⟨hg', hkinds⟩ := confined_relocate (R := SameKinds)
    (fun _ _ _ _ _ hop _ hkind => sameKinds_set hop hkind) (fun _ => .refl _)
    (fun _ _ _ _ hg hop => sameKinds_copied hg hop) hg hrun
  refine ⟨hg', ?_, fun ms => ?_⟩
  · rw [← hg'.length_kinds, ← hg.length_kinds]
    exact hkinds.length_eq
  · rw [tally_eq, tally_eq]
    exact hkinds.countP_eq _

end HashAdders

/-! ### Members of composites -/

/-- The names of virtual kinds start with a dollar sign. -/
theorem Marker.head?_kind (m : Marker) : m.kind.toList.head? = some '$' := by
  cases m <;> decide

theorem Composite.marker?_parallelName (k : Nat) : Marker.ofKind? (parallelName k) = none := by
  have hhead (text : String) : ("__parallel_Composite_" ++ text).toList.head? = some '_' := by
    simp
  refine Option.eq_none_iff_forall_ne_some.mpr fun m h => ?_
  have hkind : m.kind = "__parallel_Composite_" ++ Decimal.intText k := Marker.ofKind?_eq_some.mp h
  have hfirst := m.head?_kind
  rw [hkind, hhead] at hfirst
  exact absurd hfirst (by decide)

namespace Separation

open StreamTopology.Graph

variable {g : Graph} {values : SubmissionValues} {n : Nat} {cs : List Composite} {s' : Separation}
  {ms : List Member} {new : List Composite} {op : Operator} {k : Nat}

theorem Grown.kind {m : Nat} (h : Grown n m ms new)
    (hcall : Member.invocation op k ∈ ms ++ new.flatMap Composite.members) :
    Marker.ofKind? op.kind = none := by
  have hmem : (k, op.kind) ∈ ms.filterMap Member.call? ++ new.flatMap Composite.calls := by
    have hcalls : ms.filterMap Member.call? ++ new.flatMap Composite.calls =
        (ms ++ new.flatMap Composite.members).filterMap Member.call? := by
      rw [List.filterMap_append, List.filterMap_flatMap]
      rfl
    rw [hcalls]
    exact List.mem_filterMap.mpr ⟨_, hcall, rfl⟩
  obtain ⟨i, c, hc, _, hname⟩ := Composite.mem_labels.mp (h.called.mem_iff.mp hmem)
  have hlisted : c.name ∈ new.map Composite.name :=
    List.mem_map_of_mem (List.mem_of_getElem? hc)
  obtain ⟨number, _, hnumber⟩ := List.mem_map.mp (h.named.mem_iff.mp hlisted)
  rw [hname, ← hnumber, Composite.marker?_parallelName]

/-- **Members of composites are no markers of a region,** and invocations are no markers. -/
theorem separate_unmarked (hrun : Yields (separate values) { graph := g, count := n } cs s') :
    ∀ c ∈ cs, (∀ x ∈ c.nodes, g.IsPlain x) ∧
      ∀ op k, Member.invocation op k ∈ c.members → op.marker? = none := by
  obtain ⟨root, hplan, _, hnodes⟩ := separate_nodes hrun
  have hroot : g.Plans g.sources [] none root := plans_of_planFrom hplan
  intro c hc
  constructor
  · intro x hx
    have hmem : c.nodes ∈ root.composites.map fun d => d.2.nodes := hnodes ▸ List.mem_map_of_mem hc
    obtain ⟨⟨σ, P⟩, hP, heq⟩ := List.mem_map.mp hmem
    exact ((mem_nodes_iff hroot hP).mp (heq ▸ hx)).1
  · intro op k hop
    obtain ⟨_, ms, s₁, _, _, _, hfill, hfinish, rfl⟩ := yields_separate.mp hrun
    obtain ⟨new, hcomp, _, hgrown⟩ := fill_grown hfill
    obtain ⟨_, ps, _, rfl⟩ := yields_finish hfinish
    rw [List.nil_append] at hcomp
    refine hgrown.kind (k := k) ?_
    rcases List.mem_append.mp hc with hc | hc
    · rw [hcomp] at hc
      exact List.mem_append_right _ (List.mem_flatMap.mpr ⟨c, hc, hop⟩)
    · obtain rfl := List.mem_singleton.mp hc
      exact List.mem_append_left _ hop

end Separation

/-! ### A whole run -/

theorem Graph.Retains.size {g g' : Graph} (hg : g.WellFormed) (h : g.Retains g') :
    g'.size = g.size := by
  refine ((List.perm_ext_iff_of_nodup h.wellFormed.order_nodup hg.order_nodup).mpr fun x => ?_)
    |>.length_eq
  rw [h.wellFormed.mem_order, hg.mem_order, h.contains]

/-- What becomes of the markers in the preparation of a graph. -/
theorem Preparation.run_tally {w w' : Workspace} {stats : Stats} (hg : w.graph.WellFormed)
    (hrun : Yields run w stats w') :
    (∀ x, ¬ w'.graph.Marked Marker.consumed x) ∧
      stats.markersRemoved = w.graph.tally Marker.consumed ∧
      w'.graph.size + w.graph.tally Marker.consumed = w.graph.size ∧
      ∀ ms, Marker.consumed.Disjoint ms → w'.graph.tally ms = w.graph.tally ms := by
  obtain ⟨g, hrelocate, hframed⟩ := run_stages_framed hrun
  obtain ⟨hg', hsize, htally⟩ := HashAdders.relocate_kinds hg hrelocate
  obtain ⟨hframed, hremoved⟩ := hframed hg'
  have hleft : w'.graph.size + g.tally Marker.consumed = g.size := hframed.size
  rw [htally] at hleft
  refine ⟨fun x => hframed.unmarked, by omega, by omega, fun ms hms => ?_⟩
  rw [hframed.tally hms, htally]

namespace Session

variable {s : Session} {g : Graph} {r : Generated}

/-- **All markers are accounted for, and none is emitted.** After a run that succeeds: preparation
has left no marker of a consumed kind, no member of a composite is a marker, the number of markers
that the run gives is that of all markers of the graph it started from, and the graph has lost
exactly the markers of the consumed kinds. -/
theorem generate_tally {d : Description} (h : Graph.ofDescription d = .ok g)
    (hresult : (s.generate g).result = .ok r) :
    (∃ stats w, Yields Preparation.run { graph := g, counters := s.counters } stats w ∧
      ∀ x, ¬ w.graph.Marked Marker.consumed x) ∧
    (∃ cs, s.ComesTo g cs (s.generate g).graph ∧ r.composites = cs.length ∧
      ∀ c ∈ cs, ∀ m ∈ c.members, ∃ op, m.operator? (s.generate g).graph = some op ∧
        op.marker? = none) ∧
    r.markersRemoved = g.tally Marker.all ∧
    (s.generate g).graph.size + g.tally Marker.consumed = g.size := by
  have hg : g.Sound := .ofDescription h
  obtain ⟨values, stats, w, cs, done, hvalues, hprepare, hseparate, hgraph, hlength, hremoved⟩ :=
    yields_of_generate hresult
  have hw : w.graph.Sound := (Preparation.run_settles hg).of_yields hprepare
  obtain ⟨hnone, hcount, hsize, htally⟩ := Preparation.run_tally hg.wellFormed hprepare
  obtain ⟨hretains, hlive⟩ := (Separation.separate_ends hw.wellFormed).of_yields hseparate
  refine ⟨⟨stats, w, hprepare, hnone⟩, ⟨cs, ⟨values, stats, w, done, hvalues, hprepare, hseparate,
    hgraph⟩, hlength, fun c hc m hm => ?_⟩, ?_, ?_⟩
  · obtain ⟨hplain, hinvocation⟩ := Separation.separate_unmarked hseparate c hc
    cases m with
    | node x =>
      have hx : x ∈ c.nodes := List.mem_filterMap.mpr ⟨_, hm, rfl⟩
      obtain ⟨op, hop⟩ := Graph.contains_iff.mp (hlive c hc x hx)
      refine ⟨op, hgraph ▸ hop, ?_⟩
      -- a separation renames streams, so the kind is that in the prepared graph
      have hkind : done.graph.marker? x = w.graph.marker? x :=
        Graph.marker?_congr
          (map_eq_of_map_eq (Separation.separate_renamed hseparate x) fun _ => rfl)
      have hmarker : done.graph.marker? x = op.marker? := by rw [Graph.marker?, hop]; rfl
      rw [← hmarker, hkind]
      exact Graph.marker?_eq_none (hnone x) (hplain x hx)
    | invocation op k => exact ⟨op, rfl, hinvocation op k hm⟩
  · rw [hremoved, Graph.length_markers, Graph.length_markers, htally _ (by simp [Marker.consumed]),
      htally _ (by simp [Marker.consumed]), hcount, Graph.tally_all]
  · rw [hgraph, hretains.size hw.wellFormed]
    exact hsize

theorem markedChain_generate : ∃ r, (generate {} Preparation.markedChain).result = .ok r := by
  have hplan : Preparation.markedChainPrepared.plan = .ok
      (.node ⟨0⟩ (.region ⟨2⟩ (.node ⟨3⟩ (.done (some ⟨4⟩))) (.node ⟨5⟩ (.done none)))) :=
    Graph.planFrom_of_within (n := 6) (by decide)
  have hseparate : Yields (Separation.separate {})
      { graph := Preparation.markedChainPrepared, count := 0 } _ _ :=
    Separation.yields_separate.mpr ⟨_, _, _, _, hplan, rfl, rfl, rfl, rfl⟩
  have hvalues : SubmissionValues.ofParameters Preparation.markedChain.parameters = .ok {} := rfl
  exact exists_generate hvalues Preparation.markedChain_prepare hseparate (by decide)

/-- In this chain, a marker is spliced out, and two are folded into a composite. -/
theorem generate_tally_markedChain :
    Graph.ofDescription Preparation.markedChain.toDescription = .ok Preparation.markedChain ∧
      ∃ r, (generate {} Preparation.markedChain).result = .ok r ∧
        (∃ stats w, Yields Preparation.run { graph := Preparation.markedChain } stats w ∧
          ∀ x, ¬ w.graph.Marked Marker.consumed x) ∧
        (∃ cs, ComesTo {} Preparation.markedChain cs (generate {} Preparation.markedChain).graph ∧
          r.composites = cs.length ∧
          ∀ c ∈ cs, ∀ m ∈ c.members,
            ∃ op, m.operator? (generate {} Preparation.markedChain).graph = some op ∧
              op.marker? = none) ∧
        r.markersRemoved = Preparation.markedChain.tally Marker.all ∧
        (generate {} Preparation.markedChain).graph.size +
          Preparation.markedChain.tally Marker.consumed = Preparation.markedChain.size := by
  obtain ⟨r, hresult⟩ := markedChain_generate
  obtain ⟨hprepared, hmembers, hremoved, hsize⟩ :=
    generate_tally Preparation.markedChain_ofDescription hresult
  exact ⟨Preparation.markedChain_ofDescription, r, hresult, hprepared, hmembers, hremoved, hsize⟩

end Session

end StreamTopology
