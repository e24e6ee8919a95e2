import StreamTopology.Proofs.Passes.Relocation
import StreamTopology.Proofs.Passes.Success
import StreamTopology.Proofs.Topology.Parameters

/-!
# What preparation leaves alone

Preparation takes out markers and writes into the operators that stay. This module says how much it
writes. A frame that only listed the fields that may change would be too weak: an identifier of a
region that the user gave must survive, a request for a thread may go but not come, and of the
parameters two may change and no other. So the frame is a relation between an operator before and
after, `Operator.Prepared`, which is reflexive and transitive, and every write of a pass is an
instance of it.

What the ports list does not matter, and neither does the index: the statements are about all
graphs. Only hash adders have to be left out, since these are taken out and put in again elsewhere.

## Main definitions

* `Operator.core`: what no pass writes.
* `Parameters.Prepared`, `Operator.Prepared`: an operator before and after.
* `Graph.Tuned`, `Graph.Framed`: a graph before and after, with the same operators and without some
  markers.

## Main results

* `isolation_framed`, `lowLatency_framed`, `removeKind_framed`, `autonomous_framed`: the passes that
  take out markers.
* `Preparation.run_stages_framed`: everything that follows the moving of hash adders.
* `Preparation.run_framed`: a run on a graph without hash adders.
-/

namespace StreamTopology

open PassByReference (parameterName parameterOf)
open ThreadedPorts (queueSizeParameter)

/-! ### Operators before and after -/

/-- The port without its connections and without its request for a thread. -/
def InputPort.core (p : InputPort) : InputPort := { p with connections := [], queue := none }

/-- The operator without everything that a pass may write. -/
def Operator.core (op : Operator) : Operator :=
  { op with
    inputs := op.inputs.map InputPort.core
    outputs := op.outputs.map fun p => { p with connections := [] }
    parameters := {}
    config := { op.config with
      queue := none
      placement := { op.config.placement with
        isolateRegionId := none, lowLatencyRegionId := none, colocateKey := none } }
    autonomous := false }

/-- Parameters before and after preparation: the size of a queue may have gone, and what says which
consumers take references may have been set. -/
structure Parameters.Prepared (ps qs : Parameters) : Prop where
  others : (qs.named fun n => n != queueSizeParameter && n != parameterName) =
    ps.named fun n => n != queueSizeParameter && n != parameterName
  queueSize : (qs.named fun n => n == queueSizeParameter).Sublist
    (ps.named fun n => n == queueSizeParameter)
  outputConnections : qs.get? parameterName = ps.get? parameterName ∨
    ∃ entries, qs.get? parameterName = some (parameterOf entries)

/-- An operator before and after preparation. -/
structure Operator.Prepared (a b : Operator) : Prop where
  core : b.core = a.core
  /-- A region stays, unless its identifier was empty. -/
  isolateRegion : a.placement.isolateRegion? ≠ none →
    b.placement.isolateRegionId = a.placement.isolateRegionId
  lowLatencyRegion : a.placement.lowLatencyRegion? ≠ none →
    b.placement.lowLatencyRegionId = a.placement.lowLatencyRegionId
  /-- Requests for threads are dropped and not made. -/
  requests : List.Forall₂ (fun p q : InputPort => q.queue = p.queue ∨ q.queue = none) a.inputs
    b.inputs
  /-- A queue stays. One that is added is the default queue at the only input port. -/
  queue : b.config.queue = a.config.queue ∨ a.config.queue = none ∧
    ∃ port, a.inputs.map InputPort.core = [port.core] ∧
      b.config.queue = some (ThreadedPorts.defaultQueue port)
  autonomous : a.autonomous = true → b.autonomous = true
  parameters : a.parameters.Prepared b.parameters

namespace Parameters

variable {ps qs rs : Parameters}

theorem Prepared.refl (ps : Parameters) : ps.Prepared ps := ⟨rfl, .refl _, Or.inl rfl⟩

theorem Prepared.trans (h : ps.Prepared qs) (h' : qs.Prepared rs) : ps.Prepared rs := by
  refine ⟨h'.others.trans h.others, h'.queueSize.trans h.queueSize, ?_⟩
  rcases h'.outputConnections with hsame | hset
  · rw [hsame]
    exact h.outputConnections
  · exact Or.inr hset

theorem prepared_erase (ps : Parameters) : ps.Prepared (ps.erase queueSizeParameter) where
  others := named_erase (by decide)
  queueSize := named_erase_sublist
  outputConnections := Or.inl (get?_erase (by decide))

theorem prepared_insert (ps : Parameters) (entries : List Int) :
    ps.Prepared (ps.insert parameterName (parameterOf entries)) where
  others := named_insert (by decide)
  queueSize := by rw [named_insert (by decide)]
  outputConnections := Or.inr ⟨entries, by rw [get?_insert, if_pos rfl]⟩

end Parameters

namespace Operator

variable {a b c op : Operator}

theorem core_inputs (h : b.core = a.core) :
    b.inputs.map InputPort.core = a.inputs.map InputPort.core :=
  congrArg Operator.inputs h

theorem Prepared.refl (a : Operator) : a.Prepared a where
  core := rfl
  isolateRegion _ := rfl
  lowLatencyRegion _ := rfl
  requests := List.forall₂_same.mpr fun _ _ => Or.inl rfl
  queue := Or.inl rfl
  autonomous := id
  parameters := .refl _

theorem Prepared.trans (h : a.Prepared b) (h' : b.Prepared c) : a.Prepared c where
  core := h'.core.trans h.core
  isolateRegion hne := by
    have hsame := h.isolateRegion hne
    rw [h'.isolateRegion, hsame]
    rwa [Placement.isolateRegion?, hsame]
  lowLatencyRegion hne := by
    have hsame := h.lowLatencyRegion hne
    rw [h'.lowLatencyRegion, hsame]
    rwa [Placement.lowLatencyRegion?, hsame]
  requests := by
    refine forall₂_trans (fun p q r hpq hqr => ?_) h.requests h'.requests
    rcases hqr with hqr | hqr
    · rwa [hqr]
    · exact Or.inr hqr
  queue := by
    rcases h'.queue with hsame | ⟨hnone, port, hport, hset⟩
    · rw [hsame]
      exact h.queue
    · rcases h.queue with hsame' | ⟨_, port', _, hset'⟩
      · exact Or.inr ⟨hsame' ▸ hnone, port, (core_inputs h.core).symm.trans hport, hset⟩
      · rw [hset'] at hnone
        cases hnone
  autonomous := h'.autonomous ∘ h.autonomous
  parameters := h.parameters.trans h'.parameters

theorem Prepared.kind (h : a.Prepared b) : b.kind = a.kind :=
  show b.core.kind = a.core.kind by rw [h.core]

/-- Rewiring an operator changes connections only. -/
theorem prepared_of_disconnected (h : b.disconnected = a.disconnected) : a.Prepared b := by
  have hcore : ∀ op : Operator, op.disconnected.core = op.core := by
    intro op
    simp [disconnected, core, InputPort.core, Function.comp_def]
  have hconfig : b.config = a.config := show b.disconnected.config = _ by rw [h]; rfl
  have hparameters : b.parameters = a.parameters :=
    show b.disconnected.parameters = _ by rw [h]; rfl
  have hautonomous : b.autonomous = a.autonomous :=
    show b.disconnected.autonomous = _ by rw [h]; rfl
  have hinputs := congrArg (fun op : Operator => op.inputs.map InputPort.queue) h
  simp only [disconnected, List.map_map, Function.comp_def] at hinputs
  refine ⟨?_, fun _ => ?_, fun _ => ?_, ?_, ?_, ?_, ?_⟩
  · rw [← hcore b, h, hcore]
  · rw [placement, hconfig, placement]
  · rw [placement, hconfig, placement]
  · rw [eq_comm, ← List.forall₂_eq_eq_eq, List.forall₂_map_left_iff,
      List.forall₂_map_right_iff] at hinputs
    exact hinputs.imp fun _ _ hpq => Or.inl hpq.symm
  · exact Or.inl (by rw [hconfig])
  · exact fun ha => hautonomous.trans ha
  · exact hparameters ▸ .refl _

/-! ### The writes -/

theorem prepared_joinIsolateRegion (region : String) (op : Operator) :
    op.Prepared (op.mapPlacement fun p => p.joinIsolateRegion region) := by
  rcases h : op.placement.isolateRegion? with _ | id
  · rw [mapPlacement, Placement.joinIsolateRegion,
      show op.config.placement.isolateRegion? = none from h]
    exact { Prepared.refl op with isolateRegion := fun hne => absurd h hne }
  · rw [mapPlacement, Placement.joinIsolateRegion,
      show op.config.placement.isolateRegion? = some id from h]
    exact .refl op

theorem prepared_joinLowLatencyRegion (region : String) (op : Operator) :
    op.Prepared (op.mapPlacement fun p => p.joinLowLatencyRegion region) := by
  rcases h : op.placement.lowLatencyRegion? with _ | id
  · rw [mapPlacement, Placement.joinLowLatencyRegion,
      show op.config.placement.lowLatencyRegion? = none from h]
    exact { Prepared.refl op with lowLatencyRegion := fun hne => absurd h hne }
  · rw [mapPlacement, Placement.joinLowLatencyRegion,
      show op.config.placement.lowLatencyRegion? = some id from h]
    exact .refl op

theorem prepared_resolved (op : Operator) : op.Prepared (op.mapPlacement Colocation.resolved) :=
  { Prepared.refl op with }

theorem prepared_autonomous (op : Operator) : op.Prepared { op with autonomous := true } :=
  { Prepared.refl op with autonomous := fun _ => rfl }

theorem prepared_drop (functional : Bool) (op : Operator) :
    op.Prepared (ThreadedPorts.drop functional op) := by
  refine { Prepared.refl op with core := ?_, requests := ?_, parameters := ?_, queue := Or.inl rfl }
  · simp [core, ThreadedPorts.drop, InputPort.core, Function.comp_def]
  · exact List.forall₂_map_right_iff.mpr (List.forall₂_same.mpr fun _ _ => Or.inr rfl)
  · rw [ThreadedPorts.drop]
    split
    · exact op.parameters.prepared_erase
    · exact .refl _

theorem prepared_configure {port : InputPort} (h : op.inputs = [port]) :
    op.Prepared (ThreadedPorts.configure port op) := by
  refine { Prepared.refl op with queue := ?_ }
  rw [ThreadedPorts.configure]
  rcases hqueue : op.config.queue with _ | q
  · exact Or.inr ⟨rfl, port, by rw [h]; rfl, rfl⟩
  · exact Or.inl rfl

theorem prepared_annotate (entries : List Int) (op : Operator) :
    op.Prepared { op with
      parameters := op.parameters.insert parameterName (parameterOf entries) } :=
  { Prepared.refl op with parameters := op.parameters.prepared_insert entries }

end Operator

/-! ### Graphs before and after -/

namespace Graph

variable {g g' g'' t : Graph} {ms ms' : List Marker} {m : Marker} {x : Handle} {op op' : Operator}
  {ids : List Handle}

/-- `g'` has the operators of `g`, prepared. -/
structure Tuned (g g' : Graph) : Prop where
  wellFormed : g.WellFormed → g'.WellFormed
  settings : g'.settings = g.settings
  order : g'.order = g.order
  kept : ∀ x a, g.get? x = some a → ∃ b, g'.get? x = some b ∧ a.Prepared b

/-- `g'` has the operators of `g` that are no markers of some kinds, in their order and prepared. -/
structure Framed (g : Graph) (ms : List Marker) (g' : Graph) : Prop where
  wellFormed : g'.WellFormed
  settings : g'.settings = g.settings
  order : g'.order = g.order.filter fun x => ¬ g.Marked ms x
  kept : ∀ x ∈ g'.order, ∃ a b, g.get? x = some a ∧ g'.get? x = some b ∧ a.Prepared b

theorem Tuned.refl (g : Graph) : g.Tuned g := ⟨id, rfl, rfl, fun _ a ha => ⟨a, ha, .refl a⟩⟩

theorem Tuned.trans (h : g.Tuned g') (h' : g'.Tuned g'') : g.Tuned g'' := by
  refine ⟨h'.wellFormed ∘ h.wellFormed, h'.settings.trans h.settings, h'.order.trans h.order,
    fun x a ha => ?_⟩
  obtain ⟨b, hb, hab⟩ := h.kept x a ha
  obtain ⟨c, hc, hbc⟩ := h'.kept x b hb
  exact ⟨c, hc, hab.trans hbc⟩

instance : Std.Refl Tuned := ⟨.refl⟩

instance : IsTrans Graph Tuned := ⟨fun _ _ _ => .trans⟩

theorem tuned_set (hop : g.get? x = some op) (h : op.Prepared op') : g.Tuned (g.set x op') := by
  have hset : g.set x op' = g.mapAt [x] fun _ => op' := set_eq_mapAt (f := fun _ => op') hop
  refine ⟨fun hg => hset ▸ hg.mapAt _ _, rfl, rfl, fun y a ha => ?_⟩
  rw [get?_set (contains_iff.mpr ⟨op, hop⟩)]
  by_cases hy : y = x
  · rw [hy, hop] at ha
    rw [if_pos hy, ← Option.some.inj ha]
    exact ⟨op', rfl, h⟩
  · rw [if_neg hy]
    exact ⟨a, ha, .refl a⟩

/-- A function that makes prepared operators. -/
theorem tuned_writes {f : Operator → Operator} (hf : ∀ op : Operator, op.Prepared (f op)) :
    Writes Tuned f :=
  fun _ _ op hop => tuned_set hop (hf op)

/-- A frame leaves as many operators as are no markers. -/
theorem Framed.size (h : g.Framed ms g') :
    g'.size + g.order.countP (fun x => g.Marked ms x) = g.size := by
  rw [Graph.size, h.order, ← List.countP_eq_length_filter, Graph.size,
    List.length_eq_countP_add_countP (fun x => decide (g.Marked ms x)), Nat.add_comm]
  simp

theorem Framed.marker? (h : g.Framed ms g') (hx : x ∈ g'.order) : g'.marker? x = g.marker? x := by
  obtain ⟨a, b, ha, hb, hab⟩ := h.kept x hx
  refine marker?_congr ?_
  rw [ha, hb, Option.map_some, Option.map_some, hab.kind]

theorem Framed.trans (h : g.Framed ms g') (h' : g'.Framed ms' g'') : g.Framed (ms ++ ms') g'' := by
  refine ⟨h'.wellFormed, h'.settings.trans h.settings, ?_, fun x hx => ?_⟩
  · rw [h'.order, h.order, List.filter_filter]
    refine List.filter_congr fun x hx => ?_
    by_cases hmarked : g.Marked ms x
    · have : g.Marked (ms ++ ms') x := by
        obtain ⟨m, hm, hkind⟩ := hmarked
        exact ⟨m, List.mem_append_left _ hm, hkind⟩
      simp [hmarked, this]
    · have hx' : x ∈ g'.order := by
        rw [h.order]
        exact List.mem_filter.mpr ⟨hx, decide_eq_true hmarked⟩
      have hiff : g.Marked (ms ++ ms') x ↔ g'.Marked ms' x := by
        rw [Marked, Marked, h.marker? hx']
        constructor
        · rintro ⟨m, hm, hkind⟩
          exact ⟨m, (List.mem_append.mp hm).resolve_left fun hm => hmarked ⟨m, hm, hkind⟩, hkind⟩
        · rintro ⟨m, hm, hkind⟩
          exact ⟨m, List.mem_append_right _ hm, hkind⟩
      simp [hmarked, hiff]
  · obtain ⟨b, c, hb, hc, hbc⟩ := h'.kept x hx
    have hx' : x ∈ g'.order := by
      rw [h'.order] at hx
      exact List.mem_of_mem_filter hx
    obtain ⟨a, b', ha, hb', hab⟩ := h.kept x hx'
    obtain rfl := Option.some.inj (hb.symm.trans hb')
    exact ⟨a, c, ha, hc, hab.trans hbc⟩

/-- Writing takes out nothing. -/
theorem Tuned.framed (hg : g.WellFormed) (h : g.Tuned g') : g.Framed [] g' := by
  refine ⟨h.wellFormed hg, h.settings, ?_, fun x hx => ?_⟩
  · rw [h.order, eq_comm, List.filter_eq_self]
    intro x _
    simp [Marked]
  · obtain ⟨a, ha⟩ := hg.mem_order_iff.mp (h.order ▸ hx)
    obtain ⟨b, hb, hab⟩ := h.kept x a ha
    exact ⟨a, b, ha, hb, hab⟩

/-- Writing and then taking out all markers of some kinds. -/
theorem Tuned.framed_removeAll (hg : g.WellFormed) (h : g.Tuned t)
    (hids : ∀ x, x ∈ ids ↔ g.Marked ms x) (hnodup : ids.Nodup)
    (hrun : Yields (Rewiring.removeAll ids) t ⟨⟩ g') :
    g.Framed ms g' ∧ g'.size + ids.length = g.size := by
  have hcleared := removeAll_cleared (h.wellFormed hg) hnodup hrun
  have hframed : g.Framed ms g' := by
    refine ⟨hcleared.wellFormed, hcleared.settings.trans h.settings, ?_, fun x hx => ?_⟩
    · rw [hcleared.order, h.order]
      exact List.filter_congr fun x _ => by simp only [hids]
    · rw [hcleared.order, h.order, List.mem_filter, decide_eq_true_eq] at hx
      obtain ⟨a, ha⟩ := hg.mem_order_iff.mp hx.1
      obtain ⟨b, hb, hab⟩ := h.kept x a ha
      obtain ⟨c, hc, hsame⟩ := exists_of_disconnected (hcleared.kept x hx.2).symm hb
      exact ⟨a, c, ha, hc, hab.trans (Operator.prepared_of_disconnected hsame)⟩
  refine ⟨hframed, ?_⟩
  have hcount : ids.length = g.order.countP fun x => g.Marked ms x := by
    rw [List.countP_eq_length_filter]
    refine ((List.perm_ext_iff_of_nodup hnodup (hg.order_nodup.filter _)).mpr fun x => ?_).length_eq
    rw [hids, List.mem_filter, decide_eq_true_eq]
    refine ⟨fun hx => ⟨?_, hx⟩, fun hx => hx.2⟩
    obtain ⟨m, _, hm⟩ := hx
    obtain ⟨op, hop, _⟩ := marker?_eq_some.mp hm
    exact hg.mem_order_iff.mpr ⟨op, hop⟩
  rw [hcount]
  exact hframed.size

end Graph

/-! ### The passes -/

section

variable {g g' : Graph} {w w' : Workspace} {n : Nat} {m : Marker}

theorem removeKind_framed (hg : g.WellFormed) (hrun : Yields (Preparation.removeKind m) g n g') :
    g.Framed [m] g' ∧ g'.size + n = g.size := by
  obtain ⟨hremove, rfl⟩ := removeKind_stages hrun
  refine (Graph.Tuned.refl g).framed_removeAll hg (fun x => ?_) (Graph.findAll_nodup hg) hremove
  simp [Graph.mem_markers hg, Graph.Marked]

theorem isolation_framed (hg : w.graph.WellFormed) (hrun : Yields Isolation.run w n w') :
    w.graph.Framed [.isolate] w'.graph ∧ w'.graph.size + n = w.graph.size := by
  obtain ⟨t, hwrites, hremove, rfl⟩ := isolation_stages hrun
  have htuned : w.graph.Tuned t := hwrites Graph.Tuned fun region =>
    Graph.tuned_writes (Operator.prepared_joinIsolateRegion region)
  refine htuned.framed_removeAll hg (fun x => ?_) (Graph.findAll_nodup hg) hremove
  simp [Graph.mem_markers hg, Graph.Marked]

theorem lowLatency_framed (hg : w.graph.WellFormed) (hrun : Yields LowLatency.run w n w') :
    w.graph.Framed [.lowLatency, .endLowLatency] w'.graph ∧
      w'.graph.size + n = w.graph.size := by
  obtain ⟨t, hwrites, hremove, rfl⟩ := lowLatency_stages hrun
  have htuned : w.graph.Tuned t := hwrites Graph.Tuned fun region =>
    Graph.tuned_writes (Operator.prepared_joinLowLatencyRegion region)
  refine htuned.framed_removeAll hg (fun x => ?_) (lowLatencyMarkers_nodup hg) hremove
  simp [Graph.mem_markers hg, Graph.Marked, or_comm]

theorem autonomous_framed (hg : g.WellFormed) (hrun : Yields Autonomous.run g n g') :
    g.Framed [.autonomous] g' ∧ g'.size + n = g.size := by
  obtain ⟨t, hwrites, hremove, rfl⟩ := autonomous_stages hrun
  have htuned : g.Tuned t := hwrites Graph.Tuned (Graph.tuned_writes Operator.prepared_autonomous)
  refine htuned.framed_removeAll hg (fun x => ?_) (Graph.findAll_nodup hg) hremove
  simp [Graph.mem_markers hg, Graph.Marked]

theorem tuned_threadedPorts : Confined Graph.Tuned ThreadedPorts.run :=
  confined_threadedPorts
    (fun functional => Graph.tuned_writes (Operator.prepared_drop functional))
    fun _ _ _ _ hop hport => Graph.tuned_set hop (Operator.prepared_configure hport)

theorem tuned_colocation : Confined Graph.Tuned Colocation.run :=
  confined_colocation (Graph.tuned_writes Operator.prepared_resolved)

theorem tuned_passByReference : Confined Graph.Tuned PassByReference.run :=
  confined_passByReference fun entries => Graph.tuned_writes (Operator.prepared_annotate entries)

end

namespace Preparation

variable {w w' : Workspace} {stats : Stats}

/-- **After the hash adders have been moved,** a run takes out the markers that are consumed, says
how many, and prepares the other operators. -/
theorem run_stages_framed (hrun : Yields run w stats w') :
    ∃ g, Yields HashAdders.relocate w.graph stats.hashAddersRelocated g ∧
      (g.WellFormed → g.Framed Marker.consumed w'.graph ∧
        w'.graph.size + stats.markersRemoved = g.size) := by
  obtain ⟨_, w₁, w₂, w₃, g₄, g₅, g₆, g₇, g₈, _, _, _, _, _, _, hrelocate, hisolation,
    hlowLatency, hthreaded, hunion, hpending, hautonomous, hcolocation, hreference, hremoved⟩ :=
    run_passes hrun
  refine ⟨w₁.graph, hrelocate, fun hg => ?_⟩
  obtain ⟨h₂, hn₂⟩ := isolation_framed hg hisolation
  obtain ⟨h₃, hn₃⟩ := lowLatency_framed h₂.wellFormed hlowLatency
  have ht₄ := tuned_threadedPorts _ _ _ hthreaded
  have h₄ := ht₄.framed h₃.wellFormed
  obtain ⟨h₅, hn₅⟩ := removeKind_framed h₄.wellFormed hunion
  obtain ⟨h₆, hn₆⟩ := removeKind_framed h₅.wellFormed hpending
  obtain ⟨h₇, hn₇⟩ := autonomous_framed h₆.wellFormed hautonomous
  have ht₉ := (tuned_colocation _ _ _ hcolocation).trans (tuned_passByReference _ _ _ hreference)
  have h₉ := ht₉.framed h₇.wellFormed
  refine ⟨h₂.trans (h₃.trans (h₄.trans (h₅.trans (h₆.trans (h₇.trans h₉))))), ?_⟩
  have hn₄ : g₄.size = w₃.graph.size := congrArg List.length ht₄.order
  have hn₉ : w'.graph.size = g₇.size := congrArg List.length ht₉.order
  omega

/-- **The frame of preparation.** On a graph without hash adders, a run that succeeds leaves exactly
the operators that are no markers of a consumed kind, in their order, and of each of them everything
but what `Operator.Prepared` names; the settings of the graph stay as well. -/
theorem run_framed (hg : w.graph.WellFormed)
    (hadders : ∀ x op, w.graph.get? x = some op → op.isHashAdder = false)
    (hrun : Yields run w stats w') : w.graph.Framed Marker.consumed w'.graph := by
  obtain ⟨g, hrelocate, hframed⟩ := run_stages_framed hrun
  obtain rfl := HashAdders.relocate_of_adderless hg hadders hrelocate
  exact (hframed hg).1

/-- A union and a parallel region in a row. The operator in the region asks for a thread, and the
last operator comes with a region of its own. -/
def markedChain : Graph := Graph.reindexed
  { name := "markedChain"
    slots := [
      some { name := "s", kind := "Beacon"
             outputs := [{ name := "so", connections := ["ui"] }] },
      some { name := "u", kind := "$Union$"
             inputs := [{ name := "ui", connections := ["so"] }]
             outputs := [{ name := "uo", connections := ["pi"] }] },
      some { name := "p", kind := "$Parallel$"
             inputs := [{ name := "pi", connections := ["uo"] }]
             outputs := [{ name := "po", connections := ["ai"], width := some (.fixed 2) }] },
      some { name := "a", kind := "Custom"
             inputs := [{ name := "ai", connections := ["po"], queue := some {} }]
             outputs := [{ name := "ao", connections := ["ei"] }] },
      some { name := "e", kind := "$EndParallel$"
             inputs := [{ name := "ei", connections := ["ao"] }]
             outputs := [{ name := "eo", connections := ["ti"] }] },
      some { name := "t", kind := "Custom"
             inputs := [{ name := "ti", connections := ["eo"] }]
             config := { placement := { isolateRegionId := some "own" } } }]
    order := (List.range 6).map Handle.mk }

/-- The order in which walks visit that graph. -/
def markedChainVisits : List Handle := (List.range 6).map Handle.mk

/-- The graph with regions. -/
def markedChainJoined : Graph :=
  markedChain.mapAt markedChainVisits (Operator.joined (isolateRegionName 0))

/-- The graph with a queue for the request. -/
def markedChainSettled : Graph :=
  ((markedChainVisits.mapM ThreadedPorts.settle).run.run markedChainJoined).2

/-- The graph after preparation. -/
def markedChainPrepared : Graph :=
  ((removeKind .union *> Colocation.run *> PassByReference.run).run.run markedChainSettled).2

theorem markedChain_ofDescription :
    Graph.ofDescription markedChain.toDescription = .ok markedChain := by decide

theorem markedChain_isolation : Yields Isolation.run { graph := markedChain } 0
    { graph := markedChainJoined, counters := { isolate := 1 } } := by
  have hwalk : markedChain.walk Isolation.bounds [⟨0⟩] = markedChainVisits :=
    Graph.walkFrom_of_within (n := 6) (by decide)
  have hrun : Yields Isolation.run { graph := markedChain } 0 _ :=
    Isolation.yields_run_of_island (.ofDescription markedChain_ofDescription) (by decide)
      (show markedChain.sources = [⟨0⟩] by decide) rfl rfl
  rw [hwalk] at hrun
  exact hrun

theorem markedChain_threadedPorts :
    Yields ThreadedPorts.run markedChainJoined 0 markedChainSettled := by
  have hwalk : markedChainJoined.walk (Bounds.around []) markedChainJoined.sources =
      markedChainVisits :=
    Graph.walkFrom_of_within (n := 6) (by decide)
  rw [ThreadedPorts.run, yields_get_bind, hwalk]
  exact yields_bind.mpr ⟨List.replicate 6 false, markedChainSettled, by decide, rfl⟩

theorem markedChain_prepare : Yields run { graph := markedChain } ⟨0, 1, 0, 0⟩
    { graph := markedChainPrepared, counters := { isolate := 1 } } := by
  rw [run, yields_get_bind]
  simp only [yields_bind, yields_pure, yields_liftM]
  exact ⟨_, _, ⟨rfl, rfl⟩, _, _, rfl, _, _, markedChain_isolation, _, _, rfl, _, _,
    yields_onGraph.mpr ⟨_, markedChain_threadedPorts, rfl⟩, _, _, rfl, _, _, rfl, _, _, rfl, _, _,
    rfl, _, _, rfl, rfl, rfl⟩

theorem run_framed_markedChain :
    markedChain.WellFormed ∧
      (∀ x op, markedChain.get? x = some op → op.isHashAdder = false) ∧
      Yields run { graph := markedChain } ⟨0, 1, 0, 0⟩
        { graph := markedChainPrepared, counters := { isolate := 1 } } ∧
      markedChain.Framed Marker.consumed markedChainPrepared := by
  have hg : markedChain.WellFormed := .ofDescription markedChain_ofDescription
  have hadders : ∀ x op, markedChain.get? x = some op → op.isHashAdder = false := by
    intro x op hop
    have hall : ∀ x ∈ markedChain.order, ∀ op ∈ markedChain.get? x, op.isHashAdder = false := by
      decide
    exact hall x (hg.mem_order_iff.mpr ⟨op, hop⟩) op hop
  exact ⟨hg, hadders, markedChain_prepare,
    run_framed (w := { graph := markedChain }) hg hadders markedChain_prepare⟩

end Preparation

end StreamTopology
