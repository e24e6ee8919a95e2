import StreamTopology.Passes.Preparation
import StreamTopology.Proofs.Graph.Soundness
import StreamTopology.Proofs.Regions.Counters
import Mathlib.Order.RelClasses

/-!
# What the passes write

A pass looks at operators, overwrites some of them, and takes others out. Whatever it decides, a
relation between graphs that holds for each overwriting and for each removal holds between the graph
before the pass and the graph after it. Each pass is read once for that, from top to bottom, and for
any relation that is reflexive and transitive.

## Main definitions

* `Writes`: overwriting operators by a function is a step of a relation.
* `Graph.Guarded`: a relation between well-formed graphs.

## Main results

* `leaves_visit`, `leaves_interposeAbove`: visits, and routing streams through another operator,
  also where they fail halfway.
* `confined_isolation`, `confined_lowLatency`, `confined_threadedPorts`, `confined_removeKind`,
  `confined_autonomous`, `confined_colocation`, `confined_passByReference`: the passes.
* `isolation_stages`, `lowLatency_stages`, `autonomous_stages`, `removeKind_stages`: what a pass
  writes, and then which markers it takes out.
-/

namespace StreamTopology

/-- Overwriting an operator by what `f` makes of it is a step of the relation. -/
def Writes (R : Graph → Graph → Prop) (f : Operator → Operator) : Prop :=
  ∀ g x op, g.get? x = some op → R g (g.set x (f op))

/-- The relation holds if the first graph is well formed, and then the second one is as well. -/
def Graph.Guarded (R : Graph → Graph → Prop) (g g' : Graph) : Prop :=
  g.WellFormed → g'.WellFormed ∧ R g g'

variable {R : Graph → Graph → Prop} {α : Type} {x : Handle} {xs : List Handle} {b : Bounds}
  {f : Operator → Operator}

instance [Std.Refl R] : Std.Refl (Graph.Guarded R) := ⟨fun g hg => ⟨hg, Std.Refl.refl g⟩⟩

instance [IsTrans Graph R] : IsTrans Graph (Graph.Guarded R) :=
  ⟨fun g t g' h h' hg =>
    ⟨(h' (h hg).1).1, IsTrans.trans g t g' (h hg).2 (h' (h hg).1).2⟩⟩

/-! ### Single steps -/

theorem confined_update (hf : Writes R f) : Confined R (GraphM.update x f) := by
  intro g u g' h
  obtain ⟨op, hop, rfl⟩ := yields_update.mp h
  exact hf g x op hop

theorem confined_onGraph {action : GraphM α} (h : Confined R action) :
    Confined (Order.Preimage Workspace.graph R) (RegionM.onGraph action) :=
  fun w a w' hrun => h w.graph a w'.graph hrun.of_onGraph

variable [Std.Refl R]

theorem confined_lookup : Confined R (GraphM.lookup x) := by
  intro g op g' h
  obtain ⟨_, rfl⟩ := yields_lookup.mp h
  exact Std.Refl.refl g'

theorem leaves_lookup : Leaves R (GraphM.lookup x) :=
  leaves_of_ends fun g => ends_lookup (fun _ _ => Std.Refl.refl g) fun _ => Std.Refl.refl g

theorem leaves_update (hf : Writes R f) : Leaves R (GraphM.update x f) :=
  leaves_of_ends fun g => ends_lookup_bind (fun op hop => ends_modify (hf g x op hop))
    fun _ => Std.Refl.refl g

theorem confined_freshIsolateRegion :
    Confined (Order.Preimage Workspace.graph R) RegionM.freshIsolateRegion := by
  intro w r w' h
  obtain ⟨_, rfl⟩ := yields_freshIsolateRegion.mp h
  exact Std.Refl.refl (r := R) w.graph

theorem confined_freshLowLatencyRegion :
    Confined (Order.Preimage Workspace.graph R) RegionM.freshLowLatencyRegion := by
  intro w r w' h
  obtain ⟨_, rfl⟩ := yields_freshLowLatencyRegion.mp h
  exact Std.Refl.refl (r := R) w.graph

variable [IsTrans Graph R]

theorem leaves_visit {visitor : Handle → GraphM Unit} (h : ∀ x, Leaves R (visitor x)) :
    Leaves R (GraphM.visit b xs visitor) :=
  leaves_get_bind fun _ => leaves_forM fun x _ => h x

/-! ### Routing -/

section

variable (hports : ∀ f : Operator → Operator,
  (∀ op, (f op).config = op.config ∧ (f op).kind = op.kind) → Writes R f)

include hports

theorem leaves_routePorts {parent child added : Handle} {addIn addOut outName inName : String}
    {i j : Nat} :
    Leaves R (Rewiring.routePorts parent child added addIn addOut i outName j inName) := by
  refine leaves_bind leaves_lookup fun producer => leaves_bind leaves_lookup fun consumer => ?_
  dsimp only
  split
  · exact leaves_bind (leaves_update (hports _ fun _ => ⟨rfl, rfl⟩)) fun _ =>
      leaves_bind (leaves_update (hports _ fun _ => ⟨rfl, rfl⟩)) fun _ =>
        leaves_update (hports _ fun _ => ⟨rfl, rfl⟩)
  · exact leaves_pure _

/-- Routing streams through another operator writes ports only, and rebuilds the index. -/
theorem leaves_interposeAbove (hindex : ∀ g : Graph, R g g.reindexed) {id added : Handle} :
    Leaves R (Rewiring.interposeAbove id added) := by
  refine leaves_get_bind fun _ => leaves_forM fun parent _ => leaves_bind leaves_lookup fun op => ?_
  rcases op.inputs.head? with _ | addIn
  · exact leaves_throw _
  rcases op.outputs.head? with _ | addOut
  · exact leaves_throw _
  refine leaves_bind leaves_lookup fun producer => leaves_bind leaves_lookup fun consumer => ?_
  exact leaves_bind (leaves_forM fun _ _ => leaves_forM fun _ _ => leaves_routePorts hports)
    fun _ g => hindex g

end

/-! ### Annotations -/

theorem leaves_isolation_check (marker : Handle) : Leaves R (Isolation.check marker) := by
  unfold Isolation.check
  refine leaves_get_bind fun g => leaves_bind (leaves_mapM fun _ _ => leaves_lookup)
    fun producers => ?_
  dsimp only
  split
  · exact leaves_bind (leaves_throw _) fun _ => leaves_reject _ _
  · exact leaves_reject _ _

section

variable (hjoin : ∀ region, Writes R (Operator.mapPlacement fun p => p.joinIsolateRegion region))

include hjoin

theorem confined_isolation_assign (starts : List Handle) :
    Confined (Order.Preimage Workspace.graph R) (Isolation.assign starts) :=
  confined_bind confined_freshIsolateRegion fun region =>
    confined_onGraph (leaves_visit fun _ => leaves_update (hjoin region)).confined

theorem confined_islands :
    Confined (Order.Preimage Workspace.graph R) Isolation.assignIslands := by
  refine confined_get_bind fun w => confined_forM fun start _ =>
    confined_bind (confined_onGraph confined_lookup) fun op => ?_
  split
  · exact confined_isolation_assign hjoin _
  · exact confined_pure _

end

theorem confined_lowLatency_assign
    (hjoin : ∀ region, Writes R (Operator.mapPlacement fun p => p.joinLowLatencyRegion region))
    (marker : Handle) : Confined (Order.Preimage Workspace.graph R) (LowLatency.assign marker) :=
  confined_bind confined_freshLowLatencyRegion fun region => confined_get_bind fun _ =>
    confined_onGraph (leaves_visit fun _ => leaves_update (hjoin region)).confined

/-- What settling a request consists of: nothing, dropping it, or a queue at the only input port. -/
theorem yields_settle {g g' : Graph} {dropped : Bool}
    (h : Yields (ThreadedPorts.settle x) g dropped g') :
    g' = g ∨ ∃ op port, g.get? x = some op ∧ op.inputs = [port] ∧
      ((∃ functional, g' = g.set x (ThreadedPorts.drop functional op)) ∨
        g' = g.set x (ThreadedPorts.configure port op)) := by
  rw [ThreadedPorts.settle, yields_bind] at h
  obtain ⟨op, t, hlookup, h⟩ := h
  obtain ⟨hop, rfl⟩ := yields_lookup.mp hlookup
  -- a write is of the operator that was looked up
  have hwrite : ∀ {f : Operator → Operator} {b : Bool},
      Yields (do GraphM.update x f; pure b) t dropped g' → g' = t.set x (f op) := by
    intro f b hrun
    obtain ⟨_, _, hupdate, hpure⟩ := yields_bind.mp hrun
    obtain ⟨_, rfl⟩ := yields_pure.mp hpure
    obtain ⟨op', hop', hset⟩ := yields_update.mp hupdate
    rwa [Option.some.inj (hop.symm.trans hop')]
  split at h
  next port hport =>
    split at h
    · exact Or.inl (yields_pure.mp h).2
    · rw [yields_get_bind, yields_bind] at h
      obtain ⟨parents, _, hparents, h⟩ := h
      obtain ⟨_, rfl⟩ := yields_mapM_lookup.mp hparents
      split at h
      · exact Or.inr ⟨op, port, hop, hport, Or.inl ⟨_, hwrite h⟩⟩
      · dsimp only at h
        split at h
        · exact Or.inr ⟨op, port, hop, hport, Or.inr (hwrite h)⟩
        · exact Or.inl (yields_pure.mp h).2
  next => exact Or.inl (yields_pure.mp h).2

theorem confined_threadedPorts (hdrop : ∀ functional, Writes R (ThreadedPorts.drop functional))
    (hqueue : ∀ g x op port, g.get? x = some op → op.inputs = [port] →
      R g (g.set x (ThreadedPorts.configure port op))) : Confined R ThreadedPorts.run := by
  refine confined_get_bind fun g => confined_bind (confined_mapM fun x _ => ?_)
    fun dropped => confined_pure _
  intro g b g' h
  rcases yields_settle h with rfl | ⟨op, port, hop, hport, ⟨functional, rfl⟩ | rfl⟩
  · exact Std.Refl.refl g'
  · exact hdrop functional g x op hop
  · exact hqueue g x op port hop hport

/-- The children of autonomous markers are flagged. -/
theorem confined_flags (hflag : Writes R fun op => { op with autonomous := true })
    (markers : List Handle) :
    Confined R (markers.forM fun marker => do
      ((← get).children marker).forM fun child =>
        GraphM.update child fun op => { op with autonomous := true }) :=
  confined_forM fun _ _ => confined_get_bind fun _ => confined_forM fun _ _ =>
    confined_update hflag

theorem confined_colocation (hkey : Writes R (Operator.mapPlacement Colocation.resolved)) :
    Confined R Colocation.run :=
  confined_get_bind fun _ => confined_bind
    (confined_mapM fun _ _ => confined_bind (confined_update hkey) fun _ =>
      confined_bind confined_lookup fun _ => confined_pure _)
    fun _ => confined_pure _

theorem confined_passByReference
    (hentries : ∀ entries, Writes R fun op =>
      { op with
        parameters := op.parameters.insert PassByReference.parameterName
          (PassByReference.parameterOf entries) }) :
    Confined R PassByReference.run := by
  refine confined_get_bind fun g => confined_bind (confined_mapM fun x _ => ?_)
    fun changed => confined_pure _
  refine confined_bind confined_lookup fun op => ?_
  split
  · refine confined_get_bind fun g =>
      confined_bind (confined_mapM fun _ _ => confined_lookup) fun consumers => ?_
    dsimp only
    split
    · exact confined_pure _
    · exact confined_bind (confined_update (hentries _)) fun _ => confined_pure _
  · exact confined_pure _

/-! ### Passes that take out markers

These passes first write, and then take out markers that were listed before. -/

section

variable {w w' : Workspace} {g g' : Graph} {n : Nat}

theorem removeKind_stages {m : Marker} (h : Yields (Preparation.removeKind m) g n g') :
    Yields (Rewiring.removeAll (g.markers m)) g ⟨⟩ g' ∧ n = (g.markers m).length := by
  rw [Preparation.removeKind, yields_get_bind, yields_bind] at h
  obtain ⟨_, t, hremove, h⟩ := h
  obtain ⟨rfl, rfl⟩ := yields_pure.mp h
  exact ⟨hremove, rfl⟩

theorem isolation_stages (h : Yields Isolation.run w n w') :
    ∃ t, (∀ R : Graph → Graph → Prop, ∀ [Std.Refl R] [IsTrans Graph R],
        (∀ region, Writes R (Operator.mapPlacement fun p => p.joinIsolateRegion region)) →
          R w.graph t) ∧
      Yields (Rewiring.removeAll (w.graph.markers .isolate)) t ⟨⟩ w'.graph ∧
      n = (w.graph.markers .isolate).length := by
  rw [Isolation.run, yields_get_bind] at h
  simp only [yields_bind, yields_pure, yields_onGraph] at h
  obtain ⟨_, t₁, hcheck, _, t₂, hassign, _, t₃, hislands, _, _, ⟨g', hremove, rfl⟩, rfl, rfl⟩ := h
  refine ⟨t₃.graph, fun R _ _ hjoin => ?_, hremove, rfl⟩
  have h₁ : R w.graph t₁.graph :=
    confined_forM (fun _ _ => confined_onGraph (leaves_isolation_check _).confined) _ _ _ hcheck
  have h₂ : R t₁.graph t₂.graph :=
    confined_forM (fun _ _ => confined_get_bind fun _ =>
      confined_bind (confined_isolation_assign hjoin _) fun _ => confined_get_bind fun _ =>
        confined_isolation_assign hjoin _) _ _ _ hassign
  have h₃ : R t₂.graph t₃.graph := confined_islands hjoin _ _ _ hislands
  exact IsTrans.trans _ _ _ (IsTrans.trans _ _ _ h₁ h₂) h₃

theorem lowLatency_stages (h : Yields LowLatency.run w n w') :
    ∃ t, (∀ R : Graph → Graph → Prop, ∀ [Std.Refl R] [IsTrans Graph R],
        (∀ region, Writes R (Operator.mapPlacement fun p => p.joinLowLatencyRegion region)) →
          R w.graph t) ∧
      Yields (Rewiring.removeAll (w.graph.markers .endLowLatency ++ w.graph.markers .lowLatency)) t
        ⟨⟩ w'.graph ∧
      n = (w.graph.markers .endLowLatency ++ w.graph.markers .lowLatency).length := by
  rw [LowLatency.run, yields_get_bind] at h
  simp only [yields_bind, yields_pure, yields_onGraph] at h
  obtain ⟨_, t, hassign, _, _, ⟨g', hremove, rfl⟩, rfl, rfl⟩ := h
  exact ⟨t.graph, fun R _ _ hjoin => confined_forM
    (fun _ _ => confined_lowLatency_assign hjoin _) _ _ _ hassign, hremove, rfl⟩

theorem autonomous_stages (h : Yields Autonomous.run g n g') :
    ∃ t, (∀ R : Graph → Graph → Prop, ∀ [Std.Refl R] [IsTrans Graph R],
        (Writes R fun op => { op with autonomous := true }) → R g t) ∧
      Yields (Rewiring.removeAll (g.markers .autonomous)) t ⟨⟩ g' ∧
      n = (g.markers .autonomous).length := by
  rw [Autonomous.run, yields_get_bind] at h
  obtain ⟨_, t, hflags, h⟩ := yields_bind.mp h
  simp only [yields_bind, yields_pure] at h
  obtain ⟨_, _, hremove, rfl, rfl⟩ := h
  exact ⟨t, fun R _ _ hflag => confined_flags hflag _ _ _ _ hflags, hremove, rfl⟩

end

section

variable (hremove : ∀ x, Confined R (Rewiring.remove x))

include hremove

theorem confined_removeAll : Confined R (Rewiring.removeAll xs) :=
  confined_forM fun x _ => hremove x

theorem confined_removeKind (m : Marker) : Confined R (Preparation.removeKind m) :=
  fun _ _ _ h => confined_removeAll hremove _ _ _ (removeKind_stages h).1

theorem confined_isolation
    (hjoin : ∀ region, Writes R (Operator.mapPlacement fun p => p.joinIsolateRegion region)) :
    Confined (Order.Preimage Workspace.graph R) Isolation.run := by
  intro w n w' h
  obtain ⟨t, hwrites, hrest, _⟩ := isolation_stages h
  exact IsTrans.trans _ t _ (hwrites R hjoin) (confined_removeAll hremove _ _ _ hrest)

theorem confined_lowLatency
    (hjoin : ∀ region, Writes R (Operator.mapPlacement fun p => p.joinLowLatencyRegion region)) :
    Confined (Order.Preimage Workspace.graph R) LowLatency.run := by
  intro w n w' h
  obtain ⟨t, hwrites, hrest, _⟩ := lowLatency_stages h
  exact IsTrans.trans _ t _ (hwrites R hjoin) (confined_removeAll hremove _ _ _ hrest)

theorem confined_autonomous (hflag : Writes R fun op => { op with autonomous := true }) :
    Confined R Autonomous.run := by
  intro g n g' h
  obtain ⟨t, hwrites, hrest, _⟩ := autonomous_stages h
  exact IsTrans.trans _ t _ (hwrites R hflag) (confined_removeAll hremove _ _ _ hrest)

end

end StreamTopology
