import StreamTopology.Proofs.Composite.Plan
import StreamTopology.Proofs.Graph.Arena
import StreamTopology.Composite.Separation
import Mathlib.Data.List.Forall2

/-!
# How the composites are filled

A separation works through a plan and, on the way, renames streams in the graph and completes what
it has finished before. None of that touches what a composite consists of: the kinds, the widths
and the input ports of operators stay, up to the names of the streams they read, and a composite
that is completed keeps its members up to their outputs and parameters.

So a filled plan can be compared with its members, one by one, once it is known which position each
region takes. The composites are finished in the order of `Plan.inner`, and each takes the next
position.

## Main definitions

* `Separation.Invokes`: an invocation is the one that a marker calls for.
* `Separation.Filled`: the members of a composite are those of its plan.

## Main results

* `Separation.yields_openRegion`, `Separation.yields_leaveRegion`: what happens at the two ends of a
  region.
* `Separation.fill_filled`: what filling a plan appends.
* `Separation.separate_renamed`: what a separation changes in the graph.
* `Separation.yields_separate`: when a separation succeeds.
-/

namespace StreamTopology

/-! ### What stays -/

/-- The port without its connections. -/
def InputPort.cut (p : InputPort) : InputPort := { p with connections := [] }

/-- The port without its name. -/
def OutputPort.unnamed (p : OutputPort) : OutputPort := { p with name := "" }

/-- The port without its schema. -/
def OutputPort.schemaless (p : OutputPort) : OutputPort := { p with schema := "" }

/-- The operator without the names of the streams that it reads and feeds. -/
def Operator.unstreamed (op : Operator) : Operator :=
  { op with inputs := op.inputs.map InputPort.cut, outputs := op.outputs.map OutputPort.unnamed }

/-- The invocation without what is added when its region ends. -/
def Operator.opening (op : Operator) : Operator := { op with outputs := [], parameters := {} }

/-- The member without what is added when its region ends. -/
def Member.opening : Member → Member
  | .node id => .node id
  | .invocation op k => .invocation op.opening k

namespace Separation

open StreamTopology.Graph

variable {g g' g'' : Graph} {s s' : Separation} {p x : Handle} {op op' : Operator} {u : PUnit}
  {k number : Nat} {c : Composite} {values : SubmissionValues} {P : Plan} {ms ms' : List Member}
  {home : Handle → Nat} {f : Operator → Operator} {ids : List Handle}

/-- Only names of streams have changed. -/
def Renamed (g g' : Graph) : Prop :=
  ∀ x, (g'.get? x).map Operator.unstreamed = (g.get? x).map Operator.unstreamed

theorem Renamed.refl (g : Graph) : Renamed g g := fun _ => rfl

theorem Renamed.trans (h : Renamed g g') (h' : Renamed g' g'') : Renamed g g'' :=
  fun x => (h' x).trans (h x)

theorem renamed_set (hop : g.get? x = some op) (h : op'.unstreamed = op.unstreamed) :
    Renamed g (g.set x op') := by
  intro y
  rw [get?_set (contains_iff.mpr ⟨op, hop⟩)]
  by_cases hy : y = x
  · rw [if_pos hy, hy, hop, Option.map_some, Option.map_some, h]
  · rw [if_neg hy]

theorem unstreamed_renameInputStream {old new : String} :
    (renameInputStream old new op).unstreamed = op.unstreamed := by
  simp [Operator.unstreamed, renameInputStream, InputPort.cut, Function.comp_def]

theorem unnamed_nameRegionOutput {name : String} {ports : List OutputPort} :
    (nameRegionOutput name ports).map OutputPort.unnamed = ports.map OutputPort.unnamed := by
  rw [nameRegionOutput, List.map_map]
  refine List.map_congr_left fun p _ => ?_
  simp only [Function.comp_apply]
  split <;> rfl

/-! ### Steps that only rename -/

theorem yields_onGraph {α : Type} {action : GraphM α} {a : α} :
    Yields (onGraph action) s a s' ↔
      ∃ g', Yields action s.graph a g' ∧ s' = { s with graph := g' } := by
  have hrun : (onGraph action).run.run s =
      ((action.run.run s.graph).1, { s with graph := (action.run.run s.graph).2 }) := rfl
  rw [Yields, hrun]
  constructor
  · intro h
    obtain ⟨h, h'⟩ := Prod.ext_iff.mp h
    exact ⟨_, Prod.ext h rfl, h'.symm⟩
  · rintro ⟨g', h, rfl⟩
    rw [Yields] at h
    rw [h]

theorem yields_onGraph_lookup :
    Yields (onGraph (GraphM.lookup x)) s op s' ↔ s.graph.get? x = some op ∧ s' = s := by
  simp only [yields_onGraph, yields_lookup]
  constructor
  · rintro ⟨g', ⟨h, rfl⟩, rfl⟩
    exact ⟨h, rfl⟩
  · rintro ⟨h, rfl⟩
    exact ⟨s'.graph, ⟨h, rfl⟩, rfl⟩

theorem yields_forM_onGraph {α : Type} {xs : List α} {action : α → GraphM PUnit} :
    Yields (xs.forM fun x => onGraph (action x)) s u s' ↔
      ∃ g', Yields (xs.forM action) s.graph u g' ∧ s' = { s with graph := g' } := by
  induction xs generalizing s with
  | nil =>
    simp only [yields_forM_nil]
    constructor
    · rintro rfl
      exact ⟨_, rfl, rfl⟩
    · rintro ⟨_, rfl, rfl⟩
      rfl
  | cons x xs ih =>
    simp only [yields_forM_cons, yields_onGraph, ih]
    constructor
    · rintro ⟨_, ⟨g', hx, rfl⟩, g'', hrest, rfl⟩
      exact ⟨g'', ⟨g', hx, hrest⟩, rfl⟩
    · rintro ⟨g'', ⟨g', hx, hrest⟩, rfl⟩
      exact ⟨_, ⟨g', hx, rfl⟩, g'', hrest, rfl⟩

/-- Updates that only rename, one after the other. -/
theorem renamed_of_updates (hf : ∀ op, (f op).unstreamed = op.unstreamed)
    (h : Yields (ids.forM fun id => GraphM.update id f) g u g') : Renamed g g' := by
  refine Yields.forM_induction (I := fun _ t => Renamed g t) ?_ (.refl g) h
  rintro done x t t' _ hren hstep
  obtain ⟨op, hop, rfl⟩ := yields_update.mp hstep
  exact hren.trans (renamed_set hop (hf op))

/-! ### Opening a region -/

/-- The invocation is the one that the marker calls for: it reads what the marker read, into as many
channels as the marker says. -/
def Invokes (g : Graph) (p : Handle) (op : Operator) : Prop :=
  ∃ marker output, g.get? p = some marker ∧ marker.outputs.head? = some output ∧
    op.inputs.map InputPort.cut = marker.inputs.map InputPort.cut ∧ op.width = output.width ∧
    op.broadcastPorts = output.broadcastPorts ∧ op.partitioned = output.partitioned

theorem Invokes.of_renamed (h : Renamed g g') (hop : Invokes g' p op) : Invokes g p op := by
  obtain ⟨marker', output', hmarker', houtput', hin, hwidth, hbroadcast, hpart⟩ := hop
  have hsame := h p
  rw [hmarker', Option.map_some, eq_comm, Option.map_eq_some_iff] at hsame
  obtain ⟨marker, hmarker, heq⟩ := hsame
  have hinputs : marker.inputs.map InputPort.cut = marker'.inputs.map InputPort.cut :=
    congrArg Operator.inputs heq
  have houtputs : marker.outputs.map OutputPort.unnamed = marker'.outputs.map OutputPort.unnamed :=
    congrArg Operator.outputs heq
  have hhead := congrArg List.head? houtputs
  rw [List.head?_map, List.head?_map, houtput', Option.map_some, Option.map_eq_some_iff] at hhead
  obtain ⟨output, houtput, hport⟩ := hhead
  refine ⟨marker, output, hmarker, houtput, hin.trans hinputs.symm, ?_, ?_, ?_⟩
  · exact hwidth.trans (congrArg OutputPort.width hport).symm
  · exact hbroadcast.trans (congrArg OutputPort.broadcastPorts hport).symm
  · exact hpart.trans (congrArg OutputPort.partitioned hport).symm

theorem yields_freshNumber :
    Yields freshNumber s number s' ↔ number = s.count ∧ s' = { s with count := s.count + 1 } := by
  rw [freshNumber, yields_get_bind]
  simp only [yields_bind, yields_set, yields_pure]
  constructor
  · rintro ⟨_, t, rfl, rfl, rfl⟩
    exact ⟨rfl, rfl⟩
  · rintro ⟨rfl, rfl⟩
    exact ⟨⟨⟩, _, rfl, rfl, rfl⟩

/-- **What opening a region does:** the region takes the next number, the invocation is that of the
marker, and what reads the stream of the marker is renamed. -/
theorem yields_openRegion (h : Yields (openRegion p) s (number, op) s') :
    ∃ marker output g', s.graph.get? p = some marker ∧ marker.outputs.head? = some output ∧
      number = s.count ∧ op = invocationOf marker output number ∧
      Yields ((s.graph.children p).forM fun start => GraphM.update start
        (renameInputStream output.name Composite.parallelInput)) s.graph () g' ∧
      s' = { s with graph := g', count := s.count + 1 } := by
  rw [openRegion] at h
  simp only [yields_bind, yields_freshNumber] at h
  obtain ⟨_, _, ⟨rfl, rfl⟩, marker, t, hlookup, h⟩ := h
  obtain ⟨hmarker, rfl⟩ := yields_onGraph_lookup.mp hlookup
  rcases hout : marker.outputs.head? with _ | output
  · simp only [hout] at h
    exact absurd h not_yields_throw
  · simp only [hout] at h
    rw [yields_get_bind, yields_bind] at h
    obtain ⟨_, t, hupdates, hpure⟩ := h
    obtain ⟨heq, rfl⟩ := yields_pure.mp hpure
    obtain ⟨rfl, rfl⟩ := Prod.mk.inj heq
    obtain ⟨g', hnames, rfl⟩ := yields_forM_onGraph.mp hupdates
    exact ⟨marker, output, g', hmarker, hout, rfl, rfl, hnames, rfl⟩

theorem openRegion_opens (h : Yields (openRegion p) s (number, op) s') :
    Renamed s.graph s'.graph ∧ s'.composites = s.composites ∧ Invokes s.graph p op := by
  obtain ⟨marker, output, g', hmarker, hout, rfl, rfl, hupdates, rfl⟩ := yields_openRegion h
  exact ⟨renamed_of_updates (fun _ => unstreamed_renameInputStream) hupdates, rfl,
    marker, output, hmarker, hout, rfl, rfl, rfl, rfl⟩

/-! ### Finishing a composite -/

theorem mapM_keeps {α β : Type} {action : α → SeparationM β} {xs : List α} {ys : List β}
    (hkeeps : ∀ x y t t', Yields (action x) t y t' → t' = t) (h : Yields (xs.mapM action) s ys s') :
    s' = s := by
  induction xs generalizing s ys with
  | nil => exact (yields_mapM_nil.mp h).2
  | cons x xs ih =>
    obtain ⟨y, t, zs, hx, hrest, _⟩ := yields_mapM_cons.mp h
    exact (ih hrest).trans (hkeeps x y s t hx)

theorem neededBy_keeps {m : Member} {ps : List SubmissionParameter}
    (h : Yields (neededBy values m) s ps s') : s' = s := by
  cases m with
  | node id =>
    simp only [neededBy, yields_bind, yields_onGraph_lookup, yields_pure] at h
    obtain ⟨_, _, ⟨_, rfl⟩, _, rfl⟩ := h
    rfl
  | invocation op k =>
    simp only [neededBy, yields_get_bind, yields_pure] at h
    exact h.2

theorem declaredBy_keeps {ps : List SubmissionParameter}
    (h : Yields (declaredBy values c) s ps s') : s' = s := by
  rw [declaredBy] at h
  split at h
  · exact (yields_pure.mp h).2
  · split at h
    · exact (yields_pure.mp h).2
    · simp only [yields_bind, yields_pure] at h
      obtain ⟨_, _, hneeded, _, rfl⟩ := h
      exact mapM_keeps (fun _ _ _ _ => neededBy_keeps) hneeded

theorem yields_finish (h : Yields (finish values c) s k s') :
    k = s.composites.length ∧ ∃ ps, Yields (declaredBy values c) s ps s ∧
      s' = { s with composites := s.composites ++ [{ c with parameters := ps }] } := by
  simp only [finish, yields_bind, yields_get, yields_set, yields_pure] at h
  obtain ⟨ps, t, hdeclared, _, _, ⟨rfl, rfl⟩, _, _, rfl, rfl, rfl⟩ := h
  obtain rfl := declaredBy_keeps hdeclared
  exact ⟨rfl, ps, hdeclared, rfl⟩

/-- A composite that is finished takes the next position. -/
theorem finish_appends (h : Yields (finish values c) s k s') :
    k = s.composites.length ∧ s'.graph = s.graph ∧
      ∃ ps, s'.composites = s.composites ++ [{ c with parameters := ps }] := by
  obtain ⟨hk, ps, _, rfl⟩ := yields_finish h
  exact ⟨hk, rfl, ps, rfl⟩

/-! ### Completing a composite -/

/-- The composite at a position has been completed; the others are as they were. -/
def Completed (k : Nat) (cs cs' : List Composite) : Prop :=
  ∃ f : Composite → Composite, cs' = cs.modify k f ∧
    ∀ c, (f c).members.map Member.opening = c.members.map Member.opening ∧ (f c).isMain = c.isMain

variable {cs cs' cs'' : List Composite}

theorem Completed.trans (h : Completed k cs cs') (h' : Completed k cs' cs'') :
    Completed k cs cs'' := by
  obtain ⟨f, rfl, hf⟩ := h
  obtain ⟨f', rfl, hf'⟩ := h'
  refine ⟨f' ∘ f, List.modify_modify_eq .., fun c => ⟨?_, ?_⟩⟩
  · exact (hf' (f c)).1.trans (hf c).1
  · exact (hf' (f c)).2.trans (hf c).2

theorem modify_snoc {f : Composite → Composite} :
    (cs ++ [c]).modify cs.length f = cs ++ [f c] := by
  induction cs with
  | nil => rfl
  | cons d cs ih =>
    rw [List.cons_append, List.length_cons, List.modify_succ_cons, ih]
    rfl

/-- The composite finished last, completed. -/
theorem Completed.snoc (h : Completed cs.length (cs ++ [c]) cs') :
    ∃ c', cs' = cs ++ [c'] ∧ c'.members.map Member.opening = c.members.map Member.opening ∧
      c'.isMain = c.isMain := by
  obtain ⟨f, rfl, hf⟩ := h
  exact ⟨f c, modify_snoc, hf c⟩

theorem updateComposite_completes {f : Composite → Composite}
    (h : Yields (updateComposite k f) s u s')
    (hf : ∀ c, (f c).members.map Member.opening = c.members.map Member.opening ∧
      (f c).isMain = c.isMain) :
    s'.graph = s.graph ∧ Completed k s.composites s'.composites := by
  obtain rfl := yields_modify.mp h
  exact ⟨rfl, f, rfl, hf⟩

theorem opening_renameMemberOutput {name : String} {m : Member} :
    (renameMemberOutput name m).opening = m.opening := by
  cases m <;> rfl

theorem takeHashedSchema_outputs (parent op : Operator) :
    ∃ rs, takeHashedSchema parent op = { op with outputs := rs } ∧
      rs.map OutputPort.schemaless = op.outputs.map OutputPort.schemaless := by
  unfold takeHashedSchema
  split
  · split
    next hout => exact ⟨_, rfl, by rw [hout]; rfl⟩
    next => exact ⟨op.outputs, rfl, rfl⟩
  · exact ⟨op.outputs, rfl, rfl⟩

/-- Taking schemas over from hash adders changes nothing but schemas of output ports. -/
theorem foldl_takeHashedSchema_outputs (parents : List Operator) (op : Operator) :
    ∃ rs, parents.foldl (fun inv p => takeHashedSchema p inv) op = { op with outputs := rs } ∧
      rs.map OutputPort.schemaless = op.outputs.map OutputPort.schemaless := by
  induction parents generalizing op with
  | nil => exact ⟨op.outputs, rfl, rfl⟩
  | cons parent parents ih =>
    obtain ⟨rs, heq, hrs⟩ := takeHashedSchema_outputs parent op
    obtain ⟨rs', heq', hrs'⟩ := ih { op with outputs := rs }
    refine ⟨rs', ?_, hrs'.trans hrs⟩
    rw [List.foldl_cons, heq, heq']

/-- The composite of a region that has been left, by the input port of the region's end. -/
def left (endInput : Option String) (c : Composite) : Composite :=
  { c with
    outputName := some Composite.parallelOutput
    members := endInput.elim c.members fun name => c.members.map (renameMemberOutput name) }

/-- Renames the ports that feed the end of a region, by the input port of the end. -/
def renameProducers (parents : List Handle) (endInput : Option String) : GraphM PUnit :=
  endInput.elim (pure ⟨⟩) fun name => parents.forM fun parent =>
    GraphM.update parent fun p => { p with outputs := nameRegionOutput name p.outputs }

/-- **What leaving a region does:** the ports that feed its end are renamed, in the graph and in the
composite, and the invocation takes the output ports of the end, up to a schema. -/
theorem yields_leaveRegion {marker : Handle} {inv : Operator}
    (h : Yields (leaveRegion k marker inv) s op s') :
    ∃ a rs g', s.graph.get? marker = some a ∧
      rs.map OutputPort.schemaless = a.outputs.map OutputPort.schemaless ∧
      op = { inv with outputs := rs } ∧
      Yields (renameProducers (s.graph.parents marker) (a.inputs.head?.map InputPort.name))
        s.graph () g' ∧
      s' = { s with
        graph := g'
        composites := s.composites.modify k (left (a.inputs.head?.map InputPort.name)) } := by
  simp only [leaveRegion, yields_bind, yields_onGraph_lookup] at h
  obtain ⟨a, _, ⟨ha, rfl⟩, _, t₁, hout, t, _, hget, producers, _, hproducers, h⟩ := h
  obtain ⟨rfl, rfl⟩ := yields_get.mp hget
  obtain ⟨g', hlookups, rfl⟩ := yields_onGraph.mp hproducers
  obtain ⟨_, rfl⟩ := yields_mapM_lookup.mp hlookups
  obtain rfl := yields_modify.mp hout
  obtain ⟨rs, heq, hrs⟩ :=
    foldl_takeHashedSchema_outputs producers { inv with outputs := a.outputs }
  rw [heq] at h
  rcases hname : a.inputs.head?.map InputPort.name with _ | name
  · simp only [hname] at h
    obtain ⟨rfl, rfl⟩ := yields_pure.mp h
    exact ⟨a, rs, _, ha, hrs, rfl, by rw [hname]; rfl, by rw [hname]; rfl⟩
  · simp only [hname, yields_bind] at h
    obtain ⟨_, t₂, hupdates, _, t₃, hmembers, hpure⟩ := h
    obtain ⟨rfl, rfl⟩ := yields_pure.mp hpure
    obtain rfl := yields_modify.mp hmembers
    obtain ⟨g', hnames, rfl⟩ := yields_forM_onGraph.mp hupdates
    refine ⟨a, rs, g', ha, hrs, rfl, ?_, ?_⟩
    · rw [hname]
      exact hnames
    · rw [hname, List.modify_modify_eq]
      rfl

theorem renamed_of_renameProducers {parents : List Handle} {endInput : Option String}
    (h : Yields (renameProducers parents endInput) g u g') : Renamed g g' := by
  cases endInput with
  | none =>
    obtain ⟨_, rfl⟩ := yields_pure.mp h
    exact .refl _
  | some name =>
    refine renamed_of_updates (fun op => ?_) h
    rw [Operator.unstreamed, Operator.unstreamed, unnamed_nameRegionOutput]

theorem opening_left {endInput : Option String} :
    (left endInput c).members.map Member.opening = c.members.map Member.opening := by
  cases endInput with
  | none => rfl
  | some name =>
    refine List.map_map.trans (List.map_congr_left fun m _ => ?_)
    exact opening_renameMemberOutput

theorem leaveRegion_completes {marker : Handle} {inv : Operator}
    (h : Yields (leaveRegion k marker inv) s op s') :
    Renamed s.graph s'.graph ∧ Completed k s.composites s'.composites ∧
      op.opening = inv.opening := by
  obtain ⟨a, rs, g', _, _, rfl, hupdates, rfl⟩ := yields_leaveRegion h
  exact ⟨renamed_of_renameProducers hupdates, ⟨_, rfl, fun c => ⟨opening_left, rfl⟩⟩, rfl⟩

theorem closeRegion_completes {exit : Option Handle} {inv : Operator}
    (h : Yields (closeRegion k exit inv) s op s') :
    Renamed s.graph s'.graph ∧ Completed k s.composites s'.composites ∧
      op.opening = inv.opening := by
  rw [closeRegion, yields_bind] at h
  obtain ⟨_, t₁, hin, h⟩ := h
  rw [yields_get_bind] at h
  obtain ⟨hgraph₁, hcomp₁⟩ := updateComposite_completes hin fun _ => ⟨rfl, rfl⟩
  rcases exit with _ | marker
  · obtain ⟨rfl, rfl⟩ := yields_pure.mp h
    exact ⟨hgraph₁ ▸ .refl _, hcomp₁, rfl⟩
  · obtain ⟨hren, hcomp₂, hopening⟩ := leaveRegion_completes h
    exact ⟨hgraph₁ ▸ hren, hcomp₁.trans hcomp₂, hopening⟩

/-! ### Filling a plan -/

/-- The members of a composite are those of its plan, one by one; `home` says where the composites
of regions are. -/
def Filled (g : Graph) (home : Handle → Nat) : Plan → List Member → Prop
  | .done _, ms => ms = []
  | .node x rest, ms => ∃ ms', ms = .node x :: ms' ∧ Filled g home rest ms'
  | .region p _ rest, ms =>
    ∃ op ms', ms = .invocation op (home p) :: ms' ∧ Invokes g p op ∧ Filled g home rest ms'

theorem Invokes.of_opening (heq : op'.opening = op.opening) (h : Invokes g p op) :
    Invokes g p op' := by
  obtain ⟨marker, output, hmarker, houtput, hin, hwidth, hbroadcast, hpart⟩ := h
  have hinputs : op'.inputs = op.inputs := by
    have := congrArg Operator.inputs heq
    exact this
  refine ⟨marker, output, hmarker, houtput, ?_, ?_, ?_, ?_⟩
  · rw [hinputs, hin]
  · exact (congrArg Operator.width heq).trans hwidth
  · exact (congrArg Operator.broadcastPorts heq).trans hbroadcast
  · exact (congrArg Operator.partitioned heq).trans hpart

/-- Completing a composite keeps it filled. -/
theorem Filled.of_opening (h : Filled g home P ms)
    (heq : ms'.map Member.opening = ms.map Member.opening) : Filled g home P ms' := by
  induction P generalizing ms ms' with
  | done exit =>
    rw [Filled] at h ⊢
    rwa [h, List.map_nil, List.map_eq_nil_iff] at heq
  | node x rest ih =>
    obtain ⟨ms, rfl, h⟩ := h
    rw [List.map_cons, List.map_eq_cons_iff] at heq
    obtain ⟨m, ms', rfl, hm, heq⟩ := heq
    cases m with
    | node y =>
      obtain rfl := Member.node.inj hm
      exact ⟨ms', rfl, ih h heq⟩
    | invocation op k => cases hm
  | region p inside rest _ ih =>
    obtain ⟨op, ms, rfl, hop, h⟩ := h
    rw [List.map_cons, List.map_eq_cons_iff] at heq
    obtain ⟨m, ms', rfl, hm, heq⟩ := heq
    cases m with
    | node y => cases hm
    | invocation op' k =>
      obtain ⟨hop', rfl⟩ := Member.invocation.inj hm
      exact ⟨op', ms', rfl, hop.of_opening hop', ih h heq⟩

/-- **Filling a plan.** It appends one composite for each region, in the order of `Plan.inner`, and
the members of each are those of its plan. -/
theorem fill_filled (h : Yields (fill values P) s ms s') (hren : Renamed g s.graph)
    (hhome : ∀ i p I, P.inner[i]? = some (p, I) → home p = s.composites.length + i) :
    Renamed g s'.graph ∧ Filled g home P ms ∧ ∃ new, s'.composites = s.composites ++ new ∧
      List.Forall₂ (fun r c => Filled g home r.2 c.members ∧ c.isMain = false) P.inner new := by
  induction P generalizing s s' ms with
  | done exit =>
    obtain ⟨rfl, rfl⟩ := yields_pure.mp h
    exact ⟨hren, rfl, [], (List.append_nil _).symm, .nil⟩
  | node x rest ih =>
    simp only [fill, yields_bind, yields_pure] at h
    obtain ⟨ms', t, hrest, rfl, rfl⟩ := h
    obtain ⟨hren, hfilled, hnew⟩ := ih hrest hren hhome
    exact ⟨hren, ⟨ms', rfl, hfilled⟩, hnew⟩
  | region p inside rest ihInside ihRest =>
    simp only [fill, yields_bind, yields_pure] at h
    obtain ⟨⟨number, inv⟩, t₁, hopen, members, t₂, hinside, k, t₃, hfinish, op, t₄, hclose, others,
      t₅, hrest, rfl, rfl⟩ := h
    obtain ⟨hrenOpen, hcompOpen, hinv⟩ := openRegion_opens hopen
    have hren₁ := hren.trans hrenOpen
    obtain ⟨hren₂, hmembers, new₁, hcomp₂, hfilled₁⟩ :=
      ihInside hinside hren₁ fun i q J hq => by
        rw [hcompOpen]
        refine hhome i q J ?_
        rw [Plan.inner, List.getElem?_append_left (List.getElem?_eq_some_iff.mp hq).1, hq]
    obtain ⟨rfl, hgraph₃, ps, hcomp₃⟩ := finish_appends hfinish
    obtain ⟨hrenClose, hcompleted, hopening⟩ := closeRegion_completes hclose
    rw [hcomp₃] at hcompleted
    obtain ⟨c, hcomp₄, hopeningC, hmainC⟩ := hcompleted.snoc
    have hlen : t₂.composites.length = s.composites.length + inside.inner.length := by
      rw [hcomp₂, hcompOpen, List.length_append, hfilled₁.length_eq]
    have hpos : home p = t₂.composites.length := by
      rw [hlen]
      refine hhome _ p inside ?_
      rw [Plan.inner, List.getElem?_append_right (Nat.le_refl _), Nat.sub_self]
      rfl
    have hren₄ : Renamed g t₄.graph := hren₂.trans (hgraph₃ ▸ hrenClose)
    obtain ⟨hren₅, hrestFilled, new₂, hcomp₅, hfilled₂⟩ :=
      ihRest hrest hren₄ fun i q J hq => by
        rw [hcomp₄, List.length_append, List.length_singleton, hlen]
        rw [hhome (inside.inner.length + 1 + i) q J ?_]
        · omega
        · rw [Plan.inner, List.getElem?_append_right (by omega)]
          rw [show inside.inner.length + 1 + i - inside.inner.length = i + 1 by omega,
            List.getElem?_cons_succ, hq]
    refine ⟨hren₅, ⟨op, others, by rw [hpos], ?_, hrestFilled⟩, new₁ ++ c :: new₂, ?_, ?_⟩
    · exact (hinv.of_renamed hren).of_opening hopening
    · rw [hcomp₅, hcomp₄, hcomp₂, hcompOpen]
      simp
    · exact List.rel_append hfilled₁
        (.cons ⟨hmembers.of_opening hopeningC, hmainC⟩ hfilled₂)

/-- Filling a plan only renames streams. -/
theorem fill_renamed (h : Yields (fill values P) s ms s') : Renamed s.graph s'.graph := by
  induction P generalizing s s' ms with
  | done exit =>
    obtain ⟨rfl, rfl⟩ := yields_pure.mp h
    exact .refl _
  | node x rest ih =>
    simp only [fill, yields_bind, yields_pure] at h
    obtain ⟨ms', t, hrest, rfl, rfl⟩ := h
    exact ih hrest
  | region p inside rest ihInside ihRest =>
    simp only [fill, yields_bind, yields_pure] at h
    obtain ⟨⟨number, inv⟩, t₁, hopen, members, t₂, hinside, k, t₃, hfinish, op, t₄, hclose, others,
      t₅, hrest, rfl, rfl⟩ := h
    have hgraph := (finish_appends hfinish).2.1
    have hclosed := (closeRegion_completes hclose).1
    rw [hgraph] at hclosed
    exact (openRegion_opens hopen).1.trans
      ((ihInside hinside).trans (hclosed.trans (ihRest hrest)))

/-- When a separation succeeds: there is a plan that meets no end outside all regions, it can be
filled, and the main composite can be finished. -/
theorem yields_separate : Yields (separate values) s cs s' ↔
    ∃ root ms s₁ k, s.graph.plan = .ok root ∧ root.exit? = none ∧
      Yields (fill values root) s ms s₁ ∧
      Yields (finish values (mainComposite s.graph ms)) s₁ k s' ∧ cs = s'.composites := by
  rw [separate, yields_get_bind]
  simp only [yields_bind, yields_liftM]
  constructor
  · rintro ⟨root, _, ⟨hplan, rfl⟩, ms, s₁, hfill, k, s₂, hfinish, hexit⟩
    rcases hmain : root.exit? with _ | e
    · simp only [hmain] at hexit
      rw [yields_get_bind] at hexit
      obtain ⟨rfl, rfl⟩ := yields_pure.mp hexit
      exact ⟨root, ms, s₁, k, hplan, hmain, hfill, hfinish, rfl⟩
    · simp only [hmain, yields_bind] at hexit
      obtain ⟨_, _, _, h⟩ := hexit
      exact absurd h not_yields_throw
  · rintro ⟨root, ms, s₁, k, hplan, hmain, hfill, hfinish, rfl⟩
    refine ⟨root, s, ⟨hplan, rfl⟩, ms, s₁, hfill, k, s', hfinish, ?_⟩
    simp only [hmain]
    rw [yields_get_bind]
    exact yields_pure.mpr ⟨rfl, rfl⟩

/-- **A separation only renames streams.** -/
theorem separate_renamed (h : Yields (separate values) s cs s') : Renamed s.graph s'.graph := by
  obtain ⟨root, ms, s₁, k, _, _, hfill, hfinish, _⟩ := yields_separate.mp h
  rw [(finish_appends hfinish).2.1]
  exact fill_renamed hfill

/-- A plan that meets no end outside all regions and that can be filled is all that a separation
needs: the main composite declares what there is without looking at its members. -/
theorem exists_separate {g : Graph} {count : Nat} (hplan : g.plan = .ok P)
    (hexit : P.exit? = none)
    (hfills : ((fill values P).run.run { graph := g, count := count }).1.isOk = true) :
    ∃ cs s', Yields (separate values) { graph := g, count := count } cs s' := by
  obtain ⟨ms, s₁, hfill⟩ := exists_yields_of_isOk hfills
  have hfinish : ∃ k s', Yields (finish values (mainComposite g ms)) s₁ k s' := by
    simp only [finish, declaredBy, yields_bind]
    by_cases hvalues : values.isEmpty
    · simp only [hvalues, if_true]
      exact ⟨_, _, _, _, rfl, _, _, rfl, _, _, rfl, rfl⟩
    · simp only [hvalues]
      exact ⟨_, _, _, _, rfl, _, _, rfl, _, _, rfl, rfl⟩
  obtain ⟨k, s', hfinish⟩ := hfinish
  exact ⟨_, _, yields_separate.mpr ⟨P, ms, s₁, k, hplan, hexit, hfill, hfinish, rfl⟩⟩

end Separation

end StreamTopology
