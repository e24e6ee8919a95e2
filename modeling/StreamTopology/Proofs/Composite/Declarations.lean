import StreamTopology.Proofs.Composite.Parameters
import StreamTopology.Proofs.Composite.PlanTree

/-!
# What composites declare

That a composite declares what its members need says nothing about what it does not declare. Here
both directions are had: the names that the composite of a region declares are those that are used
in the region, at any depth. What is used is read off the graph and the plan alone, before any
composite is finished, so that a question about composites becomes one about operators.

An invocation has uses of its own as well. Its width is that of the marker that starts the region,
and the assignments of its ports are those of the marker that ends it. The parameters that are
passed on to it are expressions and do not count.

## Main definitions

* `Plan.uses`: the submission parameters that the members of a planned composite use.
* `Declares`: a composite declares what is used, each name once.

## Main results

* `Separation.fill_declares`: what the composites of a plan declare.
* `Separation.separate_declares`: what the composites of a separation declare, in order.
-/

namespace StreamTopology

/-! ### Uses -/

/-- The submission parameters in the assignments of an operator. -/
def Operator.assigned (op : Operator) : List SubmissionParameter :=
  op.outputs.flatMap fun r => r.assigns.submissions

/-- The submission parameter that is the width of the region that a marker starts. -/
def Operator.regionWidth? (op : Operator) : Option SubmissionParameter :=
  op.outputs.head?.bind fun r => r.width.bind Width.submission?

/-- The submission parameters that the invocation of a region uses. -/
def Graph.invocationUses (g : Graph) (marker : Handle) (exit : Option Handle) :
    List SubmissionParameter :=
  ((g.get? marker).bind Operator.regionWidth?).toList ++
    ((exit.bind g.get?).map Operator.assigned).getD []

/-- The submission parameters that are used in a planned composite, at any depth. -/
def Plan.uses (values : SubmissionValues) (g : Graph) : Plan → List SubmissionParameter
  | .done _ => []
  | .node x rest => ((g.get? x).map (Separation.usedBy values)).getD [] ++ rest.uses values g
  | .region marker inside rest =>
    inside.uses values g ++ g.invocationUses marker inside.exit? ++ rest.uses values g

/-- Unless the topology has no submission parameters, what is declared has the names of what is
used, and each of them once. -/
structure Declares (values : SubmissionValues) (uses ps : List SubmissionParameter) : Prop where
  nodup : (ps.map SubmissionParameter.name).Nodup
  names : ∀ p : SubmissionParameter, p.DeclaredIn ps ↔ values.isEmpty = false ∧ p.DeclaredIn uses

namespace SubmissionParameter

variable {p q : SubmissionParameter} {ps qs more : List SubmissionParameter}

theorem declaredIn_append : p.DeclaredIn (ps ++ qs) ↔ p.DeclaredIn ps ∨ p.DeclaredIn qs := by
  simp only [DeclaredIn, List.mem_append, or_and_right, exists_or]

theorem declaredIn_nil : ¬ p.DeclaredIn [] := by
  rintro ⟨_, hq, _⟩
  cases hq

theorem declaredIn_congr (h : ∀ q, q ∈ ps ↔ q ∈ qs) : p.DeclaredIn ps ↔ p.DeclaredIn qs := by
  simp only [DeclaredIn, h]

theorem nodup_addOnce (h : (ps.map name).Nodup) :
    ((SubmissionValues.addOnce ps q).map name).Nodup := by
  unfold SubmissionValues.addOnce
  split
  next => exact h
  next hnew =>
    rw [List.map_append, List.map_singleton]
    refine List.nodup_append.mpr ⟨h, List.nodup_singleton _, fun a ha b hb hab => hnew ?_⟩
    obtain ⟨r, hr, rfl⟩ := List.mem_map.mp ha
    exact List.any_eq_true.mpr ⟨r, hr, beq_iff_eq.mpr (hab.trans (List.mem_singleton.mp hb))⟩

/-- **Adding by name** repeats no name. -/
theorem nodup_addAll (h : (ps.map name).Nodup) :
    ((SubmissionValues.addAll ps more).map name).Nodup := by
  unfold SubmissionValues.addAll
  induction more generalizing ps with
  | nil => exact h
  | cons q more ih => exact ih (nodup_addOnce h)

end SubmissionParameter

/-- The submission parameters of a topology have different names. -/
theorem SubmissionValues.nodup_all {ps : Parameters} {values : SubmissionValues}
    (h : ofParameters ps = .ok values) : (values.all.map SubmissionParameter.name).Nodup := by
  unfold ofParameters at h
  obtain ⟨all, _, h⟩ := bind_eq_ok.mp h
  obtain rfl := pure_eq_ok.mp h
  exact SubmissionParameter.nodup_addAll List.nodup_nil

namespace Separation

open StreamTopology.Graph SubmissionParameter

variable {values : SubmissionValues} {s s' : Separation} {k number : Nat} {op marker : Operator}
  {output : OutputPort} {exit : Option Handle} {ms : List Member} {cs : List Composite}
  {g g' : Graph} {P : Plan} {p : SubmissionParameter} {name : String}

/-! ### What renaming leaves of uses -/

theorem assigned_unstreamed (op : Operator) : op.unstreamed.assigned = op.assigned := by
  simp [Operator.assigned, Operator.unstreamed, List.flatMap_map, OutputPort.unnamed]

theorem regionWidth?_unstreamed (op : Operator) :
    op.unstreamed.regionWidth? = op.regionWidth? := by
  simp only [Operator.regionWidth?, Operator.unstreamed, List.head?_map]
  cases op.outputs.head? <;> rfl

theorem Renamed.bind_regionWidth? (h : Renamed g g') (x : Handle) :
    (g'.get? x).bind Operator.regionWidth? = (g.get? x).bind Operator.regionWidth? := by
  have hmap := congrArg (Option.bind · id) (h.map_eq regionWidth?_unstreamed x)
  simpa only [Option.bind_map, Function.id_comp] using hmap

theorem Renamed.map_assigned (h : Renamed g g') (exit : Option Handle) :
    (exit.bind g'.get?).map Operator.assigned = (exit.bind g.get?).map Operator.assigned := by
  cases exit with
  | none => rfl
  | some e => exact h.map_eq assigned_unstreamed e

/-! ### One region -/

/-- **What an invocation uses** when its region has ended. -/
theorem mem_usedBy_closeRegion
    (h : Yields (closeRegion k exit (invocationOf marker output number)) s op s') :
    p ∈ usedBy values op ↔ output.width.bind Width.submission? = some p ∨
      p ∈ ((exit.bind s.graph.get?).map Operator.assigned).getD [] := by
  rw [closeRegion, yields_bind] at h
  obtain ⟨_, t, hin, h⟩ := h
  obtain rfl := yields_modify.mp hin
  rw [yields_get_bind] at h
  dsimp only at h
  -- what is passed on are expressions, and the invocation has no parameters before
  have hpassed : ∀ (ps : List SubmissionParameter) (rs : List OutputPort),
      p ∈ usedBy values
        { passParameters ps (invocationOf marker output number) with outputs := rs } ↔
      output.width.bind Width.submission? = some p ∨ ∃ r ∈ rs, p ∈ r.assigns.submissions := by
    intro ps rs
    have hnone : p ∉ (ps.foldl passParameter Parameters.empty).submissions := fun hp =>
      List.not_mem_nil (submissions_passed hp)
    rw [mem_usedBy, or_comm (a := output.width.bind Width.submission? = some p)]
    refine (or_iff_right fun h => ?_).trans (or_iff_right hnone)
    exact Bool.false_ne_true h.1
  rcases exit with _ | e
  · obtain ⟨rfl, rfl⟩ := yields_pure.mp h
    refine (hpassed _ []).trans (or_congr_right (iff_of_false ?_ List.not_mem_nil))
    rintro ⟨_, hr, _⟩
    cases hr
  · obtain ⟨a, rs, g', ha, hrs, rfl, hupdates, rfl⟩ := yields_leaveRegion h
    refine (hpassed _ rs).trans (or_congr_right ?_)
    have hassigns : rs.flatMap (fun r => r.assigns.submissions) = a.assigned := by
      have hmap := congrArg (List.flatMap fun r : OutputPort => r.assigns.submissions) hrs
      simpa only [List.flatMap_map, OutputPort.schemaless, Operator.assigned] using hmap
    rw [Option.bind_some, show s.graph.get? e = some a from ha, Option.map_some, Option.getD_some,
      ← hassigns, List.mem_flatMap]

/-- What an invocation uses can be read off the graph before any region has been opened. -/
theorem mem_usedBy_invocation {x : Handle} {t : Separation} (hmarker : s.graph.get? x = some marker)
    (houtput : marker.outputs.head? = some output) (hren : Renamed g s.graph)
    (hren' : Renamed g t.graph)
    (h : Yields (closeRegion k exit (invocationOf marker output number)) t op s') :
    p ∈ usedBy values op ↔ p ∈ g.invocationUses x exit := by
  have hwidth : (g.get? x).bind Operator.regionWidth? = output.width.bind Width.submission? := by
    rw [← hren.bind_regionWidth?, hmarker, Option.bind_some, Operator.regionWidth?, houtput,
      Option.bind_some]
  rw [mem_usedBy_closeRegion h, hren'.map_assigned, Graph.invocationUses, List.mem_append,
    Option.mem_toList, hwidth]

/-- Finishing the composite of a region declares what its members need. -/
theorem finish_declares
    (h : Yields (finish values { name := name, members := ms }) s k s') :
    k = s.composites.length ∧ s'.graph = s.graph ∧ ∃ ps, s'.composites.map Composite.parameters =
        s.composites.map Composite.parameters ++ [ps] ∧
      Declares values (ms.flatMap (needs values s.graph s.composites)) ps := by
  obtain ⟨rfl, ps, hdeclared, rfl⟩ := yields_finish h
  refine ⟨rfl, rfl, ps, by simp, ?_⟩
  rw [declaredBy] at hdeclared
  split at hdeclared
  next hempty =>
    obtain ⟨rfl, _⟩ := yields_pure.mp hdeclared
    exact ⟨List.nodup_nil, fun p => iff_of_false declaredIn_nil fun h =>
      Bool.false_ne_true (h.1.symm.trans hempty)⟩
  next hempty =>
    rw [if_neg Bool.false_ne_true] at hdeclared
    simp only [yields_bind, yields_pure] at hdeclared
    obtain ⟨needed, _, hneeded, rfl, _⟩ := hdeclared
    obtain rfl := yields_mapM_neededBy hneeded
    refine ⟨nodup_addAll List.nodup_nil, fun p => ?_⟩
    rw [declaredIn_addAll, or_iff_right declaredIn_nil, ← List.flatMap_def,
      and_iff_right (Bool.eq_false_iff.mpr hempty)]

theorem Retouched.parameters_eq {cs' : List Composite} (h : Retouched k cs cs') :
    cs'.map Composite.parameters = cs.map Composite.parameters :=
  List.ext_getElem? fun j => by rw [List.getElem?_map, List.getElem?_map, h.map_parameters j]

/-! ### Plans -/

/-- **What the composites of a plan declare.** One is finished for each region, in the order of the
plan, and declares what is used there. The members need what the plan says is used. -/
theorem fill_declares (hren : Renamed g s.graph) (h : Yields (fill values P) s ms s') :
    ∃ declared, s'.composites.map Composite.parameters =
        s.composites.map Composite.parameters ++ declared ∧
      List.Forall₂ (fun I => Declares values (I.2.uses values g)) P.inner declared ∧
      (values.isEmpty = false → ∀ p : SubmissionParameter,
        p.DeclaredIn (ms.flatMap (needs values s'.graph s'.composites)) ↔
          p.DeclaredIn (P.uses values g)) := by
  induction P generalizing s s' ms with
  | done exit =>
    obtain ⟨rfl, rfl⟩ := yields_pure.mp h
    exact ⟨[], (List.append_nil _).symm, .nil, fun _ _ => Iff.rfl⟩
  | node x rest ih =>
    simp only [fill, yields_bind, yields_pure] at h
    obtain ⟨others, t, hrest, rfl, rfl⟩ := h
    obtain ⟨declared, hparameters, hdeclared, hneeds⟩ := ih hren hrest
    refine ⟨declared, hparameters, hdeclared, fun hvalues p => ?_⟩
    have hnode : needs values s'.graph s'.composites (.node x) =
        ((g.get? x).map (usedBy values)).getD [] := by
      rw [needs, (hren.trans (fill_renamed hrest)).map_usedBy]
    rw [List.flatMap_cons, Plan.uses, declaredIn_append, declaredIn_append, hnode,
      hneeds hvalues]
  | region x inside rest ihInside ihRest =>
    simp only [fill, yields_bind, yields_pure] at h
    obtain ⟨⟨number, inv⟩, t₁, hopen, members, t₂, hinside, k, t₃, hfinish, op, t₄, hclose, others,
      t₅, hrest, rfl, rfl⟩ := h
    obtain ⟨marker, output, g₁, hmarker, houtput, rfl, rfl, hupdates, rfl⟩ :=
      yields_openRegion hopen
    have hren₁ : Renamed g g₁ :=
      hren.trans (renamed_of_updates (fun _ => unstreamed_renameInputStream) hupdates)
    obtain ⟨D₁, hD₁, hdeclared₁, hneeds₁⟩ :=
      ihInside (s := { s with graph := g₁, count := s.count + 1 }) hren₁ hinside
    have hren₂ := hren₁.trans (fill_renamed hinside)
    obtain ⟨rfl, hgraph, ps, hps, hdeclares⟩ := finish_declares hfinish
    rw [← hgraph] at hren₂
    obtain ⟨hren₃, htouched, _⟩ := yields_closeRegion values hclose
    obtain ⟨D₂, hD₂, hdeclared₂, hneeds₂⟩ := ihRest (hren₂.trans hren₃) hrest
    rw [htouched.parameters_eq, hps, hD₁] at hD₂
    refine ⟨D₁ ++ ps :: D₂, by simpa using hD₂, ?_, fun hvalues p => ?_⟩
    · refine List.rel_append hdeclared₁ (.cons ⟨hdeclares.nodup, fun p => ?_⟩ hdeclared₂)
      rw [hdeclares.names p]
      exact and_congr_right fun hvalues => hneeds₁ hvalues p
    · -- the composite of the region keeps its place and what it declares until the end
      have hplace : t₂.composites.length =
          (s.composites.map Composite.parameters ++ D₁).length := by
        rw [← hD₁, List.length_map]
      have hkept : s'.composites[t₂.composites.length]?.map Composite.parameters = some ps := by
        rw [← List.getElem?_map, hD₂, hplace, List.getElem?_append_left (by simp),
          List.getElem?_concat_length]
      have hinvocation : needs values s'.graph s'.composites
          (.invocation op t₂.composites.length) = ps ++ usedBy values op := by
        rw [needs, hkept, Option.getD_some]
      have hused : ∀ q, q ∈ usedBy values op ↔ q ∈ g.invocationUses x inside.exit? :=
        fun q => mem_usedBy_invocation hmarker houtput hren hren₂ hclose
      rw [List.flatMap_cons, Plan.uses, declaredIn_append, declaredIn_append, hneeds₂ hvalues,
        hinvocation, declaredIn_append, declaredIn_append, hdeclares.names, and_iff_right hvalues,
        hneeds₁ hvalues, declaredIn_congr hused]

/-- The main composite declares all submission parameters. -/
theorem declaredBy_main {ps : List SubmissionParameter}
    (h : Yields (declaredBy values (mainComposite g ms)) s ps s') : ps = values.all := by
  rw [declaredBy] at h
  split at h
  next hempty => exact (yields_pure.mp h).1.trans (List.isEmpty_iff.mp hempty).symm
  next => exact (yields_pure.mp h).1

/-- **What the composites of a separation declare.** There is one for each region of the plan, and
it declares what is used in the region. Last comes the main one, which declares all there are. -/
theorem separate_declares {count : Nat}
    (h : Yields (separate values) { graph := g, count := count } cs s') :
    ∃ P declared, g.plan = .ok P ∧ cs.map Composite.parameters = declared ++ [values.all] ∧
      List.Forall₂ (fun I => Declares values (I.2.uses values g)) P.inner declared := by
  obtain ⟨P, ms, t, k, hplan, _, hfill, hfinish, rfl⟩ := yields_separate.mp h
  obtain ⟨declared, hdeclared, hinner, _⟩ := fill_declares (.refl g) hfill
  obtain ⟨_, ps, hps, rfl⟩ := yields_finish hfinish
  obtain rfl := declaredBy_main hps
  rw [List.map_nil, List.nil_append] at hdeclared
  exact ⟨P, declared, hplan, by rw [List.map_append, hdeclared, List.map_singleton], hinner⟩

end Separation

end StreamTopology
