import StreamTopology.Proofs.Composite.Resolution
import StreamTopology.Proofs.Topology.Parameters
import StreamTopology.Spl.Application

/-!
# Submission parameters are in scope

The text of an operator names the submission parameters that it refers to, and the composite around
it has to declare them. The main composite declares all there are. Any other composite is told what
to declare when it is finished, from what its members need at that moment: what an operator of the
graph uses, and for the invocation of a region what the composite of that region declares, which is
passed on to it. Since inner composites are finished first, a use at any depth has reached all
composites around it when these are finished.

What was computed then has to be right at the end. After a composite is finished, streams are still
renamed, in the graph and in its members, and composites are appended behind it. `Continues` says
what is left alone by all that: parameters, widths and assignments, and the place of every composite
with what it declares. The rest is an induction on the plan.

## Main definitions

* `Operator.submissions`, `Invocation.RefersTo`: the submission parameters in an operator and in its
  text.
* `Separation.needs`: what a member needs to have declared.
* `Separation.InScope`: what holds of a separation on the way.
* `Composite.Supplies`: what the members of a composite refer to is declared and passed on.

## Main results

* `Separation.declaredBy_covers`: a composite declares what its members need.
* `Application.declarationLine_declares`: how it declares it in the text.
* `Separation.fill_inScope`: what filling a plan keeps.
* `Separation.separate_supplies`: every composite of a separation supplies its members.
-/

namespace StreamTopology

/-! ### Names of submission parameters -/

/-- The list has a submission parameter of this name. -/
def SubmissionParameter.DeclaredIn (p : SubmissionParameter) (ps : List SubmissionParameter) :
    Prop := ∃ q ∈ ps, q.name = p.name

/-- The submission parameters among the parameters. -/
def Parameters.submissions (ps : Parameters) : List SubmissionParameter :=
  ps.entries.filterMap fun e => e.2.submission?

/-- The submission parameter that a width is. -/
def Width.submission? : Width → Option SubmissionParameter
  | .fixed _ => none
  | .parameter p => p.submission?

/-- The submission parameters that an operator uses: in parameters, in assignments, as its width and
as the widths of output ports. -/
def Operator.submissions (op : Operator) : List SubmissionParameter :=
  op.parameters.submissions ++ op.outputs.flatMap (fun r => r.assigns.submissions) ++
    (op.width.bind Width.submission?).toList ++
    op.outputs.filterMap fun r => r.width.bind Width.submission?

/-- The text of the operator refers to the submission parameter: in the param clause, in an
assignment, as the width of a parallel operator, or because a functional operator is told about all
of them. -/
def Invocation.RefersTo (values : SubmissionValues) (op : Operator) (p : SubmissionParameter) :
    Prop :=
  p ∈ op.parameters.submissions ∨ (∃ r ∈ op.outputs, p ∈ r.assigns.submissions) ∨
    (op.parallelOperator = true ∧ op.width.bind Width.submission? = some p) ∨
    (op.isFunctional = true ∧ p ∈ values.all)

/-- The member without the names of the streams that an invocation reads and feeds. -/
def Member.unstreamed : Member → Member
  | .node x => .node x
  | .invocation op k => .invocation op.unstreamed k

namespace SubmissionParameter

variable {p q : SubmissionParameter} {ps more : List SubmissionParameter}

theorem declaredIn_self (h : p ∈ ps) : p.DeclaredIn ps := ⟨p, h, rfl⟩

theorem declaredIn_addOnce :
    p.DeclaredIn (SubmissionValues.addOnce ps q) ↔ p.DeclaredIn ps ∨ q.name = p.name := by
  unfold SubmissionValues.addOnce
  split
  next h =>
    obtain ⟨r, hr, hname⟩ := List.any_eq_true.mp h
    refine ⟨Or.inl, fun h => h.elim id fun hq => ⟨r, hr, ?_⟩⟩
    exact (beq_iff_eq.mp hname).trans hq
  next => simp [DeclaredIn, or_and_right, exists_or]

/-- **Adding by name** loses no name. -/
theorem declaredIn_addAll :
    p.DeclaredIn (SubmissionValues.addAll ps more) ↔ p.DeclaredIn ps ∨ p.DeclaredIn more := by
  unfold SubmissionValues.addAll
  induction more generalizing ps with
  | nil => simp [DeclaredIn]
  | cons q more ih =>
    rw [List.foldl_cons, ih, declaredIn_addOnce, or_assoc]
    simp [DeclaredIn]

end SubmissionParameter

theorem SubmissionValues.mapM_expectSubmission {es : List (String × Parameter)}
    {all : List SubmissionParameter} (h : es.mapM expectSubmission = .ok all) :
    all = es.filterMap fun e => e.2.submission? := by
  induction es generalizing all with
  | nil =>
    cases h
    rfl
  | cons e es ih =>
    obtain ⟨name, parameter⟩ := e
    rw [List.mapM_cons] at h
    cases parameter with
    | submission p =>
      rcases hrest : es.mapM expectSubmission with err | rest
      · rw [hrest] at h
        cases h
      · rw [hrest] at h
        cases h
        rw [ih hrest]
        rfl
    | _ => cases h

/-- The submission parameters of a topology have the names that its parameters have. -/
theorem SubmissionValues.declaredIn_all {ps : Parameters} {values : SubmissionValues}
    {p : SubmissionParameter} (h : ofParameters ps = .ok values) :
    p.DeclaredIn values.all ↔ p.DeclaredIn ps.submissions := by
  unfold ofParameters at h
  rcases hall : ps.entries.mapM expectSubmission with err | all
  · rw [hall] at h
    cases h
  · rw [hall] at h
    cases h
    rw [SubmissionParameter.declaredIn_addAll, mapM_expectSubmission hall]
    simp [SubmissionParameter.DeclaredIn, Parameters.submissions]

/-! ### Parameters that are passed on -/

namespace Parameters

variable {ps : Parameters} {name text : String} {p : SubmissionParameter}

theorem submissions_insert_expression
    (h : p ∈ (ps.insert name (.expression text)).submissions) : p ∈ ps.submissions := by
  obtain ⟨e, he, hp⟩ := List.mem_filterMap.mp h
  rcases mem_insertEntry he with rfl | he
  · cases hp
  · exact List.mem_filterMap.mpr ⟨e, he, hp⟩

end Parameters

namespace Separation

open StreamTopology.Graph

variable {start : Parameters} {p : SubmissionParameter} {ps : List SubmissionParameter}

/-- A parameter that is passed on is there under its composite name. Another one of the same
composite name takes its place with the same value. -/
theorem get?_passed (h : p ∈ ps ∨ start.get? (Submission.compositeName p.name) =
      some (.expression (Submission.reference p.name))) :
    (ps.foldl passParameter start).get? (Submission.compositeName p.name) =
      some (.expression (Submission.reference p.name)) := by
  induction ps generalizing start with
  | nil => exact h.resolve_left List.not_mem_nil
  | cons q ps ih =>
    rw [List.foldl_cons]
    refine ih ?_
    rw [passParameter, Parameters.get?_insert]
    by_cases hname : Submission.compositeName p.name = Submission.compositeName q.name
    · rw [if_pos hname, Submission.reference, Submission.reference, hname]
      exact Or.inr rfl
    · rw [if_neg hname]
      refine h.imp_left fun hp => (List.mem_cons.mp hp).resolve_left ?_
      rintro rfl
      exact hname rfl

/-- What is passed on is no submission parameter itself. -/
theorem submissions_passed (h : p ∈ (ps.foldl passParameter start).submissions) :
    p ∈ start.submissions := by
  induction ps generalizing start with
  | nil => exact h
  | cons q ps ih => exact Parameters.submissions_insert_expression (ih h)

/-! ### What members need -/

variable {values : SubmissionValues} {s s' t : Separation} {c c' : Composite} {k : Nat}
  {op inv : Operator} {m : Member} {ms : List Member} {cs : List Composite} {g : Graph}

theorem usedBy_eq : usedBy values op = (if op.isFunctional then values.all else []) ++
    op.parameters.submissions ++ op.outputs.flatMap (fun r => r.assigns.submissions) ++
    (op.width.bind Width.submission?).toList := by
  unfold usedBy
  congr 1
  rcases op.width with _ | _ | v
  · rfl
  · rfl
  · cases v <;> rfl

theorem mem_usedBy : p ∈ usedBy values op ↔ (op.isFunctional = true ∧ p ∈ values.all) ∨
    p ∈ op.parameters.submissions ∨ (∃ r ∈ op.outputs, p ∈ r.assigns.submissions) ∨
    op.width.bind Width.submission? = some p := by
  rw [usedBy_eq]
  by_cases hf : op.isFunctional = true <;> simp [hf]

/-- An operator in scope needs nothing else than there is. -/
theorem declaredIn_of_usedBy (hop : ∀ q ∈ op.submissions, q.DeclaredIn values.all)
    (h : p ∈ usedBy values op) : p.DeclaredIn values.all := by
  rcases mem_usedBy.mp h with ⟨_, hp⟩ | hp
  · exact SubmissionParameter.declaredIn_self hp
  · refine hop p ?_
    simp only [Operator.submissions, List.mem_append, List.mem_flatMap, Option.mem_toList]
    exact Or.inl (or_assoc.mpr hp)

/-- What a member needs to have declared: what the composite declares that it invokes, and what the
operator uses itself. -/
def needs (values : SubmissionValues) (g : Graph) (cs : List Composite) :
    Member → List SubmissionParameter
  | .node x => ((g.get? x).map (usedBy values)).getD []
  | .invocation op k => (cs[k]?.map Composite.parameters).getD [] ++ usedBy values op

theorem yields_neededBy (h : Yields (neededBy values m) s ps s') :
    ps = needs values s.graph s.composites m := by
  cases m with
  | node x =>
    simp only [neededBy, yields_bind, yields_onGraph_lookup, yields_pure] at h
    obtain ⟨op, _, ⟨hop, rfl⟩, rfl, _⟩ := h
    rw [needs, hop]
    rfl
  | invocation op k =>
    simp only [neededBy, yields_get_bind, yields_pure] at h
    exact h.1

theorem yields_mapM_neededBy {needed : List (List SubmissionParameter)}
    (h : Yields (ms.mapM (neededBy values)) s needed s') :
    needed = ms.map (needs values s.graph s.composites) := by
  induction ms generalizing s needed with
  | nil => exact (yields_mapM_nil.mp h).1
  | cons m ms ih =>
    obtain ⟨ps, t, rest, hm, hrest, rfl⟩ := yields_mapM_cons.mp h
    obtain rfl := neededBy_keeps hm
    rw [yields_neededBy hm, ih hrest, List.map_cons]

/-- **A composite declares what its members need,** and no other names than there are, provided that
its members need no others. -/
theorem declaredBy_covers (h : Yields (declaredBy values c) s ps s')
    (hscope : ∀ m ∈ c.members, ∀ p ∈ needs values s.graph s.composites m,
      p.DeclaredIn values.all) :
    (∀ p ∈ ps, p.DeclaredIn values.all) ∧
      ∀ m ∈ c.members, ∀ p ∈ needs values s.graph s.composites m, p.DeclaredIn ps := by
  rw [declaredBy] at h
  split at h
  next hempty =>
    obtain ⟨rfl, rfl⟩ := yields_pure.mp h
    have hall : values.all = [] := List.isEmpty_iff.mp hempty
    exact ⟨fun _ hp => (List.not_mem_nil hp).elim, fun m hm p hp => hall ▸ hscope m hm p hp⟩
  next =>
    split at h
    next =>
      obtain ⟨rfl, rfl⟩ := yields_pure.mp h
      exact ⟨fun _ => SubmissionParameter.declaredIn_self, hscope⟩
    next =>
      simp only [yields_bind, yields_pure] at h
      obtain ⟨needed, t, hneeded, rfl, rfl⟩ := h
      obtain rfl := yields_mapM_neededBy hneeded
      have hmem : ∀ p : SubmissionParameter, p.DeclaredIn (SubmissionValues.addAll []
          (c.members.map (needs values s.graph s.composites)).flatten) ↔
          ∃ m ∈ c.members, p.DeclaredIn (needs values s.graph s.composites m) := by
        intro p
        rw [SubmissionParameter.declaredIn_addAll]
        simp [SubmissionParameter.DeclaredIn]
        tauto
      refine ⟨fun p hp => ?_, fun m hm p hp =>
        (hmem p).mpr ⟨m, hm, SubmissionParameter.declaredIn_self hp⟩⟩
      obtain ⟨m, hm, q, hq, hname⟩ := (hmem p).mp (SubmissionParameter.declaredIn_self hp)
      obtain ⟨r, hr, hr'⟩ := hscope m hm q hq
      exact ⟨r, hr, hr'.trans hname⟩

/-! ### What renaming leaves alone -/

theorem usedBy_unstreamed : usedBy values op.unstreamed = usedBy values op := by
  simp [usedBy_eq, Operator.unstreamed, Operator.isFunctional, List.flatMap_map,
    OutputPort.unnamed]

theorem submissions_unstreamed : op.unstreamed.submissions = op.submissions := by
  simp [Operator.submissions, Operator.unstreamed, List.flatMap_map, List.filterMap_map,
    OutputPort.unnamed, Function.comp_def]

/-- The operator of a renamed graph is one of the graph before, up to names of streams. -/
theorem Renamed.exists_operator {g' : Graph} {x : Handle} (h : Renamed g g')
    (hop : g'.get? x = some op) : ∃ a, g.get? x = some a ∧ a.unstreamed = op.unstreamed := by
  have hsame := h x
  rw [hop, Option.map_some, eq_comm, Option.map_eq_some_iff] at hsame
  exact hsame

/-- What does not depend on names of streams is read off either graph. -/
theorem Renamed.map_eq {α : Type} {f : Operator → α} {g' : Graph}
    (hf : ∀ op, f op.unstreamed = f op) (h : Renamed g g') (x : Handle) :
    (g'.get? x).map f = (g.get? x).map f := by
  have hmap : ∀ o : Option Operator, o.map f = (o.map Operator.unstreamed).map f := fun o => by
    rw [Option.map_map]
    exact congrArg (Option.map · o) (funext fun op => (hf op).symm)
  rw [hmap, h x, ← hmap]

theorem Renamed.map_usedBy {g' : Graph} (h : Renamed g g') (x : Handle) :
    (g'.get? x).map (usedBy values) = (g.get? x).map (usedBy values) :=
  h.map_eq (fun _ => usedBy_unstreamed) x

theorem unstreamed_renameMemberOutput {name : String} :
    (renameMemberOutput name m).unstreamed = m.unstreamed := by
  cases m with
  | node x => rfl
  | invocation op k =>
    simp [renameMemberOutput, Member.unstreamed, Operator.unstreamed, unnamed_nameRegionOutput]

/-- The invocation passes on what the composite declares that it invokes. -/
def Passes (cs : List Composite) : Member → Prop
  | .node _ => True
  | .invocation op k => ∃ c, cs[k]? = some c ∧ ∀ p ∈ c.parameters,
      op.parameters.get? (Submission.compositeName p.name) =
        some (.expression (Submission.reference p.name))

/-- The member is passed what it has to be passed, and needs nothing that is not declared. -/
structure Supplied (values : SubmissionValues) (s : Separation) (ps : List SubmissionParameter)
    (m : Member) : Prop where
  passes : Passes s.composites m
  declared : ∀ p ∈ needs values s.graph s.composites m, p.DeclaredIn ps

/-- A separation that has gone on: streams have been renamed, and composites have been completed and
appended. -/
structure Continues (s t : Separation) : Prop where
  renamed : Renamed s.graph t.graph
  kept : ∀ (k : Nat) (c : Composite), s.composites[k]? = some c →
    ∃ c' : Composite, t.composites[k]? = some c' ∧ c'.parameters = c.parameters

theorem Continues.refl (s : Separation) : Continues s s := ⟨.refl _, fun _ c h => ⟨c, h, rfl⟩⟩

theorem Continues.trans {r : Separation} (h : Continues r s) (h' : Continues s t) :
    Continues r t := by
  refine ⟨h.renamed.trans h'.renamed, fun k c hc => ?_⟩
  obtain ⟨d, hd, hdc⟩ := h.kept k c hc
  obtain ⟨e, he, hed⟩ := h'.kept k d hd
  exact ⟨e, he, hed.trans hdc⟩

/-- **A member stays supplied** while the separation goes on and its own streams are renamed. -/
theorem Supplied.step {m' : Member} (h : Supplied values s ps m) (hst : Continues s t)
    (hm : m'.unstreamed = m.unstreamed) : Supplied values t ps m' := by
  cases m with
  | node x =>
    cases m' with
    | node y =>
      obtain rfl := Member.node.inj hm
      refine ⟨trivial, fun p hp => h.declared p ?_⟩
      rwa [needs, hst.renamed.map_usedBy] at hp
    | invocation op' k' => cases hm
  | invocation op k =>
    cases m' with
    | node y => cases hm
    | invocation op' k' =>
      obtain ⟨hop, rfl⟩ := Member.invocation.inj hm
      obtain ⟨c, hc, hpass⟩ := h.passes
      obtain ⟨d, hd, hdc⟩ := hst.kept k' c hc
      have hparameters : op'.parameters = op.parameters := by
        have := congrArg Operator.parameters hop
        exact this
      refine ⟨⟨d, hd, ?_⟩, fun p hp => h.declared p ?_⟩
      · rwa [hdc, hparameters]
      · rw [needs, hd, Option.map_some, hdc, ← usedBy_unstreamed, hop, usedBy_unstreamed] at hp
        rwa [needs, hc]

/-! ### Ending a region -/

/-- The composites with one of them changed, but neither what it declares nor its members, up to
names of streams. -/
def Retouched (k : Nat) (cs cs' : List Composite) : Prop :=
  ∃ f : Composite → Composite, cs' = cs.modify k f ∧ ∀ c, (f c).parameters = c.parameters ∧
    (f c).members.map Member.unstreamed = c.members.map Member.unstreamed

theorem Retouched.map_parameters {cs' : List Composite} (h : Retouched k cs cs') (j : Nat) :
    cs'[j]?.map Composite.parameters = cs[j]?.map Composite.parameters := by
  obtain ⟨f, rfl, hf⟩ := h
  rw [List.getElem?_modify]
  cases cs[j]? with
  | none => rfl
  | some c =>
    by_cases hk : k = j
    · simp [hk, (hf c).1]
    · simp [hk]

/-- Every composite was there before, up to names of streams. -/
theorem Retouched.exists_before {cs' : List Composite} (h : Retouched k cs cs') (hc : c ∈ cs') :
    ∃ d ∈ cs, c.parameters = d.parameters ∧
      c.members.map Member.unstreamed = d.members.map Member.unstreamed := by
  obtain ⟨f, rfl, hf⟩ := h
  obtain ⟨j, hj⟩ := List.mem_iff_getElem?.mp hc
  rw [List.getElem?_modify] at hj
  obtain ⟨d, hd, hcd⟩ := Option.map_eq_some_iff.mp hj
  refine ⟨d, List.mem_of_getElem? hd, ?_⟩
  split at hcd
  · exact hcd ▸ hf d
  · exact hcd ▸ ⟨rfl, rfl⟩

theorem unstreamed_left {endInput : Option String} :
    (left endInput c).members.map Member.unstreamed = c.members.map Member.unstreamed := by
  cases endInput with
  | none => rfl
  | some name =>
    refine List.map_map.trans (List.map_congr_left fun m _ => ?_)
    exact unstreamed_renameMemberOutput

theorem usedBy_passParameters (h : p ∈ usedBy values (passParameters ps op)) :
    p ∈ usedBy values op := by
  rw [mem_usedBy] at h ⊢
  exact h.imp_right fun h => h.imp_left submissions_passed

/-- An operator with the output ports of another uses what either of them uses. -/
theorem usedBy_outputs {a : Operator} {rs : List OutputPort}
    (hrs : rs.map OutputPort.schemaless = a.outputs.map OutputPort.schemaless)
    (h : p ∈ usedBy values { op with outputs := rs }) :
    p ∈ usedBy values op ∨ p ∈ usedBy values a := by
  rw [mem_usedBy] at h
  simp only [mem_usedBy]
  rcases h with h | h | ⟨r, hr, hp⟩ | h
  · exact Or.inl (Or.inl h)
  · exact Or.inl (Or.inr (Or.inl h))
  · obtain ⟨r', hr', hsame⟩ := List.mem_map.mp (hrs ▸ List.mem_map_of_mem hr)
    have hassigns : r'.schemaless.assigns = r.schemaless.assigns :=
      congrArg OutputPort.assigns hsame
    exact Or.inr (Or.inr (Or.inr (Or.inl ⟨r', hr', hassigns ▸ hp⟩)))
  · exact Or.inl (Or.inr (Or.inr (Or.inr h)))

/-- What ending a region does: what its composite declares is passed on, and the invocation takes
over the assignments of an end. -/
theorem yields_closeRegion (values : SubmissionValues) {exit : Option Handle}
    (h : Yields (closeRegion k exit inv) s op s') :
    Renamed s.graph s'.graph ∧ Retouched k s.composites s'.composites ∧
      op.parameters =
        ((s.composites[k]?.map Composite.parameters).getD []).foldl passParameter inv.parameters ∧
      ∀ p ∈ usedBy values op, p ∈ usedBy values inv ∨
        ∃ e a, s.graph.get? e = some a ∧ p ∈ usedBy values a := by
  rw [closeRegion, yields_bind] at h
  obtain ⟨_, t, hin, h⟩ := h
  obtain rfl := yields_modify.mp hin
  rw [yields_get_bind] at h
  have hentered : Retouched k s.composites (s.composites.modify k fun c =>
      { c with inputName := some Composite.parallelInput }) := ⟨_, rfl, fun c => ⟨rfl, rfl⟩⟩
  dsimp only at h
  rw [hentered.map_parameters k] at h
  rcases exit with _ | e
  · obtain ⟨rfl, rfl⟩ := yields_pure.mp h
    exact ⟨.refl _, hentered, rfl, fun p hp => Or.inl (usedBy_passParameters hp)⟩
  · obtain ⟨a, rs, g', ha, hrs, rfl, hupdates, rfl⟩ := yields_leaveRegion h
    refine ⟨renamed_of_renameProducers hupdates, ⟨_, List.modify_modify_eq ..,
      fun c => ⟨rfl, unstreamed_left⟩⟩, rfl, fun p hp => ?_⟩
    exact (usedBy_outputs hrs hp).imp usedBy_passParameters fun hp => ⟨e, a, ha, hp⟩

/-! ### Filling a plan -/

/-- Everything on the way is in scope: operators use what there is, and composites declare nothing
else and supply their members. -/
structure InScope (values : SubmissionValues) (s : Separation) : Prop where
  operators : ∀ x op, s.graph.get? x = some op → ∀ p ∈ op.submissions, p.DeclaredIn values.all
  declared : ∀ c ∈ s.composites, ∀ p ∈ c.parameters, p.DeclaredIn values.all
  supplied : ∀ c ∈ s.composites, ∀ m ∈ c.members, Supplied values s c.parameters m

theorem InScope.usedBy {x : Handle} (h : InScope values s) (hop : s.graph.get? x = some op) :
    ∀ p ∈ usedBy values op, p.DeclaredIn values.all :=
  fun _ => declaredIn_of_usedBy (h.operators x op hop)

/-- A step keeps everything in scope if the composites behind it were there before, or are supplied
already. -/
theorem InScope.step (h : InScope values s) (hst : Continues s t)
    (hnew : ∀ c ∈ t.composites,
      (∃ d ∈ s.composites, c.parameters = d.parameters ∧
        c.members.map Member.unstreamed = d.members.map Member.unstreamed) ∨
      (∀ p ∈ c.parameters, p.DeclaredIn values.all) ∧
        ∀ m ∈ c.members, Supplied values s c.parameters m) : InScope values t := by
  refine ⟨fun x op hop p hp => ?_, fun c hc => ?_, fun c hc m hm => ?_⟩
  · obtain ⟨a, ha, hsame⟩ := hst.renamed.exists_operator hop
    refine h.operators x a ha p ?_
    rwa [← submissions_unstreamed, hsame, submissions_unstreamed]
  · rcases hnew c hc with ⟨d, hd, hparameters, _⟩ | ⟨hdeclared, _⟩
    · exact hparameters ▸ h.declared d hd
    · exact hdeclared
  · rcases hnew c hc with ⟨d, hd, hparameters, hmembers⟩ | ⟨_, hsupplied⟩
    · have hmem : m.unstreamed ∈ d.members.map Member.unstreamed :=
        hmembers ▸ List.mem_map_of_mem hm
      obtain ⟨m₀, hm₀, hsame⟩ := List.mem_map.mp hmem
      rw [hparameters]
      exact (h.supplied d hd m₀ hm₀).step hst hsame.symm
    · exact (hsupplied m hm).step hst rfl

theorem Retouched.continues (hren : Renamed s.graph t.graph)
    (h : Retouched k s.composites t.composites) : Continues s t := by
  refine ⟨hren, fun j c hc => ?_⟩
  have hmap := h.map_parameters j
  rwa [hc, Option.map_some, Option.map_eq_some_iff] at hmap

theorem openRegion_inScope {x : Handle} {number : Nat} (hs : InScope values s)
    (h : Yields (openRegion x) s (number, inv) s') :
    InScope values s' ∧ Continues s s' ∧ ∀ p ∈ usedBy values inv, p.DeclaredIn values.all := by
  have hren := (openRegion_opens h).1
  obtain ⟨marker, output, g', hmarker, hout, rfl, rfl, _, rfl⟩ := yields_openRegion h
  have hst : Continues s { s with graph := g', count := s.count + 1 } :=
    ⟨hren, fun k c hc => ⟨c, hc, rfl⟩⟩
  refine ⟨hs.step hst fun c hc => Or.inl ⟨c, hc, rfl, rfl⟩, hst, fun p hp => ?_⟩
  -- an invocation has no use of its own yet but its width, which is that of a port of the marker
  rcases mem_usedBy.mp hp with ⟨hfunctional, _⟩ | hp | ⟨r, hr, _⟩ | hp
  · cases hfunctional
  · cases hp
  · cases hr
  · exact hs.operators x marker hmarker p
      (List.mem_append_right _ (List.mem_filterMap.mpr ⟨output, List.mem_of_head? hout, hp⟩))

theorem finish_inScope (hs : InScope values s)
    (hc : ∀ m ∈ c.members, Supplied values s values.all m) (h : Yields (finish values c) s k s') :
    InScope values s' ∧ Continues s s' ∧ ∃ d, s'.composites[k]? = some d := by
  obtain ⟨rfl, ps, hdeclared, rfl⟩ := yields_finish h
  obtain ⟨hps, hneeds⟩ := declaredBy_covers hdeclared fun m hm => (hc m hm).declared
  have hst : Continues s { s with composites := s.composites ++ [{ c with parameters := ps }] } :=
    ⟨.refl _, fun k d hd => ⟨d, List.getElem?_append_left (List.getElem?_eq_some_iff.mp hd).1 ▸ hd,
      rfl⟩⟩
  refine ⟨hs.step hst fun d hd => ?_, hst, { c with parameters := ps }, by simp⟩
  rcases List.mem_append.mp hd with hd | hd
  · exact Or.inl ⟨d, hd, rfl, rfl⟩
  · obtain rfl := List.mem_singleton.mp hd
    exact Or.inr ⟨hps, fun m hm => ⟨(hc m hm).passes, hneeds m hm⟩⟩

theorem closeRegion_inScope {exit : Option Handle} (hs : InScope values s)
    (hinv : ∀ p ∈ usedBy values inv, p.DeclaredIn values.all) (hc : s.composites[k]? = some c)
    (h : Yields (closeRegion k exit inv) s op s') :
    InScope values s' ∧ Continues s s' ∧ Supplied values s' values.all (.invocation op k) := by
  obtain ⟨hren, htouched, hparameters, hused⟩ := yields_closeRegion values h
  have hst := htouched.continues hren
  have hs' := hs.step hst fun d hd => Or.inl (htouched.exists_before hd)
  obtain ⟨d, hd, hdc⟩ := hst.kept k c hc
  refine ⟨hs', hst, ⟨d, hd, fun p hp => ?_⟩, fun p hp => ?_⟩
  · rw [hdc] at hp
    rw [hparameters, hc]
    exact get?_passed (Or.inl hp)
  · rw [needs, hd] at hp
    rcases List.mem_append.mp hp with hp | hp
    · exact hs'.declared d (List.mem_of_getElem? hd) p hp
    · rcases hused p hp with hp | ⟨e, a, ha, hp⟩
      · exact hinv p hp
      · exact hs.usedBy ha p hp

/-- **Filling a plan** keeps everything in scope, and what there is to declare is enough for the
members. -/
theorem fill_inScope {P : Plan} (hs : InScope values s) (h : Yields (fill values P) s ms s') :
    InScope values s' ∧ Continues s s' ∧ ∀ m ∈ ms, Supplied values s' values.all m := by
  induction P generalizing s s' ms with
  | done exit =>
    obtain ⟨rfl, rfl⟩ := yields_pure.mp h
    exact ⟨hs, .refl _, fun m hm => (List.not_mem_nil hm).elim⟩
  | node x rest ih =>
    simp only [fill, yields_bind, yields_pure] at h
    obtain ⟨others, t, hrest, rfl, rfl⟩ := h
    obtain ⟨hs', hst, hothers⟩ := ih hs hrest
    refine ⟨hs', hst, List.forall_mem_cons.mpr ⟨⟨trivial, fun p hp => ?_⟩, hothers⟩⟩
    rw [needs] at hp
    rcases hop : s'.graph.get? x with _ | op
    · rw [hop] at hp
      cases hp
    · rw [hop] at hp
      exact hs'.usedBy hop p hp
  | region x inside rest ihInside ihRest =>
    simp only [fill, yields_bind, yields_pure] at h
    obtain ⟨⟨number, inv⟩, t₁, hopen, members, t₂, hinside, k, t₃, hfinish, op, t₄, hclose, others,
      t₅, hrest, rfl, rfl⟩ := h
    obtain ⟨hs₁, hst₁, hinv⟩ := openRegion_inScope hs hopen
    obtain ⟨hs₂, hst₂, hmembers⟩ := ihInside hs₁ hinside
    obtain ⟨hs₃, hst₃, c, hc⟩ := finish_inScope hs₂ hmembers hfinish
    obtain ⟨hs₄, hst₄, hop⟩ := closeRegion_inScope hs₃ hinv hc hclose
    obtain ⟨hs₅, hst₅, hothers⟩ := ihRest hs₄ hrest
    refine ⟨hs₅, hst₁.trans (hst₂.trans (hst₃.trans (hst₄.trans hst₅))), ?_⟩
    exact List.forall_mem_cons.mpr ⟨hop.step hst₅ rfl, hothers⟩

/-! ### The whole separation -/

/-- When a separation is done, everything is in scope. -/
theorem separate_inScope (hs : InScope values s) (h : Yields (separate values) s cs s') :
    InScope values s' ∧ cs = s'.composites := by
  obtain ⟨root, ms, t, k, _, _, hfill, hfinish, hcs⟩ := yields_separate.mp h
  obtain ⟨ht, _, hms⟩ := fill_inScope hs hfill
  exact ⟨(finish_inScope ht hms hfinish).1, hcs⟩

end Separation

/-- What the operators of a graph use has the name of a submission parameter of the graph. -/
def Graph.Scoped (g : Graph) : Prop :=
  ∀ x op, g.get? x = some op → ∀ p ∈ op.submissions, p.DeclaredIn g.parameters.submissions

namespace Submission

variable {p : SubmissionParameter} {text : String}

/-- A reference is a dollar sign and the composite name. -/
theorem reference_eq (name : String) : reference name = "$" ++ compositeName name := rfl

/-- Either definition begins with the declaration. -/
theorem definition_declares (h : mainDefinition p = .ok text ∨ innerDefinition p = .ok text) :
    ∃ type rest, text = declaration p type ++ rest := by
  rcases h with h | h
  · obtain ⟨type, _, h⟩ := bind_eq_ok.mp h
    obtain ⟨arguments, _, h⟩ := bind_eq_ok.mp h
    obtain rfl := pure_eq_ok.mp h
    exact ⟨type, " : (" ++ type.typeText ++ ") getSubmissionTimeValue(" ++ arguments ++ ")",
      by simp only [String.append_assoc]⟩
  · obtain ⟨type, _, rfl⟩ := map_eq_ok.mp h
    exact ⟨type, "", String.append_empty.symm⟩

end Submission

/-- **The line that declares a submission parameter**, in the main composite or in another one,
declares what a reference refers to: the composite name, behind a dollar sign. -/
theorem Application.declarationLine_declares {c : Composite} {p : SubmissionParameter}
    {line : String} (h : declarationLine c p = .ok line) : ∃ type rest,
      line = "  expression<" ++ type ++ "> $" ++ Submission.compositeName p.name ++ rest := by
  have htext : ∃ text, (Submission.mainDefinition p = .ok text ∨
      Submission.innerDefinition p = .ok text) ∧ line = "  " ++ text ++ ";\n" := by
    rw [declarationLine] at h
    split at h
    · obtain ⟨text, htext, h⟩ := bind_eq_ok.mp h
      exact ⟨text, Or.inl htext, (pure_eq_ok.mp h).symm⟩
    · obtain ⟨text, htext, h⟩ := bind_eq_ok.mp h
      exact ⟨text, Or.inr htext, (pure_eq_ok.mp h).symm⟩
  obtain ⟨text, hdefinition, rfl⟩ := htext
  obtain ⟨type, rest, rfl⟩ := Submission.definition_declares hdefinition
  refine ⟨type.typeText, rest ++ ";\n", String.toList_injective ?_⟩
  simp [Submission.declaration, Submission.reference_eq]

/-- What the members of a composite refer to is declared, and every composite that is invoked is
passed what it declares, from what is declared here. What a declaration declares in the text is the
composite name behind a dollar sign, and this is what is passed. -/
structure Composite.Supplies (values : SubmissionValues) (g : Graph) (cs : List Composite)
    (c : Composite) : Prop where
  declares : ∀ m ∈ c.members, ∀ op, m.operator? g = some op →
    ∀ p, Invocation.RefersTo values op p → p.DeclaredIn c.parameters
  defines : ∀ p ∈ c.parameters, ∀ line, Application.declarationLine c p = .ok line → ∃ type rest,
    line = "  expression<" ++ type ++ "> $" ++ Submission.compositeName p.name ++ rest
  passes : ∀ op k, .invocation op k ∈ c.members → ∃ d, cs[k]? = some d ∧
    ∀ p ∈ d.parameters, ∃ q ∈ c.parameters, q.name = p.name ∧
      op.parameters.get? (Submission.compositeName p.name) =
        some (.expression ("$" ++ Submission.compositeName q.name))

namespace Separation

open StreamTopology.Graph

variable {values : SubmissionValues} {s s' : Separation} {c : Composite} {op : Operator}
  {m : Member} {cs : List Composite} {g : Graph} {p : SubmissionParameter} {count : Nat}

theorem mem_needs_of_refersTo (hop : m.operator? g = some op)
    (h : Invocation.RefersTo values op p) : p ∈ needs values g cs m := by
  have hused : p ∈ usedBy values op := by
    rw [mem_usedBy]
    rcases h with h | h | ⟨_, h⟩ | h
    · exact Or.inr (Or.inl h)
    · exact Or.inr (Or.inr (Or.inl h))
    · exact Or.inr (Or.inr (Or.inr h))
    · exact Or.inl h
  cases m with
  | node x =>
    rw [needs, show g.get? x = some op from hop]
    exact hused
  | invocation op' k =>
    obtain rfl := Option.some.inj hop
    exact List.mem_append_right _ hused

theorem InScope.supplies (hs : InScope values s) (hc : c ∈ s.composites) :
    c.Supplies values s.graph s.composites := by
  refine ⟨fun m hm op hop p hp => ?_, fun _ _ _ => Application.declarationLine_declares,
    fun op k hm => ?_⟩
  · exact (hs.supplied c hc m hm).declared p (mem_needs_of_refersTo hop hp)
  · obtain ⟨⟨d, hd, hpassed⟩, hneeds⟩ := hs.supplied c hc _ hm
    refine ⟨d, hd, fun p hp => ?_⟩
    obtain ⟨q, hq, hname⟩ := hneeds p (by
      rw [needs, hd]
      exact List.mem_append_left _ hp)
    refine ⟨q, hq, hname, ?_⟩
    rw [hpassed p hp, hname, Submission.reference_eq]

/-- **Submission parameters are in scope.** If the submission parameters of a graph load and its
operators use no others, then every composite of a separation that succeeds declares what the text
of its members refers to, and passes on what the composites declare that it invokes. -/
theorem separate_supplies (hvalues : SubmissionValues.ofParameters g.parameters = .ok values)
    (hscoped : g.Scoped)
    (h : Yields (separate values) { graph := g, count := count } cs s') :
    ∀ c ∈ cs, c.Supplies values s'.graph cs := by
  obtain ⟨hs, rfl⟩ := separate_inScope
    ⟨fun x op hop p hp => (SubmissionValues.declaredIn_all hvalues).mpr (hscoped x op hop p hp),
      fun _ hc => (List.not_mem_nil hc).elim, fun _ hc => (List.not_mem_nil hc).elim⟩ h
  exact fun c hc => hs.supplies hc

/-- A chain through a region in a region. The width of each region and the size of the source are
submission parameters, and the operator in the inner region is functional. -/
def scaledRegions : Graph := Graph.reindexed
  { name := "scaledRegions"
    parameters := ⟨[("size", .submission { name := "size" }),
      ("outer", .submission { name := "outer.width" }),
      ("inner", .submission { name := "inner.width" })]⟩
    slots := [
      some { name := "s", kind := "Beacon"
             parameters := ⟨[("iterations", .submission { name := "size" })]⟩
             outputs := [{ name := "so", connections := ["pi"] }] },
      some { name := "p", kind := "$Parallel$"
             inputs := [{ name := "pi", connections := ["so"] }]
             outputs := [{ name := "po", connections := ["qi"],
                           width := some (.parameter (.submission { name := "outer.width" })) }] },
      some { name := "q", kind := "$Parallel$"
             inputs := [{ name := "qi", connections := ["po"] }]
             outputs := [{ name := "qo", connections := ["bi"],
                           width := some (.parameter (.submission { name := "inner.width" })) }] },
      some { name := "b", kind := "Map", model := some "functional"
             inputs := [{ name := "bi", connections := ["qo"] }]
             outputs := [{ name := "bo", connections := ["fi"] }] },
      some { name := "f", kind := "$EndParallel$"
             inputs := [{ name := "fi", connections := ["bo"] }]
             outputs := [{ name := "fo", connections := ["ei"] }] },
      some { name := "e", kind := "$EndParallel$"
             inputs := [{ name := "ei", connections := ["fo"] }]
             outputs := [{ name := "eo", connections := [] }] }]
    order := (List.range 6).map Handle.mk }

/-- The submission parameters of that graph. -/
def scaledValues : SubmissionValues :=
  ⟨[{ name := "size" }, { name := "outer.width" }, { name := "inner.width" }]⟩

/-- The plan of that graph. -/
def scaledPlan : Plan :=
  .node ⟨0⟩ (.region ⟨1⟩
    (.region ⟨2⟩ (.node ⟨3⟩ (.done (some ⟨4⟩))) (.done (some ⟨5⟩)))
    (.done none))

theorem scaledRegions_values :
    SubmissionValues.ofParameters scaledRegions.parameters = .ok scaledValues := by
  decide

theorem scaledRegions_scoped : scaledRegions.Scoped := by
  have hg : scaledRegions.WellFormed :=
    .ofDescription (d := scaledRegions.toDescription) (by decide)
  have hall : ∀ op ∈ scaledRegions.operators, ∀ p ∈ op.submissions,
      ∃ q ∈ scaledRegions.parameters.submissions, q.name = p.name := by decide
  exact fun x op hop => hall op ((mem_operators hg).mpr ⟨x, hop⟩)

theorem scaledRegions_separate :
    ∃ cs s', Yields (separate scaledValues) { graph := scaledRegions, count := 0 } cs s' := by
  have hplan : scaledRegions.plan = .ok scaledPlan :=
    planFrom_of_within (n := 10) (by decide)
  exact exists_separate hplan rfl (by decide +kernel)

theorem separate_supplies_scaledRegions :
    SubmissionValues.ofParameters scaledRegions.parameters = .ok scaledValues ∧
      scaledRegions.Scoped ∧
      ∃ cs s', Yields (separate scaledValues) { graph := scaledRegions, count := 0 } cs s' ∧
        ∀ c ∈ cs, c.Supplies scaledValues s'.graph cs := by
  obtain ⟨cs, s', hrun⟩ := scaledRegions_separate
  exact ⟨scaledRegions_values, scaledRegions_scoped, cs, s', hrun,
    separate_supplies scaledRegions_values scaledRegions_scoped hrun⟩

end Separation

end StreamTopology
