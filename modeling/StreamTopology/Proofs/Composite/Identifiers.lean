import StreamTopology.Proofs.Composite.Declarations
import StreamTopology.Proofs.Text.Identifier

/-!
# Identifiers of submission parameters

A composite declares each submission parameter once, by name, but the text declares, refers to and
passes on an identifier that is made from the name, and different names may have the same one. There
are two ways. Dots count as underscores, so that `app.width` and `app_width` are the same. And a
legal name may be what another one is escaped to, as `a_u002db` is for `a-b`.

Nothing in a separation looks at identifiers, so nothing rules such pairs out: a composite is free
of them exactly if what is used in it is. On a graph whose operators use submission parameters of
the graph only, this comes down to the names of these, because the main composite declares them all.

## Main definitions

* `Submission.Alike`: two names that a text does not tell apart.
* `SubmissionParameter.Unambiguous`: no two submission parameters have the same composite name.
* `SubmissionParameter.Apart`: no two different names are alike.

## Main results

* `Submission.compositeName_eq_iff`: when two names have the same composite name.
* `Separation.separate_unambiguous_iff`: when all composites of a separation are unambiguous.
-/

namespace StreamTopology

namespace Submission

variable {m n : String}

/-- The name with its dots as underscores. -/
def underscored (name : String) : String :=
  String.ofList (name.toList.map fun c => if c = '.' then '_' else c)

/-- Up to dots and underscores, the names are the same or one is the identifier of the other. -/
def Alike (m n : String) : Prop :=
  underscored m = underscored n ∨ underscored m = Identifier.ofName (underscored n) ∨
    Identifier.ofName (underscored m) = underscored n

instance : Decidable (Alike m n) := inferInstanceAs (Decidable (_ ∨ _ ∨ _))

/-- **Names that are alike** are those with the same composite name. -/
theorem compositeName_eq_iff : compositeName m = compositeName n ↔ Alike m n := by
  refine Iff.trans ⟨fun h => ?_, congrArg ("__spl_stv_" ++ ·)⟩ Identifier.ofName_eq_iff
  exact (String.append_right_inj _).mp h

/-- References tell apart what composite names do. -/
theorem reference_eq_iff : reference m = reference n ↔ compositeName m = compositeName n :=
  String.append_right_inj "$"

end Submission

namespace SubmissionParameter

variable {ps qs : List SubmissionParameter}

/-- No two of the submission parameters have the same composite name. -/
def Unambiguous (ps : List SubmissionParameter) : Prop :=
  ∀ p ∈ ps, ∀ q ∈ ps,
    Submission.compositeName p.name = Submission.compositeName q.name → p = q

/-- No two different names are alike. -/
def Apart (ps : List SubmissionParameter) : Prop :=
  ∀ p ∈ ps, ∀ q ∈ ps, Submission.Alike p.name q.name → p.name = q.name

instance : Decidable (Apart ps) :=
  inferInstanceAs (Decidable (∀ p ∈ ps, ∀ q ∈ ps, Submission.Alike p.name q.name → _ = _))

theorem apart_nil : Apart [] := fun _ hp => (List.not_mem_nil hp).elim

/-- Names among others that are apart are apart. -/
theorem Apart.mono (hqs : Apart qs) (h : ∀ p ∈ ps, p.DeclaredIn qs) : Apart ps := by
  intro p hp q hq halike
  obtain ⟨p', hp', hpname⟩ := h p hp
  obtain ⟨q', hq', hqname⟩ := h q hq
  rw [← hpname, ← hqname] at halike ⊢
  exact hqs p' hp' q' hq' halike

/-- Only the names count. -/
theorem apart_congr (h : ∀ p : SubmissionParameter, p.DeclaredIn ps ↔ p.DeclaredIn qs) :
    Apart ps ↔ Apart qs :=
  ⟨fun hps => hps.mono fun p hp => (h p).mpr (declaredIn_self hp),
    fun hqs => hqs.mono fun p hp => (h p).mp (declaredIn_self hp)⟩

/-- Where each name is declared once, different submission parameters have different names. -/
theorem unambiguous_iff_apart (hnodup : (ps.map name).Nodup) : Unambiguous ps ↔ Apart ps := by
  constructor
  · intro h p hp q hq halike
    rw [h p hp q hq (Submission.compositeName_eq_iff.mpr halike)]
  · intro h p hp q hq hname
    have hsame := h p hp q hq (Submission.compositeName_eq_iff.mp hname)
    exact List.inj_on_of_nodup_map hnodup hp hq hsame

end SubmissionParameter

open SubmissionParameter

variable {values : SubmissionValues} {g : Graph} {P : Plan} {op : Operator}
  {p : SubmissionParameter} {uses ps : List SubmissionParameter} {x : Handle}
  {exit : Option Handle}

/-- What declares the uses is unambiguous if no different names among the uses are alike. -/
theorem Declares.unambiguous_iff (h : Declares values uses ps) :
    Unambiguous ps ↔ (values.isEmpty = false → Apart uses) := by
  rw [unambiguous_iff_apart h.nodup]
  by_cases hvalues : values.isEmpty = false
  · rw [forall_prop_of_true hvalues]
    exact apart_congr fun p => (h.names p).trans (and_iff_right hvalues)
  · refine iff_of_true (apart_nil.mono fun p hp => ?_) fun h => absurd h hvalues
    exact absurd ((h.names p).mp (declaredIn_self hp)).1 hvalues

/-! ### Uses in scope -/

theorem Operator.mem_submissions_of_regionWidth (h : op.regionWidth? = some p) :
    p ∈ op.submissions := by
  obtain ⟨output, houtput, hwidth⟩ := Option.bind_eq_some_iff.mp h
  exact List.mem_append_right _
    (List.mem_filterMap.mpr ⟨output, List.mem_of_head? houtput, hwidth⟩)

theorem Operator.mem_submissions_of_assigned (h : p ∈ op.assigned) : p ∈ op.submissions := by
  simp only [submissions, List.mem_append]
  exact Or.inl (Or.inl (Or.inr h))

/-- An invocation uses what operators of the graph use. -/
theorem Graph.exists_of_mem_invocationUses (h : p ∈ g.invocationUses x exit) :
    ∃ y op, g.get? y = some op ∧ p ∈ op.submissions := by
  rw [Graph.invocationUses, List.mem_append, Option.mem_toList] at h
  rcases h with h | h
  · obtain ⟨op, hop, hwidth⟩ := Option.bind_eq_some_iff.mp h
    exact ⟨x, op, hop, op.mem_submissions_of_regionWidth hwidth⟩
  · rcases hend : exit.bind g.get? with _ | op
    · rw [hend] at h
      exact (List.not_mem_nil h).elim
    · rw [hend] at h
      obtain ⟨e, _, hop⟩ := Option.bind_eq_some_iff.mp hend
      exact ⟨e, op, hop, op.mem_submissions_of_assigned h⟩

/-- What is used in a composite has the name of a submission parameter of the topology. -/
theorem Plan.declaredIn_of_uses
    (hscope : ∀ x op, g.get? x = some op → ∀ p ∈ op.submissions, p.DeclaredIn values.all) :
    ∀ p ∈ P.uses values g, p.DeclaredIn values.all := by
  induction P with
  | done exit => exact fun p hp => (List.not_mem_nil hp).elim
  | node x rest ih =>
    refine List.forall_mem_append.mpr ⟨fun p hp => ?_, ih⟩
    rcases hop : g.get? x with _ | op
    · rw [hop] at hp
      exact (List.not_mem_nil hp).elim
    · rw [hop] at hp
      exact Separation.declaredIn_of_usedBy (hscope x op hop) hp
  | region x inside rest ihInside ihRest =>
    refine List.forall_mem_append.mpr
      ⟨List.forall_mem_append.mpr ⟨ihInside, fun p hp => ?_⟩, ihRest⟩
    obtain ⟨y, op, hop, hp⟩ := Graph.exists_of_mem_invocationUses hp
    exact hscope y op hop p hp

/-! ### Separations -/

/-- A condition on the members of a list, read on another list member by member. -/
theorem forall_mem_iff_of_forall₂ {α β : Type} {R : α → β → Prop} {A : α → Prop} {B : β → Prop}
    {as : List α} {bs : List β} (h : List.Forall₂ R as bs) (hiff : ∀ a b, R a b → (B b ↔ A a)) :
    (∀ b ∈ bs, B b) ↔ ∀ a ∈ as, A a := by
  induction h with
  | nil => simp
  | cons hab _ ih => rw [List.forall_mem_cons, List.forall_mem_cons, hiff _ _ hab, ih]

namespace Separation

variable {cs : List Composite} {s' : Separation} {count : Nat}

/-- **When composites are unambiguous.** If the submission parameters of a graph load and the
separation succeeds, then no composite declares two submission parameters of one composite name
exactly if no two of the graph have names that are alike, and no two that are used in one region.
The second condition matters only where operators use what the graph does not have. -/
theorem separate_unambiguous_iff
    (hvalues : SubmissionValues.ofParameters g.parameters = .ok values)
    (h : Yields (separate values) { graph := g, count := count } cs s') :
    ∃ P, g.plan = .ok P ∧
      ((∀ c ∈ cs, Unambiguous c.parameters) ↔ Apart g.parameters.submissions ∧
        (values.isEmpty = false → ∀ I ∈ P.inner, Apart (I.2.uses values g))) ∧
      (g.Scoped → ((∀ c ∈ cs, Unambiguous c.parameters) ↔ Apart g.parameters.submissions)) := by
  obtain ⟨P, declared, hplan, hdeclared, hinner⟩ := separate_declares h
  have hall : Apart values.all ↔ Apart g.parameters.submissions :=
    apart_congr fun _ => SubmissionValues.declaredIn_all hvalues
  have hmain : Unambiguous values.all ↔ Apart values.all :=
    unambiguous_iff_apart (SubmissionValues.nodup_all hvalues)
  have hregions : (∀ ps ∈ declared, Unambiguous ps) ↔
      ∀ I ∈ P.inner, values.isEmpty = false → Apart (I.2.uses values g) :=
    forall_mem_iff_of_forall₂ hinner fun _ _ hI => hI.unambiguous_iff
  have hiff : (∀ c ∈ cs, Unambiguous c.parameters) ↔ Apart g.parameters.submissions ∧
      (values.isEmpty = false → ∀ I ∈ P.inner, Apart (I.2.uses values g)) := by
    rw [← List.forall_mem_map (f := Composite.parameters), hdeclared, List.forall_mem_append,
      List.forall_mem_singleton, hmain, hall, hregions, and_comm]
    exact and_congr_right fun _ => ⟨fun h hne I hI => h I hI hne, fun h I hI hne => h hne I hI⟩
  refine ⟨P, hplan, hiff, fun hscoped => hiff.trans (and_iff_left_of_imp fun hapart _ I _ => ?_)⟩
  refine (hall.mpr hapart).mono (Plan.declaredIn_of_uses fun x op hop p hp => ?_)
  exact (SubmissionValues.declaredIn_all hvalues).mpr (hscoped x op hop p hp)

theorem separate_unambiguous_iff_scaledRegions :
    SubmissionValues.ofParameters scaledRegions.parameters = .ok scaledValues ∧
      ∃ cs s', Yields (separate scaledValues) { graph := scaledRegions, count := 0 } cs s' ∧
        ∀ c ∈ cs, Unambiguous c.parameters := by
  obtain ⟨cs, s', hrun⟩ := scaledRegions_separate
  obtain ⟨_, _, _, hscoped⟩ := separate_unambiguous_iff scaledRegions_values hrun
  exact ⟨scaledRegions_values, cs, s', hrun, (hscoped scaledRegions_scoped).mpr (by decide)⟩

/-- A topology with a source and two submission parameters, whose names differ in a dot only. -/
def dottedTwin : Graph := Graph.reindexed
  { name := "dottedTwin"
    parameters := ⟨[("app.width", .submission { name := "app.width", metaType := some "INT32" }),
      ("app_width", .submission { name := "app_width", metaType := some "INT32" })]⟩
    slots := [some { name := "s", kind := "Beacon" }]
    order := [⟨0⟩] }

/-- The submission parameters of that topology. -/
def dottedTwinValues : SubmissionValues :=
  ⟨[{ name := "app.width", metaType := some "INT32" },
    { name := "app_width", metaType := some "INT32" }]⟩

theorem dottedTwin_separate :
    ∃ cs s', Yields (separate dottedTwinValues) { graph := dottedTwin, count := 0 } cs s' := by
  have hplan : dottedTwin.plan = .ok (.node ⟨0⟩ (.done none)) :=
    Graph.planFrom_of_within (n := 3) (by decide)
  exact exists_separate hplan rfl (by decide +kernel)

/-- **The composite of a source declares an identifier twice.** -/
theorem dottedTwin_ambiguous :
    SubmissionValues.ofParameters dottedTwin.parameters = .ok dottedTwinValues ∧
      ∃ cs s', Yields (separate dottedTwinValues) { graph := dottedTwin, count := 0 } cs s' ∧
        ∃ c ∈ cs, ∃ p ∈ c.parameters, ∃ q ∈ c.parameters, p.name ≠ q.name ∧
          Submission.compositeName p.name = Submission.compositeName q.name ∧
          Submission.reference p.name = Submission.reference q.name := by
  obtain ⟨cs, s', hrun⟩ := dottedTwin_separate
  obtain ⟨_, declared, _, hdeclared, _⟩ := separate_declares hrun
  have hmain : dottedTwinValues.all ∈ cs.map Composite.parameters := by
    rw [hdeclared]
    exact List.mem_append_right _ (List.mem_singleton_self _)
  obtain ⟨c, hc, hparameters⟩ := List.mem_map.mp hmain
  have hname := Submission.compositeName_eq_iff.mpr
    (show Submission.Alike "app.width" "app_width" by decide)
  refine ⟨by decide, cs, s', hrun, c, hc, ?_⟩
  rw [hparameters]
  exact ⟨_, List.mem_cons_self, _, List.mem_cons_of_mem _ List.mem_cons_self, by decide, hname,
    Submission.reference_eq_iff.mpr hname⟩

end Separation

end StreamTopology
