import StreamTopology.Proofs.Passes.Preparation
import StreamTopology.Proofs.Passes.Relocation
import StreamTopology.Proofs.Passes.Success

/-!
# The ends of regions after preparation

Preparation begins by checking that the end of every region has one parent, and that this parent has
no other child. What comes after can undo that: where the parent is a marker that is taken out, the
end gets the parents of the marker instead, and the children of these.

Which ends keep their shape is read off the graph before. A hash adder that was behind the end
stands in front of it afterwards, and then all is well, whatever else is taken out. Without one, the
operators count that lead to the end through markers that go.

## Main results

* `Graph.Relocated.sealedThrough_iff`: the shape before the hash adders are moved.
* `Preparation.run_sealed_iff`: the ends that keep their shape.
* `hiddenUnion_unseals`: one that does not.
-/

namespace StreamTopology

section

variable {α : Type} {R F : α → α → Prop} {A B : α → Prop} {x y : α}

/-- Chains are found again in another place. -/
theorem bridged_perm {π : Equiv.Perm α} (hF : ∀ x y, F x y ↔ R (π x) (π y))
    (hB : ∀ z, B z ↔ A (π z)) : Bridged F B x y ↔ Bridged R A (π x) (π y) := by
  constructor
  · intro h
    induction h with
    | direct h => exact .direct ((hF _ _).mp h)
    | through into hz _ ih => exact .through ((hF _ _).mp into) ((hB _).mp hz) ih
  · suffices ∀ x' y', Bridged R A x' y' → Bridged F B (π.symm x') (π.symm y') by
      intro h
      simpa using this _ _ h
    intro x' y' h
    induction h with
    | direct h => exact .direct ((hF _ _).mpr (by simpa using h))
    | through into hz _ ih =>
      exact .through ((hF _ _).mpr (by simpa using into)) ((hB _).mpr (by simpa using hz)) ih

end

namespace Graph

variable {g t : Graph} {e h x : Handle} {es : List Handle} {π : Equiv.Perm Handle}
  {gone gone' : Handle → Prop}

theorem sealedThrough_perm (hfeeds : ∀ x y, t.Feeds x y ↔ g.Feeds (π x) (π y))
    (hgone : ∀ x, gone' x ↔ gone (π x)) :
    t.SealedThrough gone' e ↔ g.SealedThrough gone (π e) := by
  have hchain : ∀ x y, Bridged t.Feeds gone' x y ↔ Bridged g.Feeds gone (π x) (π y) :=
    fun x y => bridged_perm hfeeds hgone
  refine Iff.trans (exists_congr fun p => ?_) π.exists_congr_right
  refine and_congr (not_congr (hgone p)) (and_congr ?_ ?_)
  · refine Iff.trans (forall_congr' fun x => ?_) π.forall_congr_right
    rw [hgone, hchain, π.apply_eq_iff_eq]
  · refine Iff.trans (forall_congr' fun y => ?_) π.forall_congr_right
    rw [hgone, hchain, π.apply_eq_iff_eq]

/-- Ends and plain operators are not consumed. -/
theorem not_marked_of_end (he : g.marker? e = some .endParallel) :
    ¬ g.Marked Marker.consumed e := by
  rintro ⟨m, hm, hmarker⟩
  obtain rfl := Option.some.inj (he.symm.trans hmarker)
  revert hm
  decide

theorem not_marked_of_plain {ms : List Marker} (hx : g.marker? x = none) : ¬ g.Marked ms x := by
  rintro ⟨m, _, hmarker⟩
  rw [hx] at hmarker
  cases hmarker

section

variable (hr : g.Relocatable) (hrel : g.Relocated es π t)

include hr hrel

/-- What is consumed is not exchanged. -/
theorem Relocated.marked_iff : t.Marked Marker.consumed x ↔ g.Marked Marker.consumed (π x) := by
  have hsame : t.Marked Marker.consumed x ↔ g.Marked Marker.consumed x := by
    rw [Marked, Marked, marker?_congr (hrel.kind x)]
  rw [hsame]
  by_cases hx : g.Exchanged es x
  · obtain ⟨e, he, h, hh, rfl | rfl⟩ := hx
    · rw [(hrel.moved x h hh he).1]
      exact iff_of_false (not_marked_of_end hh.isEnd) (not_marked_of_plain (hr.plain x h hh))
    · rw [(hrel.moved e x hh he).2]
      exact iff_of_false (not_marked_of_plain (hr.plain e x hh)) (not_marked_of_end hh.isEnd)
  · rw [hrel.still x hx]

/-- **The shape before the hash adders are moved.** -/
theorem Relocated.sealedThrough_iff (hg : g.WellFormed) (hi : g.Indexed) (ha : g.Agrees)
    (hall : ∀ e h, g.Behind e h → e ∈ es) (he : g.marker? e = some .endParallel) :
    t.SealedThrough (t.Marked Marker.consumed) e ↔
      (∃ h, g.Behind e h) ∨ g.SealedThrough (g.Marked Marker.consumed) e := by
  rw [sealedThrough_perm hrel.feeds fun x => hrel.marked_iff hr]
  by_cases hbehind : ∃ h, g.Behind e h
  · obtain ⟨h, hh⟩ := hbehind
    rw [(hrel.moved e h hh (hall e h hh)).1]
    refine iff_of_true (Sealed.sealedThrough hg hi ha ⟨e, hh.parents, hh.children⟩
      (not_marked_of_plain (hr.plain e h hh)) fun p hp => ?_) (Or.inl ⟨h, hh⟩)
    rw [hh.parents, List.mem_singleton] at hp
    exact hp ▸ not_marked_of_end he
  · have hx : ¬ g.Exchanged es e := by
      rintro ⟨e', _, h, hh, rfl | rfl⟩
      · exact hbehind ⟨h, hh⟩
      · exact hr.adder_ne_end hh he rfl
    rw [hrel.still e hx, or_iff_right hbehind]

end

end Graph

namespace Preparation

variable {w w' : Workspace} {stats : Stats} {e : Handle}

section

variable (hg : w.graph.WellFormed) (hi : w.graph.Indexed) (hco : w.graph.Coherent)
  (hr : w.graph.Relocatable) (hrun : Yields run w stats w')

include hg hi hco hr hrun

/-- A run that succeeds moves hash adders and then sheds the markers that are consumed. -/
theorem run_stages : ∃ g es π, w.graph.Relocated es π g ∧
    (∀ e h, w.graph.Behind e h → e ∈ es) ∧ g.Sheds Marker.consumed w'.graph := by
  obtain ⟨hcheck, g, hrelocate, hsheds⟩ := run_sheds hrun
  have hsealed := (Graph.checkRegionEnds_eq_ok_iff hg hi hco.agrees).mp hcheck
  obtain ⟨es, π, hrel, hall⟩ :=
    HashAdders.relocate_relocated hg hi hco hr.exchangeable hsealed hrelocate
  exact ⟨g, es, π, hrel, hall, hsheds hrel.wellFormed hrel.indexed hrel.coherent⟩

/-- No end comes or goes. -/
theorem run_ends : w'.graph.marker? e = some .endParallel ↔
    w.graph.marker? e = some .endParallel := by
  obtain ⟨g, es, π, hrel, _, hshed⟩ := run_stages hg hi hco hr hrun
  have hsame : g.marker? e = w.graph.marker? e := Graph.marker?_congr (hrel.kind e)
  by_cases hgone : g.Marked Marker.consumed e
  · refine iff_of_false (fun he => ?_) fun he => ?_
    · rw [Graph.marker?, hshed.vacated e hgone] at he
      cases he
    · exact Graph.not_marked_of_end (hsame.trans he) hgone
  · rw [Graph.marker?_congr (hshed.kind e hgone), hsame]

/-- **The ends that keep their shape.** After a run that succeeds, an end has one parent that has no
other child exactly if a hash adder was behind it, or if one operator led to it, and to nothing
else, through the markers that have been taken out. -/
theorem run_sealed_iff (he : w'.graph.marker? e = some .endParallel) :
    w'.graph.Sealed e ↔ (∃ h, w.graph.Behind e h) ∨
      w.graph.SealedThrough (w.graph.Marked Marker.consumed) e := by
  have he' := (run_ends hg hi hco hr hrun).mp he
  obtain ⟨g, es, π, hrel, hall, hshed⟩ := run_stages hg hi hco hr hrun
  have hstays : ¬ g.Marked Marker.consumed e :=
    Graph.not_marked_of_end ((Graph.marker?_congr (hrel.kind e)).trans he')
  rw [hshed.sealed_iff hstays]
  exact hrel.sealedThrough_iff hr hg hi hco.agrees hall he'

end

end Preparation

/-! ### Examples -/

/-- Two regions one after the other, with a hash adder between them. -/
def chainedRegions : Graph := Graph.reindexed
  { name := "chainedRegions"
    slots := [
      some { name := "s", kind := "Beacon"
             outputs := [{ name := "so", connections := ["vi"] }] },
      some { name := "v", kind := "$Pending$"
             inputs := [{ name := "vi", connections := ["so"] }]
             outputs := [{ name := "vo", connections := ["pi"] }] },
      some { name := "p", kind := "$Parallel$"
             inputs := [{ name := "pi", connections := ["vo"] }]
             outputs := [{ name := "po", connections := ["ai"], width := some (.fixed 2) }] },
      some { name := "a", kind := "Custom"
             inputs := [{ name := "ai", connections := ["po"] }]
             outputs := [{ name := "ao", connections := ["ei"] }] },
      some { name := "e", kind := "$EndParallel$"
             inputs := [{ name := "ei", connections := ["ao"] }]
             outputs := [{ name := "eo", connections := ["hi"] }] },
      some { name := "h", kind := "Functor", hashAdder := true
             inputs := [{ name := "hi", connections := ["eo"] }]
             outputs := [{ name := "ho", connections := ["qi"] }] },
      some { name := "q", kind := "$Parallel$"
             inputs := [{ name := "qi", connections := ["ho"] }]
             outputs := [{ name := "qo", connections := ["bi"], width := some (.fixed 2)
                           partitioned := true }] },
      some { name := "b", kind := "Custom"
             inputs := [{ name := "bi", connections := ["qo"] }]
             outputs := [{ name := "bo", connections := ["fi"] }] },
      some { name := "f", kind := "$EndParallel$"
             inputs := [{ name := "fi", connections := ["bo"] }]
             outputs := [{ name := "fo", connections := ["zi"] }] },
      some { name := "z", kind := "Custom"
             inputs := [{ name := "zi", connections := ["fo"] }] }]
    order := (List.range 10).map Handle.mk }

theorem chainedRegions_ofDescription :
    Graph.ofDescription chainedRegions.toDescription = .ok chainedRegions := by decide

theorem chainedRegions_coherent : chainedRegions.Coherent := by decide

theorem chainedRegions_relocatable : chainedRegions.Relocatable := by
  have hg := Graph.WellFormed.ofDescription chainedRegions_ofDescription
  have hone : ∀ e h, chainedRegions.Behind e h → h = ⟨5⟩ := by
    intro e h hh
    have hall : ∀ e ∈ chainedRegions.markers .endParallel, ∀ h ∈ chainedRegions.children e,
        chainedRegions.Behind e h → h = ⟨5⟩ := by decide
    refine hall e ((Graph.mem_markers hg).mpr hh.isEnd) h ?_ hh
    rw [hh.children]
    exact List.mem_singleton_self h
  refine ⟨fun e h hh => ?_, fun e h op hh hop => ?_, fun e h op e' h' op' hh hh' hne => ?_⟩
  · rw [hone e h hh]
    decide
  · obtain rfl := hone e h hh
    have hunused : ∀ op ∈ chainedRegions.get? ⟨5⟩, op.copyInputs.Nodup ∧
        (∀ i ∈ op.copyInputs, (∀ q ∈ chainedRegions.inputPorts, q.name ≠ i) ∧
          ∀ p ∈ chainedRegions.outputPorts, i ∉ p.connections) ∧
        ∀ o ∈ op.copyOutputs, (∀ p ∈ chainedRegions.outputPorts, p.name ≠ o) ∧
          ∀ q ∈ chainedRegions.inputPorts, o ∉ q.connections := by decide
    obtain ⟨hnodup, hin, hout⟩ := hunused op hop
    exact Graph.copyable_of_unused hg hnodup hin hout
  · exact absurd ((hone e h hh).trans (hone e' h' hh').symm) hne

/-- The graph after the hash adder has been moved. -/
def chainedMoved : Graph := (HashAdders.relocate.run.run chainedRegions).2

theorem chainedRegions_relocate : Yields HashAdders.relocate chainedRegions 1 chainedMoved :=
  Prod.ext (by decide) rfl

theorem chainedRegions_sealed :
    ∀ e, chainedRegions.marker? e = some .endParallel → chainedRegions.Sealed e := by
  have hg := Graph.WellFormed.ofDescription chainedRegions_ofDescription
  have hi := Graph.Indexed.ofDescription chainedRegions_ofDescription
  have hcheck : chainedRegions.checkRegionEnds = .ok () := by decide
  exact (Graph.checkRegionEnds_eq_ok_iff hg hi chainedRegions_coherent.agrees).mp hcheck

theorem chainedRegions_run :
    ∃ stats w', Yields Preparation.run { graph := chainedRegions } stats w' := by
  obtain ⟨es, π, hrel, _⟩ := HashAdders.relocate_relocated
    (Graph.WellFormed.ofDescription chainedRegions_ofDescription)
    (Graph.Indexed.ofDescription chainedRegions_ofDescription) chainedRegions_coherent
    chainedRegions_relocatable.exchangeable chainedRegions_sealed chainedRegions_relocate
  have hall : ∀ op ∈ chainedMoved.operators, op.region? = none ∧ op.outputs.length ≤ 1 := by
    decide
  have hop : ∀ x op, chainedMoved.get? x = some op → op.region? = none ∧ op.outputs.length ≤ 1 :=
    fun x op hop => hall op ((Graph.mem_operators hrel.wellFormed).mpr ⟨x, hop⟩)
  have hisolates : chainedMoved.markers .isolate = [] := by decide
  refine Preparation.run_total (by decide) chainedRegions_relocate hrel.wellFormed
    hrel.indexed hrel.coherent (fun x op hx => (hop x op hx).1) (fun m hm => ?_)
    fun x op _ hx => (hop x op hx).2
  rw [hisolates] at hm
  cases hm

/-- The first end gets the hash adder for a parent, and the second keeps the parent it has. -/
theorem run_sealed_iff_chainedRegions :
    ∃ stats w', Yields Preparation.run { graph := chainedRegions } stats w' ∧
      w'.graph.marker? ⟨4⟩ = some .endParallel ∧ w'.graph.Sealed ⟨4⟩ ∧
      w'.graph.marker? ⟨8⟩ = some .endParallel ∧ w'.graph.Sealed ⟨8⟩ := by
  obtain ⟨stats, w', hrun⟩ := chainedRegions_run
  have hg := Graph.WellFormed.ofDescription chainedRegions_ofDescription
  have hi := Graph.Indexed.ofDescription chainedRegions_ofDescription
  have hco := chainedRegions_coherent
  have hr := chainedRegions_relocatable
  have hends : ∀ e, chainedRegions.marker? e = some .endParallel →
      w'.graph.marker? e = some .endParallel :=
    fun e => (Preparation.run_ends hg hi hco hr hrun).mpr
  have he := hends ⟨4⟩ (by decide)
  have hf := hends ⟨8⟩ (by decide)
  have hbehind : chainedRegions.Behind ⟨4⟩ ⟨5⟩ := by decide
  have hthrough : chainedRegions.SealedThrough (chainedRegions.Marked Marker.consumed) ⟨8⟩ :=
    (chainedRegions_sealed ⟨8⟩ (by decide)).sealedThrough hg hi hco.agrees (by decide) (by decide)
  exact ⟨stats, w', hrun, he, (Preparation.run_sealed_iff hg hi hco hr hrun he).mpr
    (Or.inl ⟨⟨5⟩, hbehind⟩), hf, (Preparation.run_sealed_iff hg hi hco hr hrun hf).mpr
    (Or.inr hthrough)⟩

/-- A region whose two branches are united in front of its end. -/
def hiddenUnion : Graph := Graph.reindexed
  { name := "hiddenUnion"
    slots := [
      some { name := "s", kind := "Beacon"
             outputs := [{ name := "so", connections := ["pi"] }] },
      some { name := "p", kind := "$Parallel$"
             inputs := [{ name := "pi", connections := ["so"] }]
             outputs := [{ name := "po", connections := ["ai", "bi"], width := some (.fixed 2) }] },
      some { name := "a", kind := "Custom"
             inputs := [{ name := "ai", connections := ["po"] }]
             outputs := [{ name := "ao", connections := ["ui"] }] },
      some { name := "b", kind := "Custom"
             inputs := [{ name := "bi", connections := ["po"] }]
             outputs := [{ name := "bo", connections := ["ui"] }] },
      some { name := "u", kind := "$Union$"
             inputs := [{ name := "ui", connections := ["ao", "bo"] }]
             outputs := [{ name := "uo", connections := ["ei"] }] },
      some { name := "e", kind := "$EndParallel$"
             inputs := [{ name := "ei", connections := ["uo"] }]
             outputs := [{ name := "eo", connections := ["zi"] }] },
      some { name := "z", kind := "Custom"
             inputs := [{ name := "zi", connections := ["eo"] }] }]
    order := (List.range 7).map Handle.mk }

/-- **An end that loses its shape.** The check sees the union as the only parent of the end; the run
succeeds, and then the end has both branches for parents. -/
theorem hiddenUnion_unseals :
    hiddenUnion.WellFormed ∧ hiddenUnion.Indexed ∧ hiddenUnion.Wired ∧
      ∃ stats w', Yields Preparation.run { graph := hiddenUnion } stats w' ∧
        w'.graph.marker? ⟨5⟩ = some .endParallel ∧ ¬ w'.graph.Sealed ⟨5⟩ := by
  have hof : Graph.ofDescription hiddenUnion.toDescription = .ok hiddenUnion := by decide
  have hg := Graph.WellFormed.ofDescription hof
  have hi := Graph.Indexed.ofDescription hof
  have hw : hiddenUnion.Wired := by decide
  have hcheck : hiddenUnion.checkRegionEnds = .ok () := by decide
  have hrelocate : Yields HashAdders.relocate hiddenUnion 0 hiddenUnion := rfl
  have hall : ∀ op ∈ hiddenUnion.operators, op.region? = none ∧ op.outputs.length ≤ 1 := by decide
  have hop : ∀ x op, hiddenUnion.get? x = some op → op.region? = none ∧ op.outputs.length ≤ 1 :=
    fun x op hop => hall op ((Graph.mem_operators hg).mpr ⟨x, hop⟩)
  have hisolates : hiddenUnion.markers .isolate = [] := by decide
  obtain ⟨stats, w', hrun⟩ := Preparation.run_total (w := { graph := hiddenUnion }) hcheck hrelocate
    hg hi hw.coherent (fun x op hx => (hop x op hx).1)
    (fun m hm => absurd (hisolates ▸ hm) List.not_mem_nil) fun x op _ hx => (hop x op hx).2
  obtain ⟨_, g, hrelocate', hsheds⟩ := Preparation.run_sheds hrun
  obtain ⟨_, rfl⟩ := hrelocate'.unique hrelocate
  have hshed := hsheds hg hi hw.coherent
  have hend : hiddenUnion.marker? ⟨5⟩ = some .endParallel := by decide
  have hstays := Graph.not_marked_of_end hend
  refine ⟨hg, hi, hw, stats, w', hrun, ?_, ?_⟩
  · rw [Graph.marker?_congr (hshed.kind _ hstays)]
    exact hend
  · rw [hshed.sealed_iff hstays]
    rintro ⟨p, -, hparent, -⟩
    have hunion : hiddenUnion.Marked Marker.consumed ⟨4⟩ := by decide
    have hbranch : ∀ x : Handle, ⟨4⟩ ∈ hiddenUnion.children x →
        Bridged hiddenUnion.Feeds (hiddenUnion.Marked Marker.consumed) x ⟨5⟩ := fun x hx =>
      .through ((Graph.mem_children hg hi).mp hx) hunion
        (.direct ((Graph.mem_children hg hi).mp (by decide)))
    have ha := (hparent ⟨2⟩ (by decide)).mp (hbranch ⟨2⟩ (by decide))
    have hb := (hparent ⟨3⟩ (by decide)).mp (hbranch ⟨3⟩ (by decide))
    exact absurd (ha.trans hb.symm) (by decide)

end StreamTopology
