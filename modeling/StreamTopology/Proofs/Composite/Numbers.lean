import StreamTopology.Proofs.Composite.CallTree
import StreamTopology.Proofs.Regions.Taggings

/-!
# The numbers of parallel regions

A separation numbers a region when it opens it. A run of a separation is told by the numbers that it
takes: whatever else it does, it leaves the counter alone, and it leaves operators in their regions,
because all that it changes of operators are their ports. That is so up to the point where it fails,
when it may have opened regions that belong to no composite.

## Main definitions

* `Separation.Numbering`: a run by the numbers that it takes.

## Main results

* `Separation.leaves_numbering`: every run of a separation has a numbering.
-/

namespace StreamTopology

namespace Separation

open StreamTopology.Graph

/-- No number is taken, and operators stay in their regions. -/
def Quiet (s s' : Separation) : Prop :=
  s'.count = s.count ∧ s.graph.Each Operator.SameRegions s'.graph

/-- A run by the numbers that it takes. -/
abbrev Numbering : Separation → List Nat → Separation → Prop :=
  Trace Quiet fun n s s' => Yields freshNumber s n s'

theorem counts_numbers :
    Counts Quiet (fun n s s' => Yields freshNumber s n s') Separation.count some := by
  refine ⟨fun h => h.1, fun h => ?_⟩
  obtain ⟨rfl, rfl⟩ := yields_freshNumber.mp h
  exact Or.inr ⟨rfl, rfl⟩

/-- **Operators stay in their regions** when a graph is separated. -/
theorem Numbering.sameRegions {s s' : Separation} {ns : List Nat} (h : Numbering s ns s') :
    s.graph.Each Operator.SameRegions s'.graph := by
  refine h.preserves (R := Order.Preimage Separation.graph (Each Operator.SameRegions))
    (fun _ _ hq => hq.2) fun n t t' hn => ?_
  obtain ⟨_, rfl⟩ := yields_freshNumber.mp hn
  exact Std.Refl.refl (r := Each Operator.SameRegions) t.graph

/-! ### The steps -/

/-- Some numbers lead from the one state to the other. -/
abbrev Numbered : Separation → Separation → Prop :=
  Traced Quiet fun (n : Nat) s s' => Yields freshNumber s n s'

variable {α : Type} {values : SubmissionValues} {marker : Handle} {position : Nat}

theorem leaves_onGraph {action : GraphM α} (h : Leaves (Each Operator.SameRegions) action) :
    Leaves Numbered (onGraph action) :=
  fun s => ⟨[], .of_quiet ⟨rfl, h s.graph⟩⟩

theorem leaves_update_ports {x : Handle} {f : Operator → Operator}
    (hf : ∀ op, (f op).config = op.config) : Leaves Numbered (onGraph (GraphM.update x f)) := by
  refine leaves_onGraph (leaves_update (each_writes fun op k => ?_))
  cases k with
  | isolate => exact congrArg (fun c => c.placement.isolateRegion?) (hf op)
  | lowLatency => exact congrArg (fun c => c.placement.lowLatencyRegion?) (hf op)

theorem leaves_freshNumber : Leaves Numbered freshNumber :=
  fun s => ⟨[s.count], .of_event (yields_freshNumber.mpr ⟨rfl, rfl⟩)⟩

theorem leaves_openRegion : Leaves Numbered (openRegion marker) := by
  refine leaves_bind leaves_freshNumber fun number =>
    leaves_bind (leaves_onGraph leaves_lookup) fun op => ?_
  split
  · exact leaves_throw _
  · refine leaves_get_bind fun s => leaves_bind (leaves_forM fun start _ => ?_) fun _ =>
      leaves_pure _
    exact leaves_update_ports fun _ => rfl

theorem leaves_finish {c : Composite} : Leaves Numbered (finish values c) := by
  have hneeded : ∀ m, Leaves Numbered (neededBy values m) := by
    intro m
    cases m with
    | node id => exact leaves_bind (leaves_onGraph leaves_lookup) fun _ => leaves_pure _
    | invocation op composite => exact leaves_get_bind fun _ => leaves_pure _
  have hdeclared : Leaves Numbered (declaredBy values c) := by
    unfold declaredBy
    split
    · exact leaves_pure _
    · split
      · exact leaves_pure _
      · exact leaves_bind (leaves_mapM fun m _ => hneeded m) fun _ => leaves_pure _
  refine leaves_bind hdeclared fun parameters s => ?_
  exact ⟨[], .of_quiet ⟨rfl, Std.Refl.refl (r := Each Operator.SameRegions) s.graph⟩⟩

theorem leaves_updateComposite {f : Composite → Composite} :
    Leaves Numbered (updateComposite position f) :=
  fun s => ⟨[], .of_quiet ⟨rfl, Std.Refl.refl (r := Each Operator.SameRegions) s.graph⟩⟩

theorem leaves_closeRegion {exit : Option Handle} {invocation : Operator} :
    Leaves Numbered (closeRegion position exit invocation) := by
  refine leaves_bind leaves_updateComposite fun _ => leaves_get_bind fun s => ?_
  rcases exit with _ | marker
  · exact leaves_pure _
  refine leaves_bind (leaves_onGraph leaves_lookup) fun op =>
    leaves_bind leaves_updateComposite fun _ => leaves_get_bind fun s =>
      leaves_bind (leaves_onGraph (leaves_mapM fun _ _ => leaves_lookup)) fun producers => ?_
  dsimp only
  split
  · exact leaves_pure _
  · exact leaves_bind (leaves_forM fun _ _ => leaves_update_ports fun _ => rfl) fun _ =>
      leaves_bind leaves_updateComposite fun _ => leaves_pure _

/-! ### The run -/

/-- Filling a composite, along its plan. -/
theorem leaves_fill (plan : Plan) : Leaves Numbered (fill values plan) := by
  induction plan with
  | done exit => exact leaves_pure []
  | node id rest ih => exact leaves_bind ih fun _ => leaves_pure _
  | region marker inside rest ihInside ihRest =>
    refine leaves_bind leaves_openRegion fun _ => leaves_bind ihInside fun members => ?_
    refine leaves_bind leaves_finish fun position => leaves_bind leaves_closeRegion fun _ => ?_
    exact leaves_bind ihRest fun _ => leaves_pure _

/-- **Every run of a separation has a numbering**, from beginning to end, also where it fails. -/
theorem leaves_numbering : Leaves Numbered (separate values) := by
  refine leaves_get_bind fun s => leaves_bind ?_ fun plan => leaves_bind (leaves_fill plan)
    fun members => leaves_bind leaves_finish fun _ => ?_
  · exact leaves_liftM _
  · split
    · exact leaves_get_bind fun _ => leaves_pure _
    · exact leaves_bind (leaves_onGraph leaves_lookup) fun _ => leaves_throw _

/-- **Composites bear numbers of the run**, the main one excepted. -/
theorem named_of_separate {g : Graph} {n : Nat} {cs : List Composite} {c : Composite}
    {s' : Separation} (h : Yields (separate values) { graph := g, count := n } cs s')
    (hc : c ∈ cs) (hinner : c.isMain = false) :
    ∃ i, n ≤ i ∧ i < s'.count ∧ c.name = Composite.parallelName i := by
  obtain ⟨inner, main, rfl, hmain, hcount, hgrown⟩ := separate_grown h
  rcases List.mem_append.mp hc with hc | hc
  · have hname := hgrown.named.mem_iff.mp (List.mem_map_of_mem hc)
    obtain ⟨i, hi, hname⟩ := List.mem_map.mp hname
    rw [List.mem_range'_1] at hi
    refine ⟨i, hi.1, ?_, hname.symm⟩
    rw [hcount]
    exact hi.2
  · rw [List.mem_singleton.mp hc, hmain] at hinner
    cases hinner

end Separation

end StreamTopology
