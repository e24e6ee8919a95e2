import StreamTopology.Proofs.Graph.Insertion
import StreamTopology.Proofs.Graph.RegionEnds
import StreamTopology.Proofs.Passes.Annotations
import Mathlib.Logic.Equiv.Basic

/-!
# A hash adder changes places with an end

A hash adder behind the end of a region is taken out, and a copy of it is put in front of the end.
The copy gets the place in the arena that the adder had, and if the names of its ports are not in
use, the outcome is simple: in the relation between neighbours the adder and the end have been
exchanged, and nothing else has changed.

## Main definitions

* `Graph.Copyable`: the names of the ports of a copy may be used.
* `Graph.copied`: the graph in the middle of a move.
* `Graph.Moved`: what a move leaves.

## Main results

* `yields_moveChild`: what a move consists of.
* `Graph.moveChild_moved`: what it leaves.
-/

namespace StreamTopology

namespace Operator

variable {a b op : Operator} {i o : String}

/-- The names of the input ports of a copy. -/
def copyInputs (op : Operator) : List String := (op.copyAs op.name).inputs.map InputPort.name

/-- The names of the output ports of a copy. -/
def copyOutputs (op : Operator) : List String := (op.copyAs op.name).outputs.map OutputPort.name

theorem copyAs_disconnected (name : String) : op.disconnected.copyAs name = op.copyAs name := by
  simp only [copyAs, disconnected]
  congr 1 <;>
  · refine List.ext_getElem? fun n => ?_
    simp [List.getElem?_mapIdx, Function.comp_def]

theorem copyInputs_congr (h : a.disconnected = b.disconnected) : a.copyInputs = b.copyInputs := by
  have hname : a.disconnected.name = b.disconnected.name := congrArg Operator.name h
  rw [copyInputs, copyInputs, ← copyAs_disconnected, h, copyAs_disconnected,
    show a.name = b.name from hname]

theorem copyOutputs_congr (h : a.disconnected = b.disconnected) :
    a.copyOutputs = b.copyOutputs := by
  have hname : a.disconnected.name = b.disconnected.name := congrArg Operator.name h
  rw [copyOutputs, copyOutputs, ← copyAs_disconnected, h, copyAs_disconnected,
    show a.name = b.name from hname]

@[simp] theorem skeleton_withSchema {schema : String} :
    (HashAdders.withSchema schema op).skeleton = op.skeleton := by
  have hhead : ∀ {α β : Type} {f : α → α} {g : α → β} (l : List α), (∀ x, g (f x) = g x) →
      (Rewiring.mapHead f l).map g = l.map g := by
    intro α β f g l hfg
    cases l with
    | nil => rfl
    | cons x l => simp [Rewiring.mapHead, hfg]
  simp [HashAdders.withSchema, skeleton, hhead]

end Operator

namespace Graph

variable {g g' t : Graph} {e h x y : Handle} {a b op : Operator}

/-! ### What a move consists of -/

/-- The ports of a copy of the operator `op`, which is at `x`, may have their names: no other
operator has ports of these names, and where such a name is listed, the operator's only port has it
already. -/
structure Copyable (g : Graph) (x : Handle) (op : Operator) : Prop where
  inputs_nodup : op.copyInputs.Nodup
  inputs_new : ∀ i ∈ op.copyInputs, ∀ y, g.InputOf y i → y = x
  outputs_new : ∀ o ∈ op.copyOutputs, ∀ y, g.OutputOf y o → y = x
  inputs_listed : ∀ i ∈ op.copyInputs, ∀ p ∈ g.outputPorts, i ∈ p.connections →
    op.inputs.map InputPort.name = [i] ∧ p.connections.count i ≤ 1
  outputs_listed : ∀ o ∈ op.copyOutputs, ∀ q ∈ g.inputPorts, o ∈ q.connections →
    op.outputs.map OutputPort.name = [o] ∧ q.connections.count o ≤ 1

/-- They may if nothing in the graph uses the names. -/
theorem copyable_of_unused (hg : g.WellFormed) (hnodup : op.copyInputs.Nodup)
    (hin : ∀ i ∈ op.copyInputs,
      (∀ q ∈ g.inputPorts, q.name ≠ i) ∧ ∀ p ∈ g.outputPorts, i ∉ p.connections)
    (hout : ∀ o ∈ op.copyOutputs,
      (∀ p ∈ g.outputPorts, p.name ≠ o) ∧ ∀ q ∈ g.inputPorts, o ∉ q.connections) :
    g.Copyable x op := by
  refine ⟨hnodup, fun i hi y hy => ?_, fun o ho y hy => ?_, fun i hi p hp hlisted => ?_,
    fun o ho q hq hlisted => ?_⟩
  · obtain ⟨b, hb, hown⟩ := hy
    obtain ⟨q, hq, hname⟩ := Rewiring.ownsInput_iff.mp hown
    exact absurd hname ((hin i hi).1 q ((mem_inputPorts hg).mpr ⟨y, b, hb, hq⟩))
  · obtain ⟨a, ha, hown⟩ := hy
    obtain ⟨p, hp, hname⟩ := Rewiring.ownsOutput_iff.mp hown
    exact absurd hname ((hout o ho).1 p ((mem_outputPorts hg).mpr ⟨y, a, ha, hp⟩))
  · exact absurd hlisted ((hin i hi).2 p hp)
  · exact absurd hlisted ((hout o ho).2 q hq)

/-- The graph in between: the operator `op` at `h` is gone, and its copy stands in front of `e`,
without streams. -/
def copied (g : Graph) (e h : Handle) (op : Operator) : Graph :=
  ((g.without h op).insertBefore e (op.copyAs op.name)).2

end Graph

/-- **What moving the child of an end consists of.** Nothing happens unless the end has one child,
which has an output port. -/
theorem yields_moveChild {g g' : Graph} {e : Handle} {moved : Bool} (hg : g.WellFormed)
    (hrun : Yields (HashAdders.moveChild e) g moved g') :
    (moved = false ∧ g' = g ∧
        ∀ x, g.children e = [x] → ∃ op, g.get? x = some op ∧ op.outputs = []) ∨
      moved = true ∧ ∃ x op t, g.children e = [x] ∧ g.get? x = some op ∧ op.outputs.length = 1 ∧
        Yields (Rewiring.interposeAbove e x) (g.copied e x op) ⟨⟩ t ∧
        ∃ a schema, t.get? e = some a ∧ g' = t.set e (HashAdders.withSchema schema a) := by
  rw [HashAdders.moveChild, yields_get_bind] at hrun
  rcases hchildren : g.children e with _ | ⟨x, _ | ⟨y, rest⟩⟩
  · simp only [hchildren] at hrun
    obtain ⟨rfl, rfl⟩ := yields_pure.mp hrun
    exact Or.inl ⟨rfl, rfl, by simp⟩
  · simp only [hchildren] at hrun
    obtain ⟨op, t, hlookup, hrun⟩ := yields_bind.mp hrun
    obtain ⟨hop, ht⟩ := yields_lookup.mp hlookup
    rw [ht] at hrun
    rcases hout : op.outputs with _ | ⟨output, outputs⟩
    · simp only [hout, List.head?_nil] at hrun
      obtain ⟨rfl, rfl⟩ := yields_pure.mp hrun
      refine Or.inl ⟨rfl, rfl, fun x' hx' => ⟨op, ?_, hout⟩⟩
      rw [List.cons.injEq] at hx'
      exact hx'.1 ▸ hop
    · simp only [hout, List.head?_cons] at hrun
      obtain ⟨_, t₁, hremove, hrun⟩ := yields_bind.mp hrun
      obtain ⟨op', hop', hlen, rfl⟩ := (yields_remove hg).mp hremove
      obtain rfl := Option.some.inj (hop.symm.trans hop')
      rw [yields_get_bind, Graph.insertBefore_fst (Graph.vacant_without hop)] at hrun
      simp only [yields_bind, yields_set, yields_pure, yields_update] at hrun
      obtain ⟨_, _, rfl, _, t₂, habove, _, _, ⟨a, ha, rfl⟩, rfl, rfl⟩ := hrun
      refine Or.inr ⟨rfl, x, op, t₂, rfl, hop, ?_, habove, a, output.schema, ha, rfl⟩
      rw [hout] at hlen ⊢
      simpa using hlen
  · simp only [hchildren] at hrun
    obtain ⟨rfl, rfl⟩ := yields_pure.mp hrun
    exact Or.inl ⟨rfl, rfl, by simp⟩

/-! ### The names of a copy -/

namespace Rewiring

variable {gone : String → Bool} {instead names : List String} {c : String}

/-- A name that is rewired and was listed once is no longer listed, unless it comes in again. -/
theorem not_mem_rewire (hinstead : c ∉ instead)
    (hlisted : c ∈ names → (∀ d, gone d = true ↔ d = c) ∧ names.count c ≤ 1) :
    c ∉ rewire gone instead names := by
  by_cases hc : c ∈ names
  · obtain ⟨hgone, hcount⟩ := hlisted hc
    have herase : names.eraseP gone = names.erase c := by
      have hpred : gone = fun d => d == c := by
        funext d
        rw [Bool.eq_iff_iff, hgone, beq_iff_eq]
      rw [hpred, List.erase_eq_eraseP']
    rw [rewire, if_pos (List.any_eq_true.mpr ⟨c, hc, (hgone c).mpr rfl⟩), mem_addAll, herase,
      not_or]
    refine ⟨fun hmem => ?_, hinstead⟩
    have hpos := List.count_pos_iff.mpr hmem
    rw [List.count_erase_self] at hpos
    omega
  · unfold rewire
    split
    · rw [mem_addAll, not_or]
      exact ⟨fun hmem => hc (List.mem_of_mem_eraseP hmem), hinstead⟩
    · exact hc

theorem mem_of_mem_rewire (h : c ∈ rewire gone instead names) : c ∈ names ∨ c ∈ instead := by
  unfold rewire at h
  split at h
  · exact (mem_addAll.mp h).imp_left List.mem_of_mem_eraseP
  · exact Or.inl h

end Rewiring

namespace Graph

open Rewiring

variable {g g' t : Graph} {e h x y : Handle} {a b op : Operator}

section

variable (hg : g.WellFormed) (hi : g.Indexed) (hco : g.Coherent) (hop : g.get? x = some op)
  (hlen : op.outputs.length ≤ 1)

include hg hi hco hop hlen

/-- Removing an operator adds nothing to what is listed. -/
theorem covers_without {newIn newOut : List String} : g.Covers newIn newOut (g.without x op) := by
  refine ⟨fun p' hp' c hc _ => ?_, fun q' hq' c hc _ => ?_⟩
  · obtain ⟨y, a, p, hy, ha, hp, rfl⟩ := (mem_outputPorts_without hg hi hco hop hlen).mp hp'
    have hpg : p ∈ g.outputPorts := (mem_outputPorts hg).mpr ⟨y, a, ha, hp⟩
    refine exists_count_le hpg count_rewire_le ?_
    rcases mem_of_mem_rewire hc with hc | hc
    · exact ⟨p, hpg, hc⟩
    · obtain ⟨q, hq, rfl, r, hr, hlisted⟩ := (mem_readers hg hi hco hop hlen).mp hc
      have hrg : r ∈ g.outputPorts := (mem_outputPorts hg).mpr ⟨x, op, hop, hr⟩
      exact ⟨r, hrg, (hco.agrees r hrg q hq).mpr hlisted⟩
  · obtain ⟨y, b, q, hy, hb, hq, rfl⟩ := (mem_inputPorts_without hg hi hco hop hlen).mp hq'
    have hqg : q ∈ g.inputPorts := (mem_inputPorts hg).mpr ⟨y, b, hb, hq⟩
    refine exists_count_le hqg count_rewire_le ?_
    rcases mem_of_mem_rewire hc with hc | hc
    · exact ⟨q, hqg, hc⟩
    · obtain ⟨p, hp, rfl, j, hj, hlisted⟩ := (mem_feeders hg hi hco hop).mp hc
      have hjg : j ∈ g.inputPorts := (mem_inputPorts hg).mpr ⟨x, op, hop, hj⟩
      exact ⟨j, hjg, (hco.agrees p hp j hjg).mp hlisted⟩

/-- **Where a copy may have the names of its ports, they are new once the operator is gone.** -/
theorem Copyable.fresh (hloop : ¬ g.Feeds x x) (hcopy : g.Copyable x op) :
    (g.without x op).Fresh (op.copyAs op.name) := by
  have houts : ∀ p ∈ (op.copyAs op.name).outputs, p.name ∈ op.copyOutputs :=
    fun p hp => List.mem_map_of_mem hp
  have hins : ∀ q ∈ (op.copyAs op.name).inputs, q.name ∈ op.copyInputs :=
    fun q hq => List.mem_map_of_mem hq
  refine ⟨fun p hp => ?_, fun q hq => ?_, ?_, hcopy.inputs_nodup, fun p hp p' hp' hname => ?_,
    fun q hq q' hq' hname => ?_, fun p hp q' hq' => ?_, fun q hq p' hp' => ?_⟩
  · obtain ⟨n, hn, rfl⟩ := List.mem_mapIdx.mp hp
    rfl
  · obtain ⟨n, hn, rfl⟩ := List.mem_mapIdx.mp hq
    rfl
  · have hlen' : ((op.copyAs op.name).outputs.map OutputPort.name).length ≤ 1 := by
      simpa [Operator.copyAs] using hlen
    rcases hnames : (op.copyAs op.name).outputs.map OutputPort.name with _ | ⟨n, _ | ⟨n', ns⟩⟩
    · exact List.nodup_nil
    · exact List.nodup_singleton n
    · simp [hnames] at hlen'
  · obtain ⟨y, a, p₀, hy, ha, hp₀, rfl⟩ := (mem_outputPorts_without hg hi hco hop hlen).mp hp'
    exact hy (hcopy.outputs_new p.name (houts p hp) y
      ⟨a, ha, ownsOutput_iff.mpr ⟨p₀, hp₀, hname.symm⟩⟩)
  · obtain ⟨y, b, q₀, hy, hb, hq₀, rfl⟩ := (mem_inputPorts_without hg hi hco hop hlen).mp hq'
    exact hy (hcopy.inputs_new q.name (hins q hq) y
      ⟨b, hb, ownsInput_iff.mpr ⟨q₀, hq₀, hname.symm⟩⟩)
  · obtain ⟨y, b, q, hy, hb, hq, rfl⟩ := (mem_inputPorts_without hg hi hco hop hlen).mp hq'
    refine not_mem_rewire (fun hmem => ?_) fun hlisted => ?_
    · obtain ⟨p₁, hp₁, hname, j, hj, hlisted⟩ := (mem_feeders hg hi hco hop).mp hmem
      obtain ⟨z, a, ha, hpa⟩ := (mem_outputPorts hg).mp hp₁
      obtain rfl := hcopy.outputs_new p.name (houts p hp) z
        ⟨a, ha, ownsOutput_iff.mpr ⟨p₁, hpa, hname⟩⟩
      exact hloop ⟨a, op, ha, hop, Operator.feeds_iff.mpr ⟨p₁, hpa, j, hj, hlisted⟩⟩
    · obtain ⟨hnames, hcount⟩ := hcopy.outputs_listed p.name (houts p hp) q
        ((mem_inputPorts hg).mpr ⟨y, b, hb, hq⟩) hlisted
      refine ⟨fun d => ?_, hcount⟩
      rw [isOutputOf_iff hlen, ← List.mem_map, hnames, List.mem_singleton]
  · obtain ⟨y, a, p, hy, ha, hp, rfl⟩ := (mem_outputPorts_without hg hi hco hop hlen).mp hp'
    refine not_mem_rewire (fun hmem => ?_) fun hlisted => ?_
    · obtain ⟨q₁, hq₁, hname, r, hr, hlisted⟩ := (mem_readers hg hi hco hop hlen).mp hmem
      obtain ⟨z, b, hb, hqb⟩ := (mem_inputPorts hg).mp hq₁
      obtain rfl := hcopy.inputs_new q.name (hins q hq) z
        ⟨b, hb, ownsInput_iff.mpr ⟨q₁, hqb, hname⟩⟩
      have hrg : r ∈ g.outputPorts := (mem_outputPorts hg).mpr ⟨z, op, hop, hr⟩
      exact hloop ⟨op, b, hop, hb, Operator.feeds_iff.mpr
        ⟨r, hr, q₁, hqb, (hco.agrees r hrg q₁ hq₁).mpr hlisted⟩⟩
    · obtain ⟨hnames, hcount⟩ := hcopy.inputs_listed q.name (hins q hq) p
        ((mem_outputPorts hg).mpr ⟨y, a, ha, hp⟩) hlisted
      refine ⟨fun d => ?_, hcount⟩
      rw [ownsInput_iff, ← List.mem_map, hnames, List.mem_singleton]

end

/-! ### One move -/

section

variable {F : Handle → Handle → Prop} {p : Handle} (hchild : ∀ y, F e y ↔ y = h)
  (hparent : ∀ x, F x h ↔ x = e) (habove : ∀ x, F x e ↔ x = p) (hne : e ≠ h)

include hchild hparent habove hne

/-- What stands above `e` once its only child `h` is taken out. -/
theorem above_iff : x ≠ h ∧ e ≠ h ∧ (F x e ∨ F x h ∧ F h e) ↔ x = Equiv.swap e h p := by
  have hp : p ≠ e := by
    rintro rfl
    exact hne ((hchild p).mp ((habove p).mpr rfl))
  grind

/-- Taking out the only child `h` of `e`, of which `e` is the only parent, and putting it back above
`e` exchanges the two. -/
theorem exchange_iff :
    (x ≠ h ∧ y ≠ h ∧ (F x y ∨ F x h ∧ F h y)) ∧ ¬ (x = Equiv.swap e h p ∧ y = e) ∨
        (x = Equiv.swap e h p ∧ y = h ∨ x = h ∧ y = e) ↔
      F (Equiv.swap e h x) (Equiv.swap e h y) := by
  have hp : p ≠ e := by
    rintro rfl
    exact hne ((hchild p).mp ((habove p).mpr rfl))
  by_cases hx : x = h
  · subst hx
    rw [Equiv.swap_apply_right, hchild]
    grind
  · by_cases hy : y = h
    · subst hy
      rw [Equiv.swap_apply_right, habove]
      grind
    · grind

end

/-- `t` is `g` after the adder `op` at `h` has been moved in front of the end `e`. -/
structure Moved (g : Graph) (e h : Handle) (op : Operator) (t : Graph) : Prop where
  wellFormed : t.WellFormed
  indexed : t.Indexed
  coherent : t.Coherent
  kind : ∀ x, (t.get? x).map Operator.kind = (g.get? x).map Operator.kind
  kept : ∀ x, x ≠ e → x ≠ h →
    (t.get? x).map Operator.disconnected = (g.get? x).map Operator.disconnected
  outputs : ∀ x o, t.OutputOf x o → g.OutputOf x o ∨ x = h ∧ o ∈ op.copyOutputs
  inputs : ∀ x i, t.InputOf x i → g.InputOf x i ∨ x = h ∧ i ∈ op.copyInputs
  covers : g.Covers op.copyInputs op.copyOutputs t
  feeds : ∀ x y, t.Feeds x y ↔ g.Feeds (Equiv.swap e h x) (Equiv.swap e h y)

section

variable (hg : g.WellFormed) (hop : g.get? h = some op)

include hg

theorem WellFormed.copied : (g.copied e h op).WellFormed :=
  (hg.without h op).insertBefore e (op.copyAs op.name)

include hop

/-- The graph in between has the copy at the place of the operator. -/
theorem get?_copied : (g.copied e h op).get? x =
    if x = h then some (op.copyAs op.name) else (g.without h op).get? x := by
  rw [copied, (hg.without h op).get?_insertBefore, insertBefore_fst (vacant_without hop)]

theorem disconnected_copied (hx : x ≠ h) :
    ((g.copied e h op).get? x).map Operator.disconnected =
      (g.get? x).map Operator.disconnected := by
  rw [get?_copied hg hop, if_neg hx, disconnected_without hx]

theorem kind_copied :
    ((g.copied e h op).get? x).map Operator.kind = (g.get? x).map Operator.kind := by
  by_cases hx : x = h
  · rw [hx, get?_copied hg hop, if_pos rfl, hop]
    rfl
  · exact map_eq_of_map_eq (disconnected_copied hg hop hx) fun _ => rfl

theorem outputOf_copied_self {o : String} :
    (g.copied e h op).OutputOf h o ↔ o ∈ op.copyOutputs := by
  rw [outputOf_iff, get?_copied hg hop, if_pos rfl, Option.map_some, Option.some.injEq,
    ownsOutput_iff, Operator.copyOutputs, List.mem_map]

theorem inputOf_copied_self {i : String} :
    (g.copied e h op).InputOf h i ↔ i ∈ op.copyInputs := by
  rw [inputOf_iff, get?_copied hg hop, if_pos rfl, Option.map_some, Option.some.injEq,
    ownsInput_iff, Operator.copyInputs, List.mem_map]

theorem outputOf_copied {o : String} (hx : (g.copied e h op).OutputOf x o) :
    g.OutputOf x o ∨ x = h ∧ o ∈ op.copyOutputs := by
  by_cases hxh : x = h
  · subst hxh
    exact Or.inr ⟨rfl, (outputOf_copied_self hg hop).mp hx⟩
  · exact Or.inl ((outputOf_congr (disconnected_copied hg hop hxh)).mp hx)

theorem inputOf_copied {i : String} (hx : (g.copied e h op).InputOf x i) :
    g.InputOf x i ∨ x = h ∧ i ∈ op.copyInputs := by
  by_cases hxh : x = h
  · subst hxh
    exact Or.inr ⟨rfl, (inputOf_copied_self hg hop).mp hx⟩
  · exact Or.inl ((inputOf_congr (disconnected_copied hg hop hxh)).mp hx)

variable (hi : g.Indexed) (hco : g.Coherent) (hlen : op.outputs.length ≤ 1)
  (hcopy : g.Copyable h op) (hloop : ¬ g.Feeds h h)

include hi hco hlen hcopy hloop

theorem Coherent.copied : (g.copied e h op).Coherent :=
  (hco.without hg hi hop hlen).insertBefore (hg.without h op)
    (hcopy.fresh hg hi hco hop hlen hloop)

theorem covers_copied {newIn newOut : List String} : g.Covers newIn newOut (g.copied e h op) :=
  (covers_without hg hi hco hop hlen).trans
    (covers_insertBefore (hg.without h op) (hcopy.fresh hg hi hco hop hlen hloop))

/-- In the graph in between the copy has no streams. -/
theorem feeds_copied : (g.copied e h op).Feeds x y ↔
    x ≠ h ∧ y ≠ h ∧ (g.Feeds x y ∨ g.Feeds x h ∧ g.Feeds h y) := by
  rw [copied, feeds_insertBefore (hg.without h op) (hcopy.fresh hg hi hco hop hlen hloop),
    feeds_without_iff hg hi hco hop hlen]

/-- **What a move leaves.** The copy comes between the end and the only operator above it. -/
theorem moveChild_moved {schema : String} (hchildren : g.children e = [h])
    (hparents : g.parents h = [e]) (hseal : g.Sealed e) (hne : e ≠ h)
    (habove : Yields (interposeAbove e h) (g.copied e h op) ⟨⟩ t) (ha : t.get? e = some a) :
    g.Moved e h op (t.set e (HashAdders.withSchema schema a)) := by
  have hg₂ : (g.copied e h op).WellFormed := hg.copied
  have hi₂ : (g.copied e h op).Indexed := indexed_insertBefore
  have hco₂ : (g.copied e h op).Coherent := hco.copied hg hop hi hlen hcopy hloop
  obtain ⟨p, hp, _⟩ := (sealed_iff hg hi hco.agrees).mp hseal
  have hchild := (children_eq_singleton hg hi).mp hchildren
  have hparent := (parents_eq_singleton hg hi hco.agrees).mp hparents
  have hparents₂ : (g.copied e h op).parents e = [Equiv.swap e h p] := by
    rw [parents_eq_singleton hg₂ hi₂ hco₂.agrees]
    intro x
    rw [feeds_copied hg hop hi hco hlen hcopy hloop]
    exact above_iff hchild hparent hp hne
  have hpfeeds : (g.copied e h op).Feeds (Equiv.swap e h p) e := by
    rw [← mem_parents hg₂ hi₂ hco₂.agrees, hparents₂]
    exact List.mem_singleton_self _
  have hph : Equiv.swap e h p ≠ h :=
    ((feeds_copied hg hop hi hco hlen hcopy hloop).mp hpfeeds).1
  rw [interposeAbove, yields_get_bind, hparents₂] at habove
  obtain ⟨t', hstep, hnil⟩ := yields_forM_cons.mp habove
  obtain rfl := yields_forM_nil.mp hnil
  obtain ⟨addIn, addOut, hin, hout, hrouted, hindexed⟩ := interpose_routed hg₂ hco₂ hph hne hstep
  have hnewIn : [addIn] ⊆ op.copyInputs :=
    List.cons_subset.mpr ⟨(inputOf_copied_self hg hop).mp hin, List.nil_subset _⟩
  have hnewOut : [addOut] ⊆ op.copyOutputs :=
    List.cons_subset.mpr ⟨(outputOf_copied_self hg hop).mp hout, List.nil_subset _⟩
  have hann : t.Annotates (t.set e (HashAdders.withSchema schema a)) :=
    annotates_set ha Operator.skeleton_withSchema
  refine ⟨hann.wellFormed hrouted.wellFormed, hann.indexed hindexed,
    hann.coherent hrouted.wellFormed hrouted.coherent, fun x => ?_, fun x hxe hxh => ?_,
    fun x o hx => ?_, fun x i hx => ?_, ?_, fun x y => ?_⟩
  · rw [hann.kind, map_eq_of_map_eq (hrouted.disconnected x) fun _ => rfl, kind_copied hg hop]
  · rw [get?_set (contains_iff.mpr ⟨a, ha⟩), if_neg hxe, hrouted.disconnected,
      disconnected_copied hg hop hxh]
  · rw [hann.outputOf, outputOf_congr (hrouted.disconnected x)] at hx
    exact outputOf_copied hg hop hx
  · rw [hann.inputOf, inputOf_congr (hrouted.disconnected x)] at hx
    exact inputOf_copied hg hop hx
  · exact ((covers_copied hg hop hi hco hlen hcopy hloop).trans
      (hrouted.covers.mono hnewIn hnewOut)).trans (hann.covers hrouted.wellFormed)
  · rw [hann.feeds, hrouted.feeds hg₂ hco₂ hin hout, feeds_copied hg hop hi hco hlen hcopy hloop,
      and_iff_right hpfeeds]
    exact exchange_iff hchild hparent hp hne

end

end Graph

end StreamTopology
