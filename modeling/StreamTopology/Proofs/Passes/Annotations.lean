import StreamTopology.Proofs.Graph.Elimination
import StreamTopology.Proofs.Graph.Interposing
import StreamTopology.Proofs.Graph.Walk
import StreamTopology.Proofs.Passes.Writes

/-!
# Passes that annotate

Most passes write something into operators that has nothing to do with streams: a placement, a
queue, a parameter, a flag. Whatever they decide, they leave the kinds of operators and the
connections of ports alone, and with them everything that is read off these: the markers, the
neighbours, and the index.

That is shown without looking at what a pass decides. An action is `Annotating` if no run of it
touches more than that, and for a pass it is enough that each function it overwrites operators by
writes annotations only.

## Main definitions

* `Operator.skeleton`: what is left of an operator without annotations.
* `Graph.Annotates`: one graph is another one with other annotations.
* `Annotating`: no run of the action does more than annotate.

## Main results

* `Graph.Annotates.eliminates`: annotating eliminates nothing.
* `annotating_threadedPorts`, `annotating_colocation`, `annotating_passByReference`: the passes that
  only annotate.
-/

namespace StreamTopology

/-! ### Skeletons -/

namespace Operator

variable {a b : Operator}

/-- The kind of the operator and the names and connections of its ports. -/
def skeleton (op : Operator) : Operator :=
  { name := ""
    kind := op.kind
    inputs := op.inputs.map fun p => { name := p.name, connections := p.connections }
    outputs := op.outputs.map fun p => { name := p.name, connections := p.connections } }

@[simp] theorem ownsInput_skeleton : a.skeleton.ownsInput = a.ownsInput := by
  funext c
  simp [ownsInput, skeleton, Function.comp_def]

@[simp] theorem ownsOutput_skeleton : a.skeleton.ownsOutput = a.ownsOutput := by
  funext c
  simp [ownsOutput, skeleton, Function.comp_def]

@[simp] theorem feeds_skeleton : a.skeleton.feeds b.skeleton = a.feeds b := by
  rw [feeds, feeds, ownsInput_skeleton]
  simp [outgoing, skeleton, List.flatMap_map]

@[simp] theorem readsFrom_skeleton : a.skeleton.readsFrom b.skeleton = a.readsFrom b := by
  rw [readsFrom, readsFrom, ownsOutput_skeleton]
  simp [incoming, skeleton, List.flatMap_map]

theorem exists_output_of_skeleton (h : a.skeleton = b.skeleton) {p : OutputPort}
    (hp : p ∈ a.outputs) :
    ∃ p' ∈ b.outputs, p'.name = p.name ∧ p'.connections = p.connections := by
  have hports := congrArg Operator.outputs h
  have hmem := List.mem_map_of_mem (f := fun p : OutputPort =>
    ({ name := p.name, connections := p.connections } : OutputPort)) hp
  rw [show a.outputs.map _ = b.outputs.map _ from hports] at hmem
  obtain ⟨p', hp', heq⟩ := List.mem_map.mp hmem
  exact ⟨p', hp', by simpa using heq⟩

theorem exists_input_of_skeleton (h : a.skeleton = b.skeleton) {q : InputPort}
    (hq : q ∈ a.inputs) :
    ∃ q' ∈ b.inputs, q'.name = q.name ∧ q'.connections = q.connections := by
  have hports := congrArg Operator.inputs h
  have hmem := List.mem_map_of_mem (f := fun p : InputPort =>
    ({ name := p.name, connections := p.connections } : InputPort)) hq
  rw [show a.inputs.map _ = b.inputs.map _ from hports] at hmem
  obtain ⟨q', hq', heq⟩ := List.mem_map.mp hmem
  exact ⟨q', hq', by simpa using heq⟩

end Operator

/-! ### Graphs with other annotations -/

namespace Graph

variable {g g' g'' : Graph} {x y : Handle} {op op' : Operator}

/-- `g'` is `g` with other annotations of its operators. -/
structure Annotates (g g' : Graph) : Prop where
  wellFormed : g.WellFormed → g'.WellFormed
  order : g'.order = g.order
  links : g'.links = g.links
  skeleton : ∀ x, (g'.get? x).map Operator.skeleton = (g.get? x).map Operator.skeleton

theorem Annotates.refl (g : Graph) : g.Annotates g := ⟨id, rfl, rfl, fun _ => rfl⟩

theorem Annotates.trans (h : g.Annotates g') (h' : g'.Annotates g'') : g.Annotates g'' :=
  ⟨h'.wellFormed ∘ h.wellFormed, h'.order.trans h.order, h'.links.trans h.links,
    fun x => (h'.skeleton x).trans (h.skeleton x)⟩

theorem annotates_set (hop : g.get? x = some op) (h : op'.skeleton = op.skeleton) :
    g.Annotates (g.set x op') := by
  have hset : g.set x op' = g.mapAt [x] fun _ => op' := set_eq_mapAt (f := fun _ => op') hop
  refine ⟨fun hg => hset ▸ hg.mapAt _ _, rfl, rfl, fun y => ?_⟩
  rw [get?_set (contains_iff.mpr ⟨op, hop⟩)]
  by_cases hy : y = x
  · rw [if_pos hy, hy, hop, Option.map_some, Option.map_some, h]
  · rw [if_neg hy]

theorem annotates_mapAt {xs : List Handle} {f : Operator → Operator}
    (hf : ∀ op, (f op).skeleton = op.skeleton) : g.Annotates (g.mapAt xs f) := by
  refine ⟨fun hg => hg.mapAt _ _, rfl, rfl, fun x => ?_⟩
  rw [get?_mapAt]
  split
  · rw [Option.map_map]
    exact congrFun (congrArg Option.map (funext hf)) _
  · rfl

/-- Pairs of operators are found by their skeletons. -/
theorem pairs_skeleton {r : Operator → Operator → Bool}
    (hr : ∀ a b, r a.skeleton b.skeleton = r a b) (entries : List (Handle × Operator)) :
    pairs entries r = pairs (entries.map fun e => (e.1, e.2.skeleton)) r := by
  simp only [pairs, List.flatMap_map, List.filter_map, List.map_map, Function.comp_def, hr]

section

variable (h : g.Annotates g')

include h

theorem Annotates.parents : g'.parents x = g.parents x := by
  rw [Graph.parents, Graph.parents, h.order, h.links]

theorem Annotates.children : g'.children x = g.children x := by
  rw [Graph.children, Graph.children, h.order, h.links]

theorem Annotates.computeLinks : g'.computeLinks = g.computeLinks := by
  have hentries : (g'.entries.map fun e => (e.1, e.2.skeleton)) =
      g.entries.map fun e => (e.1, e.2.skeleton) := by
    simp only [entries, List.map_filterMap, Option.map_map, Function.comp_def, h.order]
    refine List.filterMap_congr fun x _ => ?_
    have hskeleton := congrArg (Option.map fun a => (x, a)) (h.skeleton x)
    simpa only [Option.map_map, Function.comp_def] using hskeleton
  have hpairs : ∀ {r : Operator → Operator → Bool},
      (∀ a b, r a.skeleton b.skeleton = r a b) → pairs g'.entries r = pairs g.entries r := by
    intro r hr
    rw [pairs_skeleton hr g'.entries, hentries, ← pairs_skeleton hr g.entries]
  rw [Graph.computeLinks, Graph.computeLinks, hpairs fun a b => Operator.feeds_skeleton,
    hpairs (r := fun a b => b.readsFrom a) fun a b => Operator.readsFrom_skeleton]

theorem Annotates.indexed (hi : g.Indexed) : g'.Indexed := by
  rw [Indexed, h.links, h.computeLinks]
  exact hi

theorem Annotates.kind (x : Handle) :
    (g'.get? x).map Operator.kind = (g.get? x).map Operator.kind :=
  map_eq_of_map_eq (h.skeleton x) fun _ => rfl

/-- The operator as it was. -/
theorem Annotates.exists_before (hop : g'.get? x = some op) :
    ∃ a, g.get? x = some a ∧ a.skeleton = op.skeleton := by
  have hskeleton := h.skeleton x
  rw [hop] at hskeleton
  exact Option.map_eq_some_iff.mp hskeleton.symm

/-- The operator as it has become. -/
theorem Annotates.exists_after (hop : g.get? x = some op) :
    ∃ a, g'.get? x = some a ∧ a.skeleton = op.skeleton := by
  have hskeleton := h.skeleton x
  rw [hop] at hskeleton
  exact Option.map_eq_some_iff.mp hskeleton

theorem Annotates.feeds : g'.Feeds x y ↔ g.Feeds x y := by
  have hports : ∀ {a a' b b' : Operator}, a.skeleton = a'.skeleton → b.skeleton = b'.skeleton →
      a.feeds b = true → a'.feeds b' = true := by
    intro a a' b b' ha hb hfeeds
    rwa [← Operator.feeds_skeleton, ← ha, ← hb, Operator.feeds_skeleton]
  constructor
  · rintro ⟨a', b', ha', hb', hfeeds⟩
    obtain ⟨a, ha, hask⟩ := h.exists_before ha'
    obtain ⟨b, hb, hbsk⟩ := h.exists_before hb'
    exact ⟨a, b, ha, hb, hports hask.symm hbsk.symm hfeeds⟩
  · rintro ⟨a, b, ha, hb, hfeeds⟩
    obtain ⟨a', ha', hask⟩ := h.exists_after ha
    obtain ⟨b', hb', hbsk⟩ := h.exists_after hb
    exact ⟨a', b', ha', hb', hports hask.symm hbsk.symm hfeeds⟩

theorem Annotates.coherent (hg : g.WellFormed) (hco : g.Coherent) : g'.Coherent := by
  have horder : g'.order.Sublist g.order := h.order ▸ List.Sublist.refl _
  refine ⟨hco.inputs_nodup.sublist (portNames_sublist horder fun x _ => ?_),
    hco.outputs_nodup.sublist (portNames_sublist horder fun x _ => ?_), fun p hp q hq => ?_⟩
  · refine map_eq_of_map_eq (h.skeleton x) fun op => ?_
    simp [Operator.skeleton, Function.comp_def]
  · refine map_eq_of_map_eq (h.skeleton x) fun op => ?_
    simp [Operator.skeleton, Function.comp_def]
  · obtain ⟨x, a', ha', hpa⟩ := (mem_outputPorts (h.wellFormed hg)).mp hp
    obtain ⟨y, b', hb', hqb⟩ := (mem_inputPorts (h.wellFormed hg)).mp hq
    obtain ⟨a, ha, hask⟩ := h.exists_before ha'
    obtain ⟨b, hb, hbsk⟩ := h.exists_before hb'
    obtain ⟨p₀, hp₀, hname, hconns⟩ := Operator.exists_output_of_skeleton hask.symm hpa
    obtain ⟨q₀, hq₀, hname', hconns'⟩ := Operator.exists_input_of_skeleton hbsk.symm hqb
    have hagrees := hco.agrees p₀ ((mem_outputPorts hg).mpr ⟨x, a, ha, hp₀⟩) q₀
      ((mem_inputPorts hg).mpr ⟨y, b, hb, hq₀⟩)
    rwa [hname, hname', hconns, hconns'] at hagrees

theorem Annotates.wired (hg : g.WellFormed) (hw : g.Wired) : g'.Wired := by
  have hco := h.coherent hg hw.coherent
  refine ⟨hco.inputs_nodup, hco.outputs_nodup, fun q' hq' => ?_, fun p' hp' => ?_, hco.agrees⟩
  · obtain ⟨x, b', hb', hq'⟩ := (mem_inputPorts (h.wellFormed hg)).mp hq'
    obtain ⟨b, hb, hsame⟩ := h.exists_before hb'
    obtain ⟨q, hq, _, hconns⟩ := Operator.exists_input_of_skeleton hsame.symm hq'
    exact hconns ▸ hw.reads_nodup q ((mem_inputPorts hg).mpr ⟨x, b, hb, hq⟩)
  · obtain ⟨x, a', ha', hp'⟩ := (mem_outputPorts (h.wellFormed hg)).mp hp'
    obtain ⟨a, ha, hsame⟩ := h.exists_before ha'
    obtain ⟨p, hp, _, hconns⟩ := Operator.exists_output_of_skeleton hsame.symm hp'
    exact hconns ▸ hw.feeds_nodup p ((mem_outputPorts hg).mpr ⟨x, a, ha, hp⟩)

theorem Annotates.lists (hg : g.WellFormed) {o i : String} : g'.Lists o i ↔ g.Lists o i := by
  constructor
  · rintro ⟨p', hp', q', hq', rfl, rfl, hlisted⟩
    obtain ⟨x, a', ha', hp'⟩ := (mem_outputPorts (h.wellFormed hg)).mp hp'
    obtain ⟨y, b', hb', hq'⟩ := (mem_inputPorts (h.wellFormed hg)).mp hq'
    obtain ⟨a, ha, hask⟩ := h.exists_before ha'
    obtain ⟨b, hb, hbsk⟩ := h.exists_before hb'
    obtain ⟨p, hp, hname, hconns⟩ := Operator.exists_output_of_skeleton hask.symm hp'
    obtain ⟨q, hq, hname', _⟩ := Operator.exists_input_of_skeleton hbsk.symm hq'
    exact ⟨p, (mem_outputPorts hg).mpr ⟨x, a, ha, hp⟩, q, (mem_inputPorts hg).mpr ⟨y, b, hb, hq⟩,
      hname, hname', hconns ▸ hlisted⟩
  · rintro ⟨p, hp, q, hq, rfl, rfl, hlisted⟩
    obtain ⟨x, a, ha, hp⟩ := (mem_outputPorts hg).mp hp
    obtain ⟨y, b, hb, hq⟩ := (mem_inputPorts hg).mp hq
    obtain ⟨a', ha', hask⟩ := h.exists_after ha
    obtain ⟨b', hb', hbsk⟩ := h.exists_after hb
    obtain ⟨p', hp', hname, hconns⟩ := Operator.exists_output_of_skeleton hask.symm hp
    obtain ⟨q', hq', hname', _⟩ := Operator.exists_input_of_skeleton hbsk.symm hq
    exact ⟨p', (mem_outputPorts (h.wellFormed hg)).mpr ⟨x, a', ha', hp'⟩, q',
      (mem_inputPorts (h.wellFormed hg)).mpr ⟨y, b', hb', hq'⟩, hname, hname', hconns ▸ hlisted⟩

theorem Annotates.covers {newIn newOut : List String} (hg : g.WellFormed) :
    g.Covers newIn newOut g' := by
  refine ⟨fun p' hp' c hc _ => ?_, fun q' hq' c hc _ => ?_⟩
  · obtain ⟨x, a', ha', hp'⟩ := (mem_outputPorts (h.wellFormed hg)).mp hp'
    obtain ⟨a, ha, hsame⟩ := h.exists_before ha'
    obtain ⟨p, hp, _, hconns⟩ := Operator.exists_output_of_skeleton hsame.symm hp'
    exact ⟨p, (mem_outputPorts hg).mpr ⟨x, a, ha, hp⟩, hconns ▸ hc, hconns ▸ Nat.le_refl _⟩
  · obtain ⟨x, a', ha', hq'⟩ := (mem_inputPorts (h.wellFormed hg)).mp hq'
    obtain ⟨a, ha, hsame⟩ := h.exists_before ha'
    obtain ⟨q, hq, _, hconns⟩ := Operator.exists_input_of_skeleton hsame.symm hq'
    exact ⟨q, (mem_inputPorts hg).mpr ⟨x, a, ha, hq⟩, hconns ▸ hc, hconns ▸ Nat.le_refl _⟩

theorem Annotates.outputOf {o : String} : g'.OutputOf x o ↔ g.OutputOf x o := by
  rw [outputOf_iff, outputOf_iff,
    map_eq_of_map_eq (h.skeleton x) fun op => congrFun Operator.ownsOutput_skeleton o]

theorem Annotates.inputOf {i : String} : g'.InputOf x i ↔ g.InputOf x i := by
  rw [inputOf_iff, inputOf_iff,
    map_eq_of_map_eq (h.skeleton x) fun op => congrFun Operator.ownsInput_skeleton i]

/-- **Annotating eliminates nothing.** -/
theorem Annotates.eliminates (hg : g.WellFormed) (hi : g.Indexed) (hco : g.Coherent) :
    g.Eliminates (fun _ => False) g' := by
  refine ⟨h.wellFormed hg, h.indexed hi, h.coherent hg hco, fun _ hx => hx.elim,
    fun x _ => h.kind x, fun x _ => map_eq_of_map_eq (h.skeleton x) fun _ => ?_, fun x y => ?_⟩
  · simp [Operator.skeleton]
  · rw [h.feeds, bridged_none fun _ => id]
    tauto

end

instance : Std.Refl Annotates := ⟨.refl⟩

instance : IsTrans Graph Annotates := ⟨fun _ _ _ => .trans⟩

end Graph

/-! ### Actions that annotate -/

/-- Whatever a run of the action does to the graph in its state, it only annotates. -/
abbrev Annotating {σ α : Type} (graphOf : σ → Graph) (action : ExceptT Error (StateM σ) α) : Prop :=
  Confined (Order.Preimage graphOf Graph.Annotates) action

/-- A function that writes annotations only. -/
theorem annotates_of_skeleton {f : Operator → Operator} (hf : ∀ op, (f op).skeleton = op.skeleton) :
    Writes Graph.Annotates f :=
  fun _ _ op hop => Graph.annotates_set hop (hf op)

/-! ### The passes -/

@[simp] theorem Operator.skeleton_drop {functional : Bool} {op : Operator} :
    (ThreadedPorts.drop functional op).skeleton = op.skeleton := by
  simp [ThreadedPorts.drop, skeleton, Function.comp_def]

theorem annotating_threadedPorts : Annotating id ThreadedPorts.run :=
  confined_threadedPorts (R := Graph.Annotates)
    (fun _ => annotates_of_skeleton fun _ => Operator.skeleton_drop)
    fun _ _ _ _ hop _ => Graph.annotates_set hop rfl

theorem annotating_colocation : Annotating id Colocation.run :=
  confined_colocation (R := Graph.Annotates) (annotates_of_skeleton fun _ => rfl)

theorem annotating_passByReference : Annotating id PassByReference.run :=
  confined_passByReference (R := Graph.Annotates) fun _ => annotates_of_skeleton fun _ => rfl

end StreamTopology
