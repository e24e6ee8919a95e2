import StreamTopology.Proofs.Graph.Rewiring
import Mathlib.Logic.Relation

/-!
# Dataflow through removed operators

Removing operators one after the other keeps the dataflow: two ports that are left are linked
afterwards exactly when a stream led from one to the other before, passing through nothing but
removed operators. The relation `Graph.FlowsThrough` says what such a path is, on the graph as it
was, so it does not depend on the order of the removals; that the order makes no difference is
therefore a corollary and no second induction.

A cycle of removed operators would let the last of them feed itself, and a removal drops such a
loop. `Graph.Removable` excludes it. That the condition survives every single removal is the part
of the argument that needs the whole list: a stream between two operators that are still to be
removed may have led through the one that is gone.

## Main definitions

* `Graph.FlowsThrough`: paths between ports through operators of a list.
* `Graph.Removable`: lists of operators that can be removed one after the other.
* `Graph.SplicedOut`: what one graph is to another after a removal.

## Main results

* `Graph.Removable.without`, `Graph.flowsThrough_without`: what one removal preserves.
* `removeAll_dataflow`: what the whole run preserves.
-/

namespace StreamTopology

namespace Graph

open Relation

variable {g g' : Graph} {id x y : Handle} {ids : List Handle} {op a : Operator} {o i n m : String}

/-! ### Paths -/

/-- The operator at `id` has an input port named `n` and an output port named `m`. -/
def Passes (g : Graph) (id : Handle) (n m : String) : Prop :=
  ∃ op, g.get? id = some op ∧ n ∈ op.inputs.map InputPort.name ∧ m ∈ op.outputs.map OutputPort.name

/-- A path from the output port `o` to the input port `i` through operators of the list, any number
of them. -/
inductive FlowsThrough (g : Graph) (ids : List Handle) : String → String → Prop where
  | direct {o i : String} (h : g.Lists o i) : FlowsThrough g ids o i
  | through {o n m i : String} {id : Handle} (into : g.Lists o n) (hid : id ∈ ids)
      (pass : g.Passes id n m) (rest : FlowsThrough g ids m i) : FlowsThrough g ids o i

theorem Passes.congr
    (h : (g'.get? x).map Operator.disconnected = (g.get? x).map Operator.disconnected)
    (hp : g'.Passes x n m) : g.Passes x n m := by
  obtain ⟨a, ha, hn, hm⟩ := hp
  obtain ⟨b, hb, heq⟩ := exists_of_disconnected h ha
  obtain ⟨hin, hout⟩ := portNames_of_disconnected heq
  exact ⟨b, hb, hin ▸ hn, hout ▸ hm⟩

theorem passes_iff (hop : g.get? id = some op) :
    g.Passes id n m ↔ (∃ j ∈ op.inputs, j.name = n) ∧ ∃ r ∈ op.outputs, r.name = m := by
  simp only [Passes, hop, Option.some.injEq, exists_eq_left', List.mem_map]

/-! ### Lists of operators that can be removed -/

/-- Different live operators with at most one port on each side, no cycle of streams among them. -/
structure Removable (g : Graph) (ids : List Handle) : Prop where
  nodup : ids.Nodup
  live : ∀ id ∈ ids, g.contains id = true
  narrow : ∀ id ∈ ids, ∀ op, g.get? id = some op → op.inputs.length ≤ 1 ∧ op.outputs.length ≤ 1
  acyclic : ∀ id, ¬ TransGen (fun x y => x ∈ ids ∧ y ∈ ids ∧ g.Feeds x y) id id

theorem Removable.splices (hr : g.Removable ids) (hid : id ∈ ids) (hop : g.get? id = some op) :
    g.Splices id op :=
  ⟨hop, (hr.narrow id hid op hop).1, (hr.narrow id hid op hop).2,
    fun h => hr.acyclic id (TransGen.single ⟨hid, hid, h⟩)⟩

theorem Removable.perm {ids' : List Handle} (hr : g.Removable ids) (hp : ids'.Perm ids) :
    g.Removable ids' := by
  refine ⟨hp.nodup_iff.mpr hr.nodup, fun id h => hr.live id (hp.mem_iff.mp h),
    fun id h => hr.narrow id (hp.mem_iff.mp h), fun id h => hr.acyclic id ?_⟩
  exact TransGen.mono (fun _ _ ⟨hx, hy, hf⟩ => ⟨hp.mem_iff.mp hx, hp.mem_iff.mp hy, hf⟩) _ _ h

section Step

variable (hg : g.WellFormed) (hi : g.Indexed) (hw : g.Wired)

include hg hi hw

/-- **One removal, the rest of the list.** What is still to be removed can still be removed. -/
theorem Removable.without (hr : g.Removable (id :: ids)) (hop : g.get? id = some op) :
    (g.without id op).Removable ids := by
  obtain ⟨hid, hnd⟩ := List.nodup_cons.mp hr.nodup
  have hne : ∀ x ∈ ids, x ≠ id := fun x hx he => hid (he ▸ hx)
  have hs := hr.splices List.mem_cons_self hop
  refine ⟨hnd, fun x hx => ?_, fun x hx a' ha' => ?_, fun x hcycle => ?_⟩
  · obtain ⟨a, ha⟩ := contains_iff.mp (hr.live x (List.mem_cons_of_mem _ hx))
    obtain ⟨a', ha', _⟩ := exists_of_disconnected (disconnected_without (hne x hx)).symm ha
    exact contains_iff.mpr ⟨a', ha'⟩
  · obtain ⟨a, ha, heq⟩ := exists_of_disconnected (disconnected_without (hne x hx)) ha'
    have hlen := hr.narrow x (List.mem_cons_of_mem _ hx) a ha
    obtain ⟨hin, hout⟩ := portNames_of_disconnected heq
    have hinputs : a.inputs.length = a'.inputs.length := by
      simpa using congrArg List.length hin
    have houtputs : a.outputs.length = a'.outputs.length := by
      simpa using congrArg List.length hout
    exact ⟨hinputs ▸ hlen.1, houtputs ▸ hlen.2⟩
  · refine hr.acyclic x (TransGen.closed (fun y z hyz => ?_) x x hcycle)
    obtain ⟨hy, hz, hf⟩ := hyz
    have hy' := List.mem_cons_of_mem id hy
    have hz' := List.mem_cons_of_mem id hz
    rcases ((feeds_without_iff hg hi hw.coherent hop hs.outputs_le).mp hf).2.2 with h | ⟨h₁, h₂⟩
    · exact TransGen.single ⟨hy', hz', h⟩
    · exact (TransGen.single ⟨hy', List.mem_cons_self, h₁⟩).tail ⟨List.mem_cons_self, hz', h₂⟩

omit hi in
/-- An operator that stays owns none of the ports of the one that is gone. -/
theorem Wired.passes_other (hop : g.get? id = some op) (hx : x ≠ id) (hp : g.Passes x n m) :
    (∀ j ∈ op.inputs, j.name ≠ n) ∧ ∀ r ∈ op.outputs, r.name ≠ m := by
  obtain ⟨a, ha, hn, hm⟩ := hp
  obtain ⟨q, hq, rfl⟩ := List.mem_map.mp hn
  obtain ⟨p, hp, rfl⟩ := List.mem_map.mp hm
  exact ⟨fun j hj he => hx (hw.input_owner hg ha hq hop hj he.symm).1,
    fun r hr he => hx (hw.output_owner hg ha hp hop hr he.symm).1⟩

omit hi in
/-- An operator that can be spliced out does not feed itself, port by port. -/
theorem Splices.loopless_ports (hs : g.Splices id op) (hp : g.Passes id n m) (hl : g.Lists m i) :
    ∀ j ∈ op.inputs, j.name ≠ i := by
  intro j hj hname
  obtain ⟨_, r, hr, hrname⟩ := (passes_iff hs.live).mp hp
  obtain ⟨p, hpg, _, _, hpname, _, hc⟩ := hl
  obtain ⟨x, a, ha, hpa⟩ := (mem_outputPorts hg).mp hpg
  obtain ⟨rfl, rfl⟩ := hw.output_owner hg ha hpa hs.live hr (hpname.trans hrname.symm)
  exact hs.loopless ⟨op, op, hs.live, hs.live,
    Operator.feeds_iff.mpr ⟨p, hr, j, hj, hname ▸ hc⟩⟩

/-- A path after a removal was a path before: where it uses a new link, the operator that is gone
stood in between. -/
theorem FlowsThrough.of_without (hs : g.Splices id op) (hid : id ∉ ids)
    (h : (g.without id op).FlowsThrough ids o i) : g.FlowsThrough (id :: ids) o i := by
  have hlink : ∀ {o i}, (g.without id op).Lists o i → g.Lists o i ∨
      ∃ n m, g.Lists o n ∧ g.Passes id n m ∧ g.Lists m i := by
    intro o i h
    rcases (hw.coherent.lists_without hg hi hs.live hs.outputs_le).mp h with
      ⟨_, _, h | ⟨j, hj, r, hr, hoj, hri⟩⟩
    · exact Or.inl h
    · exact Or.inr ⟨j.name, r.name, hoj, (passes_iff hs.live).mpr ⟨⟨j, hj, rfl⟩, r, hr, rfl⟩, hri⟩
  induction h with
  | direct h =>
    rcases hlink h with h | ⟨n, m, hn, hp, hm⟩
    · exact .direct h
    · exact .through hn List.mem_cons_self hp (.direct hm)
  | @through o n m i x into hx pass rest ih =>
    have hne : x ≠ id := fun he => hid (he ▸ hx)
    have hpass : g.Passes x n m := pass.congr (disconnected_without hne)
    have hx' := List.mem_cons_of_mem id hx
    rcases hlink into with h | ⟨n', m', hn, hp, hm⟩
    · exact .through h hx' hpass ih
    · exact .through hn List.mem_cons_self hp (.through hm hx' hpass ih)

/-- A path through the operator that is gone is a path without it. The induction also follows the
paths that start at a port of that operator: they go on from each port that fed it. -/
theorem FlowsThrough.without (hs : g.Splices id op) (hid : id ∉ ids)
    (hin : ∀ j ∈ op.inputs, j.name ≠ i) (h : g.FlowsThrough (id :: ids) o i) :
    ((∀ r ∈ op.outputs, r.name ≠ o) → (g.without id op).FlowsThrough ids o i) ∧
      ∀ n o', g.Passes id n o → (∀ r ∈ op.outputs, r.name ≠ o') → g.Lists o' n →
        (g.without id op).FlowsThrough ids o' i := by
  have hkept : ∀ {o i}, (∀ r ∈ op.outputs, r.name ≠ o) → (∀ j ∈ op.inputs, j.name ≠ i) →
      g.Lists o i → (g.without id op).Lists o i :=
    fun ho hi' h => (hw.coherent.lists_without hg hi hs.live hs.outputs_le).mpr ⟨ho, hi', Or.inl h⟩
  have hnew : ∀ {o n m i}, (∀ r ∈ op.outputs, r.name ≠ o) → (∀ j ∈ op.inputs, j.name ≠ i) →
      g.Lists o n → g.Passes id n m → g.Lists m i → (g.without id op).Lists o i := by
    intro o n m i ho hi' hn hp hm
    obtain ⟨⟨j, hj, rfl⟩, r, hr, rfl⟩ := (passes_iff hs.live).mp hp
    exact (hw.coherent.lists_without hg hi hs.live hs.outputs_le).mpr
      ⟨ho, hi', Or.inr ⟨j, hj, r, hr, hn, hm⟩⟩
  induction h with
  | @direct o i h =>
    exact ⟨fun ho => .direct (hkept ho hin h),
      fun n o' hp ho' hn => .direct (hnew ho' hin hn hp h)⟩
  | @through o n m i x into hx pass rest ih =>
    obtain ⟨ih₁, ih₂⟩ := ih hin
    rcases List.mem_cons.mp hx with rfl | hx
    · refine ⟨fun ho => ih₂ n o pass ho into, fun n' o' hp _ _ => ?_⟩
      obtain ⟨⟨j, hj, hname⟩, _⟩ := (passes_iff hs.live).mp pass
      exact absurd hname (hs.loopless_ports hg hw hp into j hj)
    · have hne : x ≠ id := fun he => hid (he ▸ hx)
      obtain ⟨hn, hm⟩ := hw.passes_other hg hs.live hne pass
      have hpass : (g.without id op).Passes x n m := pass.congr (disconnected_without hne).symm
      exact ⟨fun ho => .through (hkept ho hn into) hx hpass (ih₁ hm),
        fun n' o' hp ho' hn' => .through (hnew ho' hn hn' hp into) hx hpass (ih₁ hm)⟩

/-- **One removal, the paths.** Between ports of other operators, the paths through the rest of the
list are the paths through the whole list before. -/
theorem flowsThrough_without (hr : g.Removable (id :: ids)) (hop : g.get? id = some op)
    (ho : ∀ r ∈ op.outputs, r.name ≠ o) (hin : ∀ j ∈ op.inputs, j.name ≠ i) :
    (g.without id op).FlowsThrough ids o i ↔ g.FlowsThrough (id :: ids) o i := by
  have hs := hr.splices List.mem_cons_self hop
  have hid := (List.nodup_cons.mp hr.nodup).1
  exact ⟨FlowsThrough.of_without hg hi hw hs hid,
    fun h => (FlowsThrough.without hg hi hw hs hid hin h).1 ho⟩

end Step

/-! ### The whole run -/

/-- `g'` is `g` without the listed operators, and the dataflow is as it was. -/
structure SplicedOut (g : Graph) (ids : List Handle) (g' : Graph) : Prop
    extends g.Cleared ids g' where
  indexed : g'.Indexed
  wired : g'.Wired
  streams : ∀ p ∈ g'.outputPorts, ∀ q ∈ g'.inputPorts,
    q.name ∈ p.connections ↔ g.FlowsThrough ids p.name q.name

theorem Wired.lists_iff (hg : g.WellFormed) (hw : g.Wired) {p : OutputPort} {q : InputPort}
    (hp : p ∈ g.outputPorts) (hq : q ∈ g.inputPorts) :
    g.Lists p.name q.name ↔ q.name ∈ p.connections := by
  constructor
  · rintro ⟨p', hp', q', _, hname, _, hc⟩
    obtain ⟨x, a, ha, hpa⟩ := (mem_outputPorts hg).mp hp
    obtain ⟨y, b, hb, hpb⟩ := (mem_outputPorts hg).mp hp'
    obtain ⟨_, rfl⟩ := hw.output_owner hg hb hpb ha hpa hname
    exact hc
  · exact fun hc => ⟨p, hp, q, hq, rfl, rfl, hc⟩

theorem flowsThrough_nil : g.FlowsThrough [] o i ↔ g.Lists o i := by
  constructor
  · intro h
    cases h with
    | direct h => exact h
    | through _ hid _ _ => cases hid
  · exact .direct

theorem SplicedOut.nil (hg : g.WellFormed) (hi : g.Indexed) (hw : g.Wired) :
    g.SplicedOut [] g where
  toCleared := Cleared.nil hg
  indexed := hi
  wired := hw
  streams := fun _ hp _ hq => (hw.lists_iff hg hp hq).symm.trans flowsThrough_nil.symm

/-- What the operators that are left are called after, when it does not depend on connections, is
what those are called after that were not listed. -/
theorem Cleared.names_iff (h : g.Cleared ids g') {names : Operator → List String}
    (hnames : ∀ a b : Operator, a.disconnected = b.disconnected → names a = names b) :
    (∃ x a, g'.get? x = some a ∧ n ∈ names a) ↔
      ∃ x a, x ∉ ids ∧ g.get? x = some a ∧ n ∈ names a := by
  constructor
  · rintro ⟨x, a', ha', hn⟩
    have hx : x ∉ ids := fun hx => by rw [h.gone x hx] at ha'; cases ha'
    obtain ⟨a, ha, heq⟩ := exists_of_disconnected (h.kept x hx) ha'
    exact ⟨x, a, hx, ha, hnames a a' heq ▸ hn⟩
  · rintro ⟨x, a, hx, ha, hn⟩
    obtain ⟨a', ha', heq⟩ := exists_of_disconnected (h.kept x hx).symm ha
    exact ⟨x, a', ha', hnames a' a heq ▸ hn⟩

/-- The output ports that are left belong to operators that were not listed. -/
theorem Cleared.outputs_iff (h : g.Cleared ids g') :
    (∃ p ∈ g'.outputPorts, p.name = o) ↔
      ∃ x a, x ∉ ids ∧ g.get? x = some a ∧ o ∈ a.outputs.map OutputPort.name := by
  rw [← h.names_iff fun _ _ heq => (portNames_of_disconnected heq).2]
  simp only [mem_outputPorts h.wellFormed, List.mem_map]
  constructor
  · rintro ⟨p, ⟨x, a, ha, hp⟩, hname⟩
    exact ⟨x, a, ha, p, hp, hname⟩
  · rintro ⟨x, a, ha, p, hp, hname⟩
    exact ⟨p, ⟨x, a, ha, hp⟩, hname⟩

/-- The input ports that are left belong to operators that were not listed. -/
theorem Cleared.inputs_iff (h : g.Cleared ids g') :
    (∃ q ∈ g'.inputPorts, q.name = i) ↔
      ∃ x a, x ∉ ids ∧ g.get? x = some a ∧ i ∈ a.inputs.map InputPort.name := by
  rw [← h.names_iff fun _ _ heq => (portNames_of_disconnected heq).1]
  simp only [mem_inputPorts h.wellFormed, List.mem_map]
  constructor
  · rintro ⟨q, ⟨x, a, ha, hq⟩, hname⟩
    exact ⟨x, a, ha, q, hq, hname⟩
  · rintro ⟨x, a, ha, q, hq, hname⟩
    exact ⟨q, ⟨x, a, ha, hq⟩, hname⟩

/-- One removal more in front of the others. -/
theorem SplicedOut.cons (hg : g.WellFormed) (hi : g.Indexed) (hw : g.Wired)
    (hr : g.Removable (id :: ids)) (hop : g.get? id = some op)
    (h : (g.without id op).SplicedOut ids g') : g.SplicedOut (id :: ids) g' := by
  have hid : id ∉ ids := (List.nodup_cons.mp hr.nodup).1
  have live_ne : ∀ {x a}, (g.without id op).get? x = some a → x ≠ id := by
    rintro x a ha rfl
    rw [get?_without_self] at ha
    cases ha
  refine ⟨h.toCleared.cons hg hid, h.indexed, h.wired, fun p hp q hq => ?_⟩
  rw [h.streams p hp q hq]
  refine flowsThrough_without hg hi hw hr hop (fun r hr' hname => ?_) fun j hj hname => ?_
  · obtain ⟨x, a', _, ha', hpa⟩ := h.outputs_iff.mp ⟨p, hp, rfl⟩
    have hx := live_ne ha'
    obtain ⟨a, ha, heq⟩ := exists_of_disconnected (disconnected_without hx) ha'
    rw [← (portNames_of_disconnected heq).2] at hpa
    obtain ⟨p₀, hp₀, hname₀⟩ := List.mem_map.mp hpa
    exact hx (hw.output_owner hg ha hp₀ hop hr' (hname₀.trans hname.symm)).1
  · obtain ⟨x, a', _, ha', hqa⟩ := h.inputs_iff.mp ⟨q, hq, rfl⟩
    have hx := live_ne ha'
    obtain ⟨a, ha, heq⟩ := exists_of_disconnected (disconnected_without hx) ha'
    rw [← (portNames_of_disconnected heq).1] at hqa
    obtain ⟨q₀, hq₀, hname₀⟩ := List.mem_map.mp hqa
    exact hx (hw.input_owner hg ha hq₀ hop hj (hname₀.trans hname.symm)).1

/-- The links between the ports that are left are the paths between ports of operators that were
not listed. -/
theorem SplicedOut.lists_iff (h : g.SplicedOut ids g') :
    g'.Lists o i ↔ (∃ p ∈ g'.outputPorts, p.name = o) ∧ (∃ q ∈ g'.inputPorts, q.name = i) ∧
      g.FlowsThrough ids o i := by
  constructor
  · rintro ⟨p, hp, q, hq, rfl, rfl, hc⟩
    exact ⟨⟨p, hp, rfl⟩, ⟨q, hq, rfl⟩, (h.streams p hp q hq).mp hc⟩
  · rintro ⟨⟨p, hp, rfl⟩, ⟨q, hq, rfl⟩, hf⟩
    exact ⟨p, hp, q, hq, rfl, rfl, (h.streams p hp q hq).mpr hf⟩

theorem FlowsThrough.perm {ids' : List Handle} (hp : ids.Perm ids')
    (h : g.FlowsThrough ids o i) : g.FlowsThrough ids' o i := by
  induction h with
  | direct h => exact .direct h
  | through into hid pass _ ih => exact .through into (hp.mem_iff.mp hid) pass ih

end Graph

open StreamTopology.Graph

/-- **A run of removals.** It succeeds on every list that can be removed. -/
theorem removeAll_splicedOut {g : Graph} {ids : List Handle} (hg : g.WellFormed)
    (hi : g.Indexed) (hw : g.Wired) (hr : g.Removable ids) :
    ∃ g', Yields (Rewiring.removeAll ids) g () g' ∧ g.SplicedOut ids g' := by
  unfold Rewiring.removeAll
  induction ids generalizing g with
  | nil => exact ⟨g, yields_forM_nil.mpr rfl, SplicedOut.nil hg hi hw⟩
  | cons id ids ih =>
    obtain ⟨op, hop⟩ := contains_iff.mp (hr.live id List.mem_cons_self)
    have hs := hr.splices List.mem_cons_self hop
    obtain ⟨g', hrun, hout⟩ := ih (hg.without id op) (indexed_without hop)
      (hw.without hg hi hs.live hs.outputs_le) (hr.without hg hi hw hop)
    have hstep : Yields (Rewiring.remove id) g () (g.without id op) :=
      (yields_remove hg).mpr ⟨op, hop, hs.outputs_le, rfl⟩
    exact ⟨g', yields_forM_cons.mpr ⟨_, hstep, hrun⟩, hout.cons hg hi hw hr hop⟩

/-- **Removing operators keeps the dataflow.** The run succeeds; the listed operators are gone, and
the others keep their order and everything but their connections; the graph is wired again; and a
port that is left lists another exactly when there was a path between them through listed operators.
Any other order of the list gives the same links. -/
theorem removeAll_dataflow {g : Graph} {ids : List Handle} (hg : g.WellFormed) (hi : g.Indexed)
    (hw : g.Wired) (hr : g.Removable ids) :
    ∃ g', Yields (Rewiring.removeAll ids) g () g' ∧ g.SplicedOut ids g' ∧
      ∀ ids', ids'.Perm ids → ∃ g'', Yields (Rewiring.removeAll ids') g () g'' ∧
        ∀ o i, g''.Lists o i ↔ g'.Lists o i := by
  obtain ⟨g', hrun, hout⟩ := removeAll_splicedOut hg hi hw hr
  refine ⟨g', hrun, hout, fun ids' hp => ?_⟩
  obtain ⟨g'', hrun', hout'⟩ := removeAll_splicedOut hg hi hw (hr.perm hp)
  refine ⟨g'', hrun', fun o i => ?_⟩
  rw [hout.lists_iff, hout'.lists_iff, hout.outputs_iff, hout.inputs_iff, hout'.outputs_iff,
    hout'.inputs_iff]
  simp only [hp.mem_iff]
  exact and_congr_right fun _ => and_congr_right fun _ =>
    ⟨FlowsThrough.perm hp, FlowsThrough.perm hp.symm⟩

/-- Two sources, two markers in a row, and a consumer that reads the first source directly as
well. -/
def twoPending : Graph := Graph.reindexed
  { name := "twoPending"
    slots := [
      some { name := "a", kind := "Beacon"
             outputs := [{ name := "ao", connections := ["mi", "bi"] }] },
      some { name := "c", kind := "Beacon"
             outputs := [{ name := "co", connections := ["mi"] }] },
      some { name := "m", kind := "$Pending$"
             inputs := [{ name := "mi", connections := ["ao", "co"] }]
             outputs := [{ name := "mo", connections := ["ni"] }] },
      some { name := "n", kind := "$Pending$"
             inputs := [{ name := "ni", connections := ["mo"] }]
             outputs := [{ name := "no", connections := ["bi"] }] },
      some { name := "b", kind := "Custom"
             inputs := [{ name := "bi", connections := ["no", "ao"] }] }]
    order := (List.range 5).map Handle.mk }

theorem removeAll_dataflow_twoPending :
    twoPending.WellFormed ∧ twoPending.Indexed ∧ twoPending.Wired ∧
      twoPending.Removable [⟨3⟩, ⟨2⟩] ∧
      ∃ g', Yields (Rewiring.removeAll [⟨3⟩, ⟨2⟩]) twoPending () g' ∧
        twoPending.SplicedOut [⟨3⟩, ⟨2⟩] g' ∧
        ∀ ids', ids'.Perm [⟨3⟩, ⟨2⟩] → ∃ g'', Yields (Rewiring.removeAll ids') twoPending () g'' ∧
          ∀ o i, g''.Lists o i ↔ g'.Lists o i := by
  have hof : Graph.ofDescription twoPending.toDescription = .ok twoPending := by decide
  have hg := WellFormed.ofDescription hof
  have hi := Indexed.ofDescription hof
  have hw : twoPending.Wired := by
    refine ⟨by decide, by decide, ?_, ?_, ?_⟩
    · decide
    · decide
    · show ∀ p ∈ twoPending.outputPorts, ∀ q ∈ twoPending.inputPorts, _
      decide
  have hr : twoPending.Removable [⟨3⟩, ⟨2⟩] := by
    refine ⟨by decide, by decide, ?_, fun id h => ?_⟩
    · intro id hid op hop
      have hnarrow : ∀ id ∈ ([⟨3⟩, ⟨2⟩] : List Handle), ∀ op ∈ twoPending.get? id,
          op.inputs.length ≤ 1 ∧ op.outputs.length ≤ 1 := by decide
      exact hnarrow id hid op hop
    · have hdown : ∀ x ∈ ([⟨3⟩, ⟨2⟩] : List Handle), ∀ y ∈ ([⟨3⟩, ⟨2⟩] : List Handle),
          y ∈ twoPending.children x → x.index < y.index := by decide
      have hlt : ∀ {x y}, Relation.TransGen (fun x y => x ∈ ([⟨3⟩, ⟨2⟩] : List Handle) ∧
          y ∈ ([⟨3⟩, ⟨2⟩] : List Handle) ∧ twoPending.Feeds x y) x y → x.index < y.index := by
        intro x y h
        induction h with
        | single h => exact hdown _ h.1 _ h.2.1 ((mem_children hg hi).mpr h.2.2)
        | tail _ h ih =>
          exact Nat.lt_trans ih (hdown _ h.1 _ h.2.1 ((mem_children hg hi).mpr h.2.2))
      exact Nat.lt_irrefl _ (hlt h)
  exact ⟨hg, hi, hw, hr, removeAll_dataflow hg hi hw hr⟩

end StreamTopology
