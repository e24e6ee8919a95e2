import StreamTopology.Proofs.Graph.Arena
import Mathlib.Data.List.Flatten
import Mathlib.Data.List.Pairwise

/-!
# Streams of a graph

The ports decide which streams there are, and the index only repeats what they say. This module
states that: `Graph.Feeds` reads a stream off the ports of its source, and for an index that is up
to date the neighbours that the index gives are those that the ports give.

A stream is written on both of its ports. `Graph.Agrees` says that the two sides tell the same
story, `Graph.Coherent` adds that a name is enough to find a port, and `Graph.Wired` that no port
lists a name twice. Dangling names, which no port owns, are allowed everywhere.

## Main definitions

* `Graph.outputPorts`, `Graph.inputPorts`: the ports of the live operators.
* `Graph.Feeds`, `Graph.Lists`: streams between operators and between ports.
* `Graph.Indexed`, `Graph.Agrees`, `Graph.Coherent`, `Graph.Wired`

## Main results

* `Graph.mem_children`, `Graph.mem_parents`: neighbours by the index are neighbours by the ports.
* `Graph.Coherent.output_owner`, `Graph.Coherent.input_owner`: a port has one owner.
-/

namespace StreamTopology

namespace Operator

theorem feeds_iff {a b : Operator} :
    a.feeds b = true ↔ ∃ p ∈ a.outputs, ∃ q ∈ b.inputs, q.name ∈ p.connections := by
  simp only [feeds, outgoing, ownsInput, List.any_eq_true, List.mem_flatMap, beq_iff_eq]
  constructor
  · rintro ⟨_, ⟨p, hp, hc⟩, q, hq, rfl⟩
    exact ⟨p, hp, q, hq, hc⟩
  · rintro ⟨p, hp, q, hq, hc⟩
    exact ⟨q.name, ⟨p, hp, hc⟩, q, hq, rfl⟩

theorem readsFrom_iff {a b : Operator} :
    b.readsFrom a = true ↔ ∃ q ∈ b.inputs, ∃ p ∈ a.outputs, p.name ∈ q.connections := by
  simp only [readsFrom, incoming, ownsOutput, List.any_eq_true, List.mem_flatMap, beq_iff_eq]
  constructor
  · rintro ⟨_, ⟨q, hq, hc⟩, p, hp, rfl⟩
    exact ⟨q, hq, p, hp, hc⟩
  · rintro ⟨q, hq, p, hp, hc⟩
    exact ⟨p.name, ⟨q, hq, hc⟩, p, hp, rfl⟩

end Operator

namespace Graph

variable {g : Graph} {x y : Handle} {a b : Operator}

/-! ### Operators with a property -/

theorem findAll_eq_filter {p : Operator → Bool} :
    g.findAll p = g.order.filter fun x => (g.get? x).any p := by
  unfold findAll entries
  induction g.order with
  | nil => rfl
  | cons x order ih =>
    rcases hx : g.get? x with _ | a
    · simp only [List.filterMap_cons, hx, Option.map_none, List.filter_cons, Option.any_none]
      exact ih
    · rcases hp : p a with _ | _ <;> simp [hx, hp, ih]

theorem mem_findAll (hg : g.WellFormed) {p : Operator → Bool} :
    x ∈ g.findAll p ↔ ∃ a, g.get? x = some a ∧ p a = true := by
  rw [findAll_eq_filter, List.mem_filter, hg.mem_order_iff, Option.any_eq_true]
  exact ⟨fun h => h.2, fun ⟨a, ha, hp⟩ => ⟨⟨a, ha⟩, a, ha, hp⟩⟩

theorem findAll_nodup (hg : g.WellFormed) {p : Operator → Bool} : (g.findAll p).Nodup := by
  rw [findAll_eq_filter]
  exact hg.order_nodup.filter _

/-- Operators may change apart from the property. -/
theorem findAll_congr {g' : Graph} {p : Operator → Bool} (horder : g'.order = g.order)
    (h : ∀ x, (g'.get? x).map p = (g.get? x).map p) : g'.findAll p = g.findAll p := by
  have hany : ∀ {o : Option Operator}, o.any p = (o.map p).getD false := by
    intro o
    cases o <;> rfl
  rw [findAll_eq_filter, findAll_eq_filter, horder]
  exact List.filter_congr fun x _ => by rw [hany, hany, h x]

/-! ### Streams by the ports -/

/-- The output ports of the live operators. -/
def outputPorts (g : Graph) : List OutputPort := g.operators.flatMap Operator.outputs

/-- The input ports of the live operators. -/
def inputPorts (g : Graph) : List InputPort := g.operators.flatMap Operator.inputs

/-- An output port of `x` lists an input port of `y`. -/
def Feeds (g : Graph) (x y : Handle) : Prop :=
  ∃ a b, g.get? x = some a ∧ g.get? y = some b ∧ a.feeds b = true

/-- An input port of `y` lists an output port of `x`. -/
def Reads (g : Graph) (y x : Handle) : Prop :=
  ∃ a b, g.get? x = some a ∧ g.get? y = some b ∧ b.readsFrom a = true

/-- The output port named `o` lists the input port named `i`. -/
def Lists (g : Graph) (o i : String) : Prop :=
  ∃ p ∈ g.outputPorts, ∃ q ∈ g.inputPorts, p.name = o ∧ q.name = i ∧ i ∈ p.connections

theorem mem_entries (hg : g.WellFormed) : (x, a) ∈ g.entries ↔ g.get? x = some a := by
  simp only [entries, List.mem_filterMap, Option.map_eq_some_iff, Prod.mk.injEq]
  constructor
  · rintro ⟨_, _, _, h, rfl, rfl⟩
    exact h
  · intro h
    exact ⟨x, hg.mem_order_iff.mpr ⟨a, h⟩, a, h, rfl, rfl⟩

theorem mem_operators (hg : g.WellFormed) : a ∈ g.operators ↔ ∃ x, g.get? x = some a := by
  simp only [operators, List.mem_map, Prod.exists, exists_eq_right, mem_entries hg]

theorem mem_outputPorts (hg : g.WellFormed) {p : OutputPort} :
    p ∈ g.outputPorts ↔ ∃ x a, g.get? x = some a ∧ p ∈ a.outputs := by
  simp only [outputPorts, List.mem_flatMap, mem_operators hg]
  exact ⟨fun ⟨a, ⟨x, h⟩, hp⟩ => ⟨x, a, h, hp⟩, fun ⟨x, a, h, hp⟩ => ⟨a, ⟨x, h⟩, hp⟩⟩

theorem mem_inputPorts (hg : g.WellFormed) {q : InputPort} :
    q ∈ g.inputPorts ↔ ∃ x a, g.get? x = some a ∧ q ∈ a.inputs := by
  simp only [inputPorts, List.mem_flatMap, mem_operators hg]
  exact ⟨fun ⟨a, ⟨x, h⟩, hp⟩ => ⟨x, a, h, hp⟩, fun ⟨x, a, h, hp⟩ => ⟨a, ⟨x, h⟩, hp⟩⟩

/-! ### Streams by the index -/

/-- The index is up to date. -/
def Indexed (g : Graph) : Prop := g.links = g.computeLinks

theorem indexed_reindexed (g : Graph) : g.reindexed.Indexed := rfl

/-- **The graph of a description has an index that is up to date.** -/
theorem Indexed.ofDescription {d : Description} (h : Graph.ofDescription d = .ok g) :
    g.Indexed := by
  unfold Graph.ofDescription at h
  split at h
  · cases h
  · cases h
    exact indexed_reindexed _

theorem mem_pairs (hg : g.WellFormed) {r : Operator → Operator → Bool} :
    (x, y) ∈ pairs g.entries r ↔
      ∃ a b, g.get? x = some a ∧ g.get? y = some b ∧ r a b = true := by
  simp only [pairs, List.mem_flatMap, List.mem_map, List.mem_filter, Prod.exists, Prod.mk.injEq,
    mem_entries hg]
  constructor
  · rintro ⟨_, a, ha, _, b, ⟨hb, hr⟩, rfl, rfl⟩
    exact ⟨a, b, ha, hb, hr⟩
  · rintro ⟨a, b, ha, hb, hr⟩
    exact ⟨x, a, ha, y, b, ⟨hb, hr⟩, rfl, rfl⟩

theorem mem_children_links :
    y ∈ g.children x ↔ x ∈ g.order ∧ y ∈ g.order ∧ (x, y) ∈ g.links.forward := by
  unfold children
  by_cases hx : x ∈ g.order
  · simp [hx, Links.targets]
  · simp [hx]

theorem mem_parents_links :
    x ∈ g.parents y ↔ y ∈ g.order ∧ x ∈ g.order ∧ (x, y) ∈ g.links.backward := by
  unfold parents
  by_cases hy : y ∈ g.order
  · simp [hy, Links.origins]
  · simp [hy]

theorem children_nodup (hg : g.WellFormed) : (g.children x).Nodup := by
  unfold children
  split
  · exact hg.order_nodup.filter _
  · exact List.nodup_nil

theorem parents_nodup (hg : g.WellFormed) : (g.parents x).Nodup := by
  unfold parents
  split
  · exact hg.order_nodup.filter _
  · exact List.nodup_nil

theorem contains_of_mem_children (hg : g.WellFormed) (h : y ∈ g.children x) :
    g.contains y = true :=
  (hg.mem_order y).mp (mem_children_links.mp h).2.1

theorem contains_of_mem_parents (hg : g.WellFormed) (h : x ∈ g.parents y) :
    g.contains x = true :=
  (hg.mem_order x).mp (mem_parents_links.mp h).2.1

/-- **The children of an operator are those that its output ports name.** -/
theorem mem_children (hg : g.WellFormed) (hi : g.Indexed) : y ∈ g.children x ↔ g.Feeds x y := by
  have hlinks : g.links.forward = pairs g.entries fun a b => a.feeds b := by rw [hi]; rfl
  rw [mem_children_links, hlinks, mem_pairs hg, hg.mem_order_iff, hg.mem_order_iff]
  constructor
  · exact fun h => h.2.2
  · rintro ⟨a, b, ha, hb, hf⟩
    exact ⟨⟨a, ha⟩, ⟨b, hb⟩, a, b, ha, hb, hf⟩

/-- The parents of an operator are those that its input ports name. -/
theorem mem_parents_reads (hg : g.WellFormed) (hi : g.Indexed) :
    x ∈ g.parents y ↔ g.Reads y x := by
  have hlinks : g.links.backward = pairs g.entries fun a b => b.readsFrom a := by rw [hi]; rfl
  rw [mem_parents_links, hlinks, mem_pairs hg, hg.mem_order_iff, hg.mem_order_iff]
  constructor
  · exact fun h => h.2.2
  · rintro ⟨a, b, ha, hb, hf⟩
    exact ⟨⟨b, hb⟩, ⟨a, ha⟩, a, b, ha, hb, hf⟩

/-! ### Ports that agree -/

/-- An output port lists an input port exactly when that input port lists the output port. -/
def Agrees (g : Graph) : Prop :=
  ∀ p ∈ g.outputPorts, ∀ q ∈ g.inputPorts, q.name ∈ p.connections ↔ p.name ∈ q.connections

instance (g : Graph) : Decidable g.Agrees :=
  inferInstanceAs (Decidable (∀ p ∈ g.outputPorts, ∀ q ∈ g.inputPorts,
    q.name ∈ p.connections ↔ p.name ∈ q.connections))

theorem Agrees.reads_iff (hg : g.WellFormed) (h : g.Agrees) : g.Reads y x ↔ g.Feeds x y := by
  have ports : ∀ a b, g.get? x = some a → g.get? y = some b →
      (b.readsFrom a = true ↔ a.feeds b = true) := by
    intro a b ha hb
    rw [Operator.readsFrom_iff, Operator.feeds_iff]
    have hout : ∀ p ∈ a.outputs, p ∈ g.outputPorts :=
      fun p hp => (mem_outputPorts hg).mpr ⟨x, a, ha, hp⟩
    have hin : ∀ q ∈ b.inputs, q ∈ g.inputPorts :=
      fun q hq => (mem_inputPorts hg).mpr ⟨y, b, hb, hq⟩
    constructor
    · rintro ⟨q, hq, p, hp, hc⟩
      exact ⟨p, hp, q, hq, (h p (hout p hp) q (hin q hq)).mpr hc⟩
    · rintro ⟨p, hp, q, hq, hc⟩
      exact ⟨q, hq, p, hp, (h p (hout p hp) q (hin q hq)).mp hc⟩
  constructor
  · rintro ⟨a, b, ha, hb, hr⟩
    exact ⟨a, b, ha, hb, (ports a b ha hb).mp hr⟩
  · rintro ⟨a, b, ha, hb, hf⟩
    exact ⟨a, b, ha, hb, (ports a b ha hb).mpr hf⟩

/-- **Where the ports agree, parents and children are two sides of one relation.** -/
theorem mem_parents (hg : g.WellFormed) (hi : g.Indexed) (ha : g.Agrees) :
    x ∈ g.parents y ↔ g.Feeds x y :=
  (mem_parents_reads hg hi).trans (ha.reads_iff hg)

/-- Names are enough to find ports, and the two sides of every stream agree. -/
structure Coherent (g : Graph) : Prop where
  inputs_nodup : (g.inputPorts.map InputPort.name).Nodup
  outputs_nodup : (g.outputPorts.map OutputPort.name).Nodup
  agrees : g.Agrees

/-- Names are enough to find ports, no port lists a name twice, and the two sides of every stream
agree. -/
structure Wired (g : Graph) : Prop where
  inputs_nodup : (g.inputPorts.map InputPort.name).Nodup
  outputs_nodup : (g.outputPorts.map OutputPort.name).Nodup
  reads_nodup : ∀ q ∈ g.inputPorts, q.connections.Nodup
  feeds_nodup : ∀ p ∈ g.outputPorts, p.connections.Nodup
  agrees : g.Agrees

instance (g : Graph) : Decidable g.Coherent :=
  decidable_of_iff ((g.inputPorts.map InputPort.name).Nodup ∧
      (g.outputPorts.map OutputPort.name).Nodup ∧ g.Agrees)
    ⟨fun ⟨hin, hout, ha⟩ => ⟨hin, hout, ha⟩, fun ⟨hin, hout, ha⟩ => ⟨hin, hout, ha⟩⟩

instance (g : Graph) : Decidable g.Wired :=
  decidable_of_iff (g.Coherent ∧ (∀ q ∈ g.inputPorts, q.connections.Nodup) ∧
      ∀ p ∈ g.outputPorts, p.connections.Nodup)
    ⟨fun ⟨hco, hreads, hfeeds⟩ => ⟨hco.inputs_nodup, hco.outputs_nodup, hreads, hfeeds, hco.agrees⟩,
      fun ⟨hin, hout, hreads, hfeeds, ha⟩ => ⟨⟨hin, hout, ha⟩, hreads, hfeeds⟩⟩

/-! ### Owners of ports

Input ports and output ports behave alike here, so the two families are one parameter. -/

section

variable {γ : Type} {ports : Operator → List γ} {name : γ → String}

/-- The names of a family of ports, operator by operator in graph order. -/
theorem portNames_eq (g : Graph) (ports : Operator → List γ) (name : γ → String) :
    (g.operators.flatMap ports).map name =
      g.order.flatMap fun x => ((g.get? x).map fun a => (ports a).map name).getD [] := by
  simp only [operators, entries, List.map_flatMap, List.map_filterMap]
  induction g.order with
  | nil => rfl
  | cons x order ih =>
    rw [List.flatMap_cons, ← ih]
    rcases hx : g.get? x with _ | a
    · simp [hx]
    · simp [hx]

/-- The names of the ports of one operator. -/
theorem portNames_nodup (hg : g.WellFormed)
    (hnd : ((g.operators.flatMap ports).map name).Nodup) (ha : g.get? x = some a) :
    ((ports a).map name).Nodup := by
  rw [portNames_eq, List.nodup_flatMap] at hnd
  have hnames := hnd.1 x (hg.mem_order_iff.mpr ⟨a, ha⟩)
  rwa [ha] at hnames

theorem port_owner (hg : g.WellFormed)
    (hnd : ((g.operators.flatMap ports).map name).Nodup) {p q : γ}
    (ha : g.get? x = some a) (hp : p ∈ ports a) (hb : g.get? y = some b) (hq : q ∈ ports b)
    (hname : name p = name q) : x = y ∧ p = q := by
  have hnames := portNames_nodup hg hnd ha
  rw [portNames_eq, List.nodup_flatMap] at hnd
  have hxo : x ∈ g.order := hg.mem_order_iff.mpr ⟨a, ha⟩
  have hyo : y ∈ g.order := hg.mem_order_iff.mpr ⟨b, hb⟩
  have hxy : x = y := by
    by_contra hne
    have : Std.Symm (Function.onFun List.Disjoint fun x =>
        ((g.get? x).map fun a => (ports a).map name).getD []) := ⟨fun _ _ h _ h₁ h₂ => h h₂ h₁⟩
    have hdisj := hnd.2.forall hxo hyo hne
    simp only [Function.onFun, ha, hb] at hdisj
    exact hdisj (List.mem_map_of_mem hp) (hname ▸ List.mem_map_of_mem hq)
  subst hxy
  obtain rfl : a = b := Option.some.inj (ha.symm.trans hb)
  exact ⟨rfl, List.inj_on_of_nodup_map hnames hp hq hname⟩

/-- Operators may go and may change apart from the names of their ports: no name appears twice
that did not before. -/
theorem portNames_sublist {g' : Graph} (horder : g'.order.Sublist g.order)
    (hnames : ∀ x ∈ g'.order, (g'.get? x).map (fun a => (ports a).map name) =
      (g.get? x).map fun a => (ports a).map name) :
    ((g'.operators.flatMap ports).map name).Sublist ((g.operators.flatMap ports).map name) := by
  rw [portNames_eq, portNames_eq]
  have hcongr : (g'.order.flatMap fun x => ((g'.get? x).map fun a => (ports a).map name).getD []) =
      g'.order.flatMap fun x => ((g.get? x).map fun a => (ports a).map name).getD [] :=
    List.flatMap_congr fun x hx => by rw [hnames x hx]
  rw [hcongr]
  exact horder.flatMap _

end

theorem Coherent.output_owner (hg : g.WellFormed) (hc : g.Coherent) {p q : OutputPort}
    (ha : g.get? x = some a) (hp : p ∈ a.outputs) (hb : g.get? y = some b) (hq : q ∈ b.outputs)
    (hname : p.name = q.name) : x = y ∧ p = q :=
  port_owner hg hc.outputs_nodup ha hp hb hq hname

theorem Coherent.input_owner (hg : g.WellFormed) (hc : g.Coherent) {p q : InputPort}
    (ha : g.get? x = some a) (hp : p ∈ a.inputs) (hb : g.get? y = some b) (hq : q ∈ b.inputs)
    (hname : p.name = q.name) : x = y ∧ p = q :=
  port_owner hg hc.inputs_nodup ha hp hb hq hname

theorem Wired.coherent (hw : g.Wired) : g.Coherent :=
  ⟨hw.inputs_nodup, hw.outputs_nodup, hw.agrees⟩

theorem Wired.output_owner (hg : g.WellFormed) (hw : g.Wired) {p q : OutputPort}
    (ha : g.get? x = some a) (hp : p ∈ a.outputs) (hb : g.get? y = some b) (hq : q ∈ b.outputs)
    (hname : p.name = q.name) : x = y ∧ p = q :=
  hw.coherent.output_owner hg ha hp hb hq hname

theorem Wired.input_owner (hg : g.WellFormed) (hw : g.Wired) {p q : InputPort}
    (ha : g.get? x = some a) (hp : p ∈ a.inputs) (hb : g.get? y = some b) (hq : q ∈ b.inputs)
    (hname : p.name = q.name) : x = y ∧ p = q :=
  hw.coherent.input_owner hg ha hp hb hq hname

end Graph

end StreamTopology
