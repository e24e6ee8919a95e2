import StreamTopology.Proofs.Graph.Rewiring

/-!
# One operator put in between

`Rewiring.interpose` goes through all pairs of an output port of the parent and an input port of the
child, and routes each stream between two such ports through the added operator. One such step
changes the connections of ports by a rule that looks only at the name of a port
(`Operator.relink`), so its effect on streams can be read off for all ports at once. The loops then
carry the streams along: those between pairs that are done have been replaced, the others are as
they were.

## Main definitions

* `Graph.OutputOf`, `Graph.InputOf`: whose port has a name.
* `Operator.relink`: connections changed by a rule on names.
* `Graph.Covers`: what is listed was listed before, as often.
* `Graph.Routed`: a graph in which the streams of some pairs of ports have been routed.

## Main results

* `yields_routePorts`: what one step does to every operator.
* `interpose_routed`: what all steps together have done.
-/

namespace StreamTopology

/-! ### Rules on names -/

section

variable {α : Type} {name : α → String} {f : α → α}

/-- Where names are different, the element at a place is the element with its name. -/
theorem modify_eq_map {l : List α} {n : Nat} {p : α} (hnd : (l.map name).Nodup)
    (h : l[n]? = some p) : l.modify n f = l.map fun x => if name x = name p then f x else x := by
  have hlt : n < (l.map name).length := by
    rw [List.length_map]
    exact (List.getElem?_eq_some_iff.mp h).1
  refine List.ext_getElem? fun m => ?_
  rw [List.getElem?_modify, List.getElem?_map]
  rcases hm : l[m]? with _ | x
  · rfl
  · have hplace : n = m ↔ name x = name p := by
      rw [← List.getElem?_inj hlt hnd, List.getElem?_map, List.getElem?_map, h, hm,
        Option.map_some, Option.map_some, Option.some.injEq, eq_comm]
    simp only [Option.map_eq_map, Option.map_some, hplace]

theorem exists_mem_zipIdx (name : α → String) {l : List α} {c : String} :
    (∃ x ∈ l.zipIdx, name x.1 = c) ↔ ∃ x ∈ l, name x = c := by
  have hnames : (l.zipIdx.map Prod.fst).map name = l.map name := by rw [List.zipIdx_map_fst]
  rw [← List.mem_map (f := name), ← hnames, List.map_map]
  exact List.mem_map.symm

theorem Rewiring.mapHead_eq_modify {l : List α} : Rewiring.mapHead f l = l.modify 0 f := by
  cases l <;> rfl

end

/-- The operator with other connections at its ports, by rules that may look at the name of the
port. -/
def Operator.relink (out inp : String → List String → List String) (op : Operator) : Operator :=
  { op with
    inputs := op.inputs.map fun q => { q with connections := inp q.name q.connections }
    outputs := op.outputs.map fun p => { p with connections := out p.name p.connections } }

theorem Operator.relink_eq (out inp : String → List String → List String) (op : Operator) :
    op.relink out inp =
      { op with
        inputs := (op.relink out inp).inputs
        outputs := (op.relink out inp).outputs } := rfl

@[simp] theorem Operator.disconnected_relink {out inp : String → List String → List String}
    {op : Operator} : (op.relink out inp).disconnected = op.disconnected := by
  simp [relink, disconnected, Function.comp_def]

namespace Rewiring

/-- What routing the stream between the ports `known` and `other` makes of the connections of a
port, on the side of `known`: the port of that name has `new` instead of `other`, which now goes
with `fresh`. -/
def route (new fresh known other name : String) (names : List String) : List String :=
  if name = known then rename other new names
  else if name = fresh then addOnce names other
  else names

variable {c d old new : String} {names : List String}

theorem mem_rename : c ∈ rename old new names ↔ c ∈ names ∧ c ≠ old ∨ c = new ∧ old ∈ names := by
  simp only [rename, List.mem_map]
  constructor
  · rintro ⟨d, hd, rfl⟩
    split
    next h => exact Or.inr ⟨rfl, h ▸ hd⟩
    next h => exact Or.inl ⟨hd, h⟩
  · rintro (⟨hc, hne⟩ | ⟨rfl, hold⟩)
    · exact ⟨c, hc, if_neg hne⟩
    · exact ⟨old, hold, if_pos rfl⟩

theorem count_rename_le (hc : c ≠ new) : (rename old new names).count c ≤ names.count c := by
  induction names with
  | nil => exact Nat.le_refl _
  | cons d names ih =>
    have htail : ((if d = old then new else d) :: rename old new names).count c ≤
        (d :: names).count c := by
      by_cases hd : d = old
      · rw [if_pos hd, List.count_cons_of_ne hc.symm]
        exact Nat.le_trans ih List.count_le_count_cons
      · rw [if_neg hd, List.count_cons, List.count_cons]
        exact Nat.add_le_add_right ih _
    exact htail

theorem mem_route {new fresh known other name : String} (h : known ≠ fresh) :
    c ∈ route new fresh known other name names ↔
      c ∈ names ∧ ¬ (name = known ∧ c = other) ∨ name = known ∧ c = new ∧ other ∈ names ∨
        name = fresh ∧ c = other := by
  unfold route
  split
  next hname =>
    have hfresh : name ≠ fresh := hname ▸ h
    rw [mem_rename]
    tauto
  next hname =>
    split
    next hfresh =>
      rw [mem_addOnce]
      tauto
    next hfresh => tauto

theorem count_addOnce_le : (addOnce names d).count c ≤ max 1 (names.count c) := by
  unfold addOnce
  split
  next => exact Nat.le_max_right _ _
  next hd =>
    have hd : d ∉ names := by simpa using hd
    rw [List.count_append]
    by_cases hc : c = d
    · subst hc
      simp [List.count_eq_zero_of_not_mem hd]
    · have hnew : c ∉ [d] := fun hmem => hc (List.mem_singleton.mp hmem)
      rw [List.count_eq_zero_of_not_mem hnew, Nat.add_zero]
      exact Nat.le_max_right _ _

theorem count_addAll_le {more : List String} :
    (addAll names more).count c ≤ max 1 (names.count c) := by
  unfold addAll
  induction more generalizing names with
  | nil => exact Nat.le_max_right _ _
  | cons d more ih =>
    have hstep : (addOnce names d).count c ≤ max 1 (names.count c) := count_addOnce_le
    exact Nat.le_trans ih (by omega)

theorem count_route_le {new fresh known other name : String} (hc : c ≠ new) :
    (route new fresh known other name names).count c ≤ max 1 (names.count c) := by
  unfold route
  split
  next => exact Nat.le_trans (count_rename_le hc) (Nat.le_max_right _ _)
  next =>
    split
    next => exact count_addOnce_le
    next => exact Nat.le_max_right _ _

theorem count_rewire_le {gone : String → Bool} {instead : List String} :
    (rewire gone instead names).count c ≤ max 1 (names.count c) := by
  unfold rewire
  split
  next =>
    have hsub : (names.eraseP gone).count c ≤ names.count c := List.eraseP_sublist.count_le c
    have hall : (addAll (names.eraseP gone) instead).count c ≤
        max 1 ((names.eraseP gone).count c) := count_addAll_le
    omega
  next => exact Nat.le_max_right _ _

end Rewiring

namespace Graph

open Rewiring

variable {g g' t : Graph} {x y parent child added : Handle} {a b c op : Operator}
  {p addOut : OutputPort} {q addIn : InputPort} {m n : Nat} {o i : String} {u : PUnit}

/-! ### Names of ports -/

/-- The operator has an output port of this name. -/
def OutputOf (g : Graph) (x : Handle) (o : String) : Prop :=
  ∃ a, g.get? x = some a ∧ a.ownsOutput o = true

/-- The operator has an input port of this name. -/
def InputOf (g : Graph) (y : Handle) (i : String) : Prop :=
  ∃ b, g.get? y = some b ∧ b.ownsInput i = true

theorem outputOf_iff :
    g.OutputOf x o ↔ (g.get? x).map (fun a => a.ownsOutput o) = some true :=
  Option.map_eq_some_iff.symm

theorem inputOf_iff : g.InputOf y i ↔ (g.get? y).map (fun b => b.ownsInput i) = some true :=
  Option.map_eq_some_iff.symm

/-- Operators that differ in connections only have ports of the same names. -/
theorem outputOf_congr
    (h : (t.get? x).map Operator.disconnected = (g.get? x).map Operator.disconnected) :
    t.OutputOf x o ↔ g.OutputOf x o := by
  rw [outputOf_iff, outputOf_iff, map_eq_of_map_eq h fun op => ?_]
  simp [Operator.ownsOutput, Operator.disconnected, Function.comp_def]

theorem inputOf_congr
    (h : (t.get? y).map Operator.disconnected = (g.get? y).map Operator.disconnected) :
    t.InputOf y i ↔ g.InputOf y i := by
  rw [inputOf_iff, inputOf_iff, map_eq_of_map_eq h fun op => ?_]
  simp [Operator.ownsInput, Operator.disconnected, Function.comp_def]

theorem Coherent.eq_of_output (hg : g.WellFormed) (hco : g.Coherent) (hx : g.OutputOf x o)
    (hy : g.OutputOf y o) : x = y := by
  obtain ⟨a, ha, hxo⟩ := hx
  obtain ⟨b, hb, hyo⟩ := hy
  obtain ⟨p, hp, rfl⟩ := ownsOutput_iff.mp hxo
  obtain ⟨p', hp', hname⟩ := ownsOutput_iff.mp hyo
  exact (hco.output_owner hg ha hp hb hp' hname.symm).1

theorem Coherent.eq_of_input (hg : g.WellFormed) (hco : g.Coherent) (hx : g.InputOf x i)
    (hy : g.InputOf y i) : x = y := by
  obtain ⟨a, ha, hxi⟩ := hx
  obtain ⟨b, hb, hyi⟩ := hy
  obtain ⟨q, hq, rfl⟩ := ownsInput_iff.mp hxi
  obtain ⟨q', hq', hname⟩ := ownsInput_iff.mp hyi
  exact (hco.input_owner hg ha hq hb hq' hname.symm).1

theorem OutputOf.exists_port (hg : g.WellFormed) (h : g.OutputOf x o) :
    ∃ p ∈ g.outputPorts, p.name = o := by
  obtain ⟨a, ha, hown⟩ := h
  obtain ⟨p, hp, hname⟩ := ownsOutput_iff.mp hown
  exact ⟨p, (mem_outputPorts hg).mpr ⟨x, a, ha, hp⟩, hname⟩

theorem InputOf.exists_port (hg : g.WellFormed) (h : g.InputOf y i) :
    ∃ q ∈ g.inputPorts, q.name = i := by
  obtain ⟨b, hb, hown⟩ := h
  obtain ⟨q, hq, hname⟩ := ownsInput_iff.mp hown
  exact ⟨q, (mem_inputPorts hg).mpr ⟨y, b, hb, hq⟩, hname⟩

/-- A stream comes from an operator. -/
theorem Lists.exists_outputOf (hg : g.WellFormed) (h : g.Lists o i) : ∃ x, g.OutputOf x o := by
  obtain ⟨p, hp, _, _, rfl, _, _⟩ := h
  obtain ⟨x, a, ha, hpa⟩ := (mem_outputPorts hg).mp hp
  exact ⟨x, a, ha, ownsOutput_iff.mpr ⟨p, hpa, rfl⟩⟩

/-- A stream leads to an operator. -/
theorem Lists.exists_inputOf (hg : g.WellFormed) (h : g.Lists o i) : ∃ y, g.InputOf y i := by
  obtain ⟨_, _, q, hq, _, rfl, _⟩ := h
  obtain ⟨y, b, hb, hqb⟩ := (mem_inputPorts hg).mp hq
  exact ⟨y, b, hb, ownsInput_iff.mpr ⟨q, hqb, rfl⟩⟩

/-! ### What is listed -/

/-- Whatever the ports of `t` list, apart from the names of new ports, some port of `g` lists, and
at least as often. -/
structure Covers (g : Graph) (newIn newOut : List String) (t : Graph) : Prop where
  outputs : ∀ p' ∈ t.outputPorts, ∀ c ∈ p'.connections, c ∉ newIn →
    ∃ p ∈ g.outputPorts, c ∈ p.connections ∧ p'.connections.count c ≤ p.connections.count c
  inputs : ∀ q' ∈ t.inputPorts, ∀ c ∈ q'.connections, c ∉ newOut →
    ∃ q ∈ g.inputPorts, c ∈ q.connections ∧ q'.connections.count c ≤ q.connections.count c

/-- A port that lists a name at most once more than it did lists it no more often than some port
that did. -/
theorem exists_count_le {γ : Type} {ports : List γ} {connections : γ → List String}
    {names : List String} {c : String} {p : γ} (hp : p ∈ ports)
    (hle : names.count c ≤ max 1 ((connections p).count c))
    (hsome : ∃ r ∈ ports, c ∈ connections r) :
    ∃ r ∈ ports, c ∈ connections r ∧ names.count c ≤ (connections r).count c := by
  by_cases hc : c ∈ connections p
  · have hpos := List.count_pos_iff.mpr hc
    exact ⟨p, hp, hc, by omega⟩
  · obtain ⟨r, hr, hcr⟩ := hsome
    have hpos := List.count_pos_iff.mpr hcr
    have hzero := List.count_eq_zero_of_not_mem hc
    exact ⟨r, hr, hcr, by omega⟩

theorem Covers.refl {newIn newOut : List String} : g.Covers newIn newOut g :=
  ⟨fun p hp _ hc _ => ⟨p, hp, hc, Nat.le_refl _⟩, fun q hq _ hc _ => ⟨q, hq, hc, Nat.le_refl _⟩⟩

theorem Covers.trans {newIn newOut : List String} (h : g.Covers newIn newOut g')
    (h' : g'.Covers newIn newOut t) : g.Covers newIn newOut t := by
  refine ⟨fun p hp c hc hnew => ?_, fun q hq c hc hnew => ?_⟩
  · obtain ⟨p', hp', hc', hle'⟩ := h'.outputs p hp c hc hnew
    obtain ⟨p'', hp'', hc'', hle⟩ := h.outputs p' hp' c hc' hnew
    exact ⟨p'', hp'', hc'', Nat.le_trans hle' hle⟩
  · obtain ⟨q', hq', hc', hle'⟩ := h'.inputs q hq c hc hnew
    obtain ⟨q'', hq'', hc'', hle⟩ := h.inputs q' hq' c hc' hnew
    exact ⟨q'', hq'', hc'', Nat.le_trans hle' hle⟩

theorem Covers.mono {newIn newOut newIn' newOut' : List String} (hin : newIn ⊆ newIn')
    (hout : newOut ⊆ newOut') (h : g.Covers newIn newOut t) : g.Covers newIn' newOut' t :=
  ⟨fun p hp c hc hnew => h.outputs p hp c hc fun hmem => hnew (hin hmem),
    fun q hq c hc hnew => h.inputs q hq c hc fun hmem => hnew (hout hmem)⟩

/-! ### Rules on all ports -/

/-- `t` is `g` with the connections of all ports changed by rules. -/
structure Relinks (g : Graph) (out inp : String → List String → List String) (t : Graph) :
    Prop where
  wellFormed : t.WellFormed
  order : t.order = g.order
  get? : ∀ x, t.get? x = (g.get? x).map (Operator.relink out inp)

section

variable {out inp : String → List String → List String} (hg : g.WellFormed)
  (h : g.Relinks out inp t)

include h

theorem Relinks.disconnected (x : Handle) :
    (t.get? x).map Operator.disconnected = (g.get? x).map Operator.disconnected := by
  rw [h.get?, Option.map_map]
  exact congrFun (congrArg Option.map (funext fun _ => Operator.disconnected_relink)) _

include hg

theorem Relinks.mem_outputPorts {p' : OutputPort} : p' ∈ t.outputPorts ↔
    ∃ p ∈ g.outputPorts, p' = { p with connections := out p.name p.connections } := by
  rw [Graph.mem_outputPorts h.wellFormed]
  constructor
  · rintro ⟨x, a', ha', hp'⟩
    rw [h.get?] at ha'
    obtain ⟨a, ha, rfl⟩ := Option.map_eq_some_iff.mp ha'
    obtain ⟨p, hp, rfl⟩ := List.mem_map.mp hp'
    exact ⟨p, (Graph.mem_outputPorts hg).mpr ⟨x, a, ha, hp⟩, rfl⟩
  · rintro ⟨p, hp, rfl⟩
    obtain ⟨x, a, ha, hp⟩ := (Graph.mem_outputPorts hg).mp hp
    exact ⟨x, a.relink out inp, by rw [h.get?, ha]; rfl, List.mem_map.mpr ⟨p, hp, rfl⟩⟩

theorem Relinks.mem_inputPorts {q' : InputPort} : q' ∈ t.inputPorts ↔
    ∃ q ∈ g.inputPorts, q' = { q with connections := inp q.name q.connections } := by
  rw [Graph.mem_inputPorts h.wellFormed]
  constructor
  · rintro ⟨x, a', ha', hq'⟩
    rw [h.get?] at ha'
    obtain ⟨a, ha, rfl⟩ := Option.map_eq_some_iff.mp ha'
    obtain ⟨q, hq, rfl⟩ := List.mem_map.mp hq'
    exact ⟨q, (Graph.mem_inputPorts hg).mpr ⟨x, a, ha, hq⟩, rfl⟩
  · rintro ⟨q, hq, rfl⟩
    obtain ⟨x, a, ha, hq⟩ := (Graph.mem_inputPorts hg).mp hq
    exact ⟨x, a.relink out inp, by rw [h.get?, ha]; rfl, List.mem_map.mpr ⟨q, hq, rfl⟩⟩

theorem Relinks.lists : t.Lists o i ↔ ∃ p ∈ g.outputPorts, ∃ q ∈ g.inputPorts,
    p.name = o ∧ q.name = i ∧ i ∈ out o p.connections := by
  constructor
  · rintro ⟨p', hp', q', hq', rfl, rfl, hc⟩
    obtain ⟨p, hp, rfl⟩ := (h.mem_outputPorts hg).mp hp'
    obtain ⟨q, hq, rfl⟩ := (h.mem_inputPorts hg).mp hq'
    exact ⟨p, hp, q, hq, rfl, rfl, hc⟩
  · rintro ⟨p, hp, q, hq, rfl, rfl, hc⟩
    exact ⟨_, (h.mem_outputPorts hg).mpr ⟨p, hp, rfl⟩, _, (h.mem_inputPorts hg).mpr ⟨q, hq, rfl⟩,
      rfl, rfl, hc⟩

/-- Rules that say the same on both sides keep a graph coherent. -/
theorem Relinks.coherent (hco : g.Coherent)
    (hrules : ∀ p ∈ g.outputPorts, ∀ q ∈ g.inputPorts,
      q.name ∈ out p.name p.connections ↔ p.name ∈ inp q.name q.connections) : t.Coherent := by
  have horder : t.order.Sublist g.order := h.order ▸ List.Sublist.refl _
  refine ⟨hco.inputs_nodup.sublist (portNames_sublist horder fun x _ => ?_),
    hco.outputs_nodup.sublist (portNames_sublist horder fun x _ => ?_), fun p' hp' q' hq' => ?_⟩
  · rw [h.get?, Option.map_map]
    refine congrFun (congrArg Option.map (funext fun a => ?_)) _
    simp [Operator.relink, Function.comp_def]
  · rw [h.get?, Option.map_map]
    refine congrFun (congrArg Option.map (funext fun a => ?_)) _
    simp [Operator.relink, Function.comp_def]
  · obtain ⟨p, hp, rfl⟩ := (h.mem_outputPorts hg).mp hp'
    obtain ⟨q, hq, rfl⟩ := (h.mem_inputPorts hg).mp hq'
    exact hrules p hp q hq

end

/-! ### One step -/

/-- A rule on names that changes one port of the parent and the first port of the added operator. -/
theorem map_route {γ : Type} (name : γ → String) (known fresh : String) {f f' : γ → γ}
    {ports : List γ} {atParent atAdded : Prop} [Decidable atParent] [Decidable atAdded]
    (hnd : (ports.map name).Nodup) (hapart : atParent → ¬ atAdded)
    (hknown : ∀ r ∈ ports, name r = known → atParent)
    (hfresh : ∀ r ∈ ports, name r = fresh → atAdded)
    (hplace : atParent → ∃ r, ports[m]? = some r ∧ name r = known)
    (hhead : atAdded → ∃ r, ports.head? = some r ∧ name r = fresh) :
    (ports.map fun r => if name r = known then f r else if name r = fresh then f' r else r) =
      if atParent then ports.modify m f else if atAdded then mapHead f' ports else ports := by
  by_cases hp : atParent
  · obtain ⟨r, hr, rfl⟩ := hplace hp
    rw [if_pos hp, modify_eq_map hnd hr]
    refine List.map_congr_left fun s hs => ?_
    have hother : name s ≠ fresh := fun hname => hapart hp (hfresh s hs hname)
    rw [if_neg hother]
  · have hother : ∀ s ∈ ports, name s ≠ known := fun s hs hname => hp (hknown s hs hname)
    rw [if_neg hp]
    by_cases ha : atAdded
    · obtain ⟨r, hr, rfl⟩ := hhead ha
      rw [if_pos ha, mapHead_eq_modify, modify_eq_map hnd (List.head?_eq_getElem?.symm.trans hr)]
      exact List.map_congr_left fun s hs => if_neg (hother s hs)
    · rw [if_neg ha]
      refine (List.map_congr_left fun s hs => ?_).trans (List.map_id _)
      rw [if_neg (hother s hs), if_neg fun hname => ha (hfresh s hs hname), id]

section

variable (hg : g.WellFormed) (hco : g.Coherent) (ha : g.get? parent = some a)
  (hp : a.outputs[m]? = some p) (hb : g.get? child = some b) (hq : b.inputs[n]? = some q)
  (hc : g.get? added = some c) (hin : c.inputs.head? = some addIn)
  (hout : c.outputs.head? = some addOut) (hparent : parent ≠ added) (hchild : child ≠ added)

include hg hco

theorem relink_outputs (ha : g.get? parent = some a) (hp : a.outputs[m]? = some p)
    (hc : g.get? added = some c) (hout : c.outputs.head? = some addOut) (hparent : parent ≠ added)
    (inp : String → List String → List String) (hx : g.get? x = some op) :
    (op.relink (route o addOut.name p.name i) inp).outputs =
      if x = parent then op.outputs.modify m fun p =>
        { p with connections := rename i o p.connections }
      else if x = added then mapHead
        (fun p => { p with connections := addOnce p.connections i }) op.outputs
      else op.outputs := by
  have hpmem : p ∈ a.outputs := List.mem_of_getElem? hp
  have hcmem : addOut ∈ c.outputs := List.mem_of_head? hout
  rw [← map_route OutputPort.name p.name addOut.name]
  · refine List.map_congr_left fun r _ => ?_
    simp only [route]
    split
    · rfl
    · split <;> rfl
  · exact portNames_nodup hg hco.outputs_nodup hx
  · exact fun hxp hxa => hparent (hxp ▸ hxa)
  · exact fun r hr hname => (hco.output_owner hg hx hr ha hpmem hname).1
  · exact fun r hr hname => (hco.output_owner hg hx hr hc hcmem hname).1
  · rintro rfl
    obtain rfl := Option.some.inj (hx.symm.trans ha)
    exact ⟨p, hp, rfl⟩
  · rintro rfl
    obtain rfl := Option.some.inj (hx.symm.trans hc)
    exact ⟨addOut, hout, rfl⟩

theorem relink_inputs (hb : g.get? child = some b) (hq : b.inputs[n]? = some q)
    (hc : g.get? added = some c) (hin : c.inputs.head? = some addIn) (hchild : child ≠ added)
    (out : String → List String → List String) (hx : g.get? x = some op) :
    (op.relink out (route i addIn.name q.name o)).inputs =
      if x = child then op.inputs.modify n fun q =>
        { q with connections := rename o i q.connections }
      else if x = added then mapHead
        (fun q => { q with connections := addOnce q.connections o }) op.inputs
      else op.inputs := by
  have hqmem : q ∈ b.inputs := List.mem_of_getElem? hq
  have hcmem : addIn ∈ c.inputs := List.mem_of_head? hin
  rw [← map_route InputPort.name q.name addIn.name]
  · refine List.map_congr_left fun r _ => ?_
    simp only [route]
    split
    · rfl
    · split <;> rfl
  · exact portNames_nodup hg hco.inputs_nodup hx
  · exact fun hxp hxa => hchild (hxp ▸ hxa)
  · exact fun r hr hname => (hco.input_owner hg hx hr hb hqmem hname).1
  · exact fun r hr hname => (hco.input_owner hg hx hr hc hcmem hname).1
  · rintro rfl
    obtain rfl := Option.some.inj (hx.symm.trans hb)
    exact ⟨q, hq, rfl⟩
  · rintro rfl
    obtain rfl := Option.some.inj (hx.symm.trans hc)
    exact ⟨addIn, hin, rfl⟩

include ha hp hb hq hc hin hout hparent hchild

/-- **What one step does**: a stream that is there is routed, at the ports of every operator
alike. -/
theorem yields_routePorts
    (h : Yields (routePorts parent child added addIn.name addOut.name m p.name n q.name) g u t) :
    (q.name ∉ p.connections ∧ t = g) ∨ (q.name ∈ p.connections ∧
      g.Relinks (route addIn.name addOut.name p.name q.name)
        (route addOut.name addIn.name q.name p.name) t) := by
  have hpmem : p ∈ a.outputs := List.mem_of_getElem? hp
  have hqmem : q ∈ b.inputs := List.mem_of_getElem? hq
  have hagrees := hco.agrees p ((mem_outputPorts hg).mpr ⟨parent, a, ha, hpmem⟩) q
    ((mem_inputPorts hg).mpr ⟨child, b, hb, hqmem⟩)
  rw [routePorts, yields_lookup_bind ha, yields_lookup_bind hb] at h
  by_cases hlist : q.name ∈ p.connections
  · right
    simp only [hp, hq, Option.map_some, Option.getD_some, List.contains_eq_mem, hlist,
      decide_true, Bool.true_or, if_true, yields_bind, yields_update_mapAt] at h
    obtain ⟨_, _, ⟨_, rfl⟩, _, _, ⟨_, rfl⟩, _, rfl⟩ := h
    refine ⟨hlist, ((hg.mapAt _ _).mapAt _ _).mapAt _ _, rfl, fun x => ?_⟩
    simp only [get?_mapAt, List.mem_singleton]
    rcases hx : g.get? x with _ | op
    · simp
    have houts := relink_outputs hg hco ha hp hc hout hparent (o := addIn.name) (i := q.name)
      (route addOut.name addIn.name q.name p.name) hx
    have hins := relink_inputs hg hco hb hq hc hin hchild (i := addOut.name) (o := p.name)
      (route addIn.name addOut.name p.name q.name) hx
    show _ = some (op.relink _ _)
    rw [Operator.relink_eq, houts, hins]
    by_cases hxa : x = added
    · subst hxa
      simp [hparent.symm, hchild.symm]
    · split_ifs <;> rfl
  · left
    have hlist' : p.name ∉ q.connections := fun hmem => hlist (hagrees.mpr hmem)
    simp only [hp, hq, Option.map_some, Option.getD_some, List.contains_eq_mem, hlist, hlist',
      decide_false, Bool.or_self, Bool.false_eq_true, if_false] at h
    exact ⟨hlist, (yields_pure.mp h).2⟩

end

/-- The ports at the two ends of a stream, found by their names, list each other. -/
theorem Coherent.listed_of_name (hco : g.Coherent) (hlist : g.Lists o i) :
    (∀ p ∈ g.outputPorts, p.name = o → i ∈ p.connections) ∧
      ∀ q ∈ g.inputPorts, q.name = i → o ∈ q.connections := by
  obtain ⟨p₀, hp₀, q₀, hq₀, rfl, rfl, hlisted⟩ := hlist
  refine ⟨fun p hp hname => ?_, fun q hq hname => ?_⟩
  · rwa [List.inj_on_of_nodup_map hco.outputs_nodup hp hp₀ hname]
  · rw [List.inj_on_of_nodup_map hco.inputs_nodup hq hq₀ hname]
    exact (hco.agrees p₀ hp₀ q₀ hq₀).mp hlisted

section

variable {addIn addOut : String} (hg : g.WellFormed) (hco : g.Coherent)
  (h : g.Relinks (route addIn addOut o i) (route addOut addIn i o) t)
  (hlist : g.Lists o i) (ho : o ≠ addOut) (hi : i ≠ addIn)

include hg hco h hlist ho hi

theorem Relinks.routed_coherent : t.Coherent := by
  obtain ⟨houts, hins⟩ := hco.listed_of_name hlist
  refine h.coherent hg hco fun p hp q hq => ?_
  have hagrees := hco.agrees p hp q hq
  have hout := houts p hp
  have hin := hins q hq
  rw [mem_route ho, mem_route hi]
  grind

theorem Relinks.routed_lists (hin : ∃ q ∈ g.inputPorts, q.name = addIn)
    (hout : ∃ p ∈ g.outputPorts, p.name = addOut) {o' i' : String} :
    t.Lists o' i' ↔ g.Lists o' i' ∧ ¬ (o' = o ∧ i' = i) ∨ o' = o ∧ i' = addIn ∨
      o' = addOut ∧ i' = i := by
  have houts := (hco.listed_of_name hlist).1
  obtain ⟨p₀, hp₀, q₀, hq₀, hpname, hqname, hlisted⟩ := hlist
  rw [h.lists hg]
  simp only [mem_route ho]
  constructor
  · rintro ⟨p, hp, q, hq, rfl, rfl, ⟨hc, hne⟩ | ⟨hname, hnew, _⟩ | hnew⟩
    · exact Or.inl ⟨⟨p, hp, q, hq, rfl, rfl, hc⟩, hne⟩
    · exact Or.inr (Or.inl ⟨hname, hnew⟩)
    · exact Or.inr (Or.inr hnew)
  · rintro (⟨⟨p, hp, q, hq, rfl, rfl, hc⟩, hne⟩ | ⟨rfl, rfl⟩ | ⟨rfl, rfl⟩)
    · exact ⟨p, hp, q, hq, rfl, rfl, Or.inl ⟨hc, hne⟩⟩
    · obtain ⟨q, hq, hname⟩ := hin
      exact ⟨p₀, hp₀, q, hq, hpname, hname, Or.inr (Or.inl ⟨rfl, rfl, houts p₀ hp₀ hpname⟩)⟩
    · obtain ⟨p, hp, hname⟩ := hout
      exact ⟨p, hp, q₀, hq₀, hname, hqname, Or.inr (Or.inr ⟨rfl, rfl⟩)⟩

theorem Relinks.routed_covers : g.Covers [addIn] [addOut] t := by
  have hends := hco.listed_of_name hlist
  obtain ⟨p₀, hp₀, q₀, hq₀, hpname, hqname, -⟩ := hlist
  refine ⟨fun p' hp' c hc hnew => ?_, fun q' hq' c hc hnew => ?_⟩
  · obtain ⟨p, hp, rfl⟩ := (h.mem_outputPorts hg).mp hp'
    rw [List.mem_singleton] at hnew
    refine exists_count_le hp (count_route_le hnew) ?_
    rcases (mem_route ho).mp hc with ⟨hc, _⟩ | ⟨_, hname, _⟩ | ⟨_, rfl⟩
    · exact ⟨p, hp, hc⟩
    · exact absurd hname hnew
    · exact ⟨p₀, hp₀, hends.1 p₀ hp₀ hpname⟩
  · obtain ⟨q, hq, rfl⟩ := (h.mem_inputPorts hg).mp hq'
    rw [List.mem_singleton] at hnew
    refine exists_count_le hq (count_route_le hnew) ?_
    rcases (mem_route hi).mp hc with ⟨hc, _⟩ | ⟨_, hname, _⟩ | ⟨_, rfl⟩
    · exact ⟨q, hq, hc⟩
    · exact absurd hname hnew
    · exact ⟨q₀, hq₀, hends.2 q₀ hq₀ hqname⟩

end

/-! ### All steps -/

/-- `t` is `g` after the streams between the pairs of ports that are done have been routed through
the ports `addIn` and `addOut`. -/
structure Routed (g : Graph) (addIn addOut : String) (done : String → String → Prop) (t : Graph) :
    Prop where
  wellFormed : t.WellFormed
  order : t.order = g.order
  disconnected : ∀ x,
    (t.get? x).map Operator.disconnected = (g.get? x).map Operator.disconnected
  coherent : t.Coherent
  covers : g.Covers [addIn] [addOut] t
  lists : ∀ o i, t.Lists o i ↔ g.Lists o i ∧ ¬ done o i ∨
    i = addIn ∧ (∃ j, done o j ∧ g.Lists o j) ∨ o = addOut ∧ ∃ k, done k i ∧ g.Lists k i

theorem Routed.congr {addIn addOut : String} {done done' : String → String → Prop}
    (h : g.Routed addIn addOut done t) (hdone : ∀ o i, done o i ↔ done' o i) :
    g.Routed addIn addOut done' t := by
  obtain rfl : done = done' := funext fun o => funext fun i => propext (hdone o i)
  exact h

theorem Routed.init {addIn addOut : String} (hg : g.WellFormed) (hco : g.Coherent) :
    g.Routed addIn addOut (fun _ _ => False) g := by
  refine ⟨hg, rfl, fun _ => rfl, hco, .refl, fun o i => ?_⟩
  simp

theorem Routed.reindexed {addIn addOut : String} {done : String → String → Prop}
    (h : g.Routed addIn addOut done t) : g.Routed addIn addOut done t.reindexed :=
  ⟨h.wellFormed.reindexed, h.order, h.disconnected,
    ⟨h.coherent.inputs_nodup, h.coherent.outputs_nodup, h.coherent.agrees⟩,
    ⟨h.covers.outputs, h.covers.inputs⟩, h.lists⟩

/-- Where operators differ in connections only, there is a port of the same name at the same
place. -/
theorem exists_ports_of_disconnected
    (h : (t.get? x).map Operator.disconnected = (g.get? x).map Operator.disconnected)
    (ha : g.get? x = some a) : ∃ a', t.get? x = some a' ∧
      (∀ (m : Nat) (p : OutputPort), a.outputs[m]? = some p → ∃ p' : OutputPort,
        a'.outputs[m]? = some p' ∧ p'.name = p.name) ∧
      ∀ (n : Nat) (q : InputPort), a.inputs[n]? = some q → ∃ q' : InputPort,
        a'.inputs[n]? = some q' ∧ q'.name = q.name := by
  obtain ⟨a', ha', heq⟩ := exists_of_disconnected h.symm ha
  obtain ⟨hins, houts⟩ := portNames_of_disconnected heq
  refine ⟨a', ha', fun m p hp => ?_, fun n q hq => ?_⟩
  · have hname := congrArg (fun names => names[m]?) houts
    simp only [List.getElem?_map, hp] at hname
    exact Option.map_eq_some_iff.mp hname
  · have hname := congrArg (fun names => names[n]?) hins
    simp only [List.getElem?_map, hq] at hname
    exact Option.map_eq_some_iff.mp hname

/-- One element more. -/
theorem exists_or_eq {α : Type} {D L : α → Prop} {A : Prop} {i : α} :
    (∃ j, (D j ∨ A ∧ j = i) ∧ L j) ↔ (∃ j, D j ∧ L j) ∨ A ∧ L i := by
  constructor
  · rintro ⟨j, hj | ⟨hA, rfl⟩, hL⟩
    · exact Or.inl ⟨j, hj, hL⟩
    · exact Or.inr ⟨hA, hL⟩
  · rintro (⟨j, hj, hL⟩ | ⟨hA, hL⟩)
    · exact ⟨j, Or.inl hj, hL⟩
    · exact ⟨i, Or.inr ⟨hA, rfl⟩, hL⟩

section

variable {done : String → String → Prop} (ha : g.get? parent = some a) (hb : g.get? child = some b)
  (hc : g.get? added = some c) (hin : c.inputs.head? = some addIn)
  (hout : c.outputs.head? = some addOut) (hparent : parent ≠ added) (hchild : child ≠ added)

include ha hb hc hin hout hparent hchild

/-- What one step does when others have been done before it. -/
theorem Routed.cases (hp : a.outputs[m]? = some p) (hq : b.inputs[n]? = some q)
    (h : g.Routed addIn.name addOut.name done t)
    (hrun : Yields (routePorts parent child added addIn.name addOut.name m p.name n q.name)
      t u g') :
    ¬ t.Lists p.name q.name ∧ g' = t ∨ t.Lists p.name q.name ∧
      t.Relinks (route addIn.name addOut.name p.name q.name)
        (route addOut.name addIn.name q.name p.name) g' := by
  obtain ⟨a', ha', houts, -⟩ := exists_ports_of_disconnected (h.disconnected parent) ha
  obtain ⟨b', hb', -, hins⟩ := exists_ports_of_disconnected (h.disconnected child) hb
  obtain ⟨c', hc', hfirst, hfirst'⟩ := exists_ports_of_disconnected (h.disconnected added) hc
  rw [List.head?_eq_getElem?] at hin hout
  obtain ⟨p', hp', hpname⟩ := houts m p hp
  obtain ⟨q', hq', hqname⟩ := hins n q hq
  obtain ⟨addOut', hout', houtname⟩ := hfirst 0 addOut hout
  obtain ⟨addIn', hin', hinname⟩ := hfirst' 0 addIn hin
  rw [← hpname, ← hqname, ← houtname, ← hinname] at hrun ⊢
  have hpmem : p' ∈ t.outputPorts :=
    (mem_outputPorts h.wellFormed).mpr ⟨parent, a', ha', List.mem_of_getElem? hp'⟩
  have hqmem : q' ∈ t.inputPorts :=
    (mem_inputPorts h.wellFormed).mpr ⟨child, b', hb', List.mem_of_getElem? hq'⟩
  rcases yields_routePorts h.wellFormed h.coherent ha' hp' hb' hq' hc'
    (List.head?_eq_getElem?.trans hin') (List.head?_eq_getElem?.trans hout') hparent hchild hrun
    with ⟨hlist, rfl⟩ | ⟨hlist, hrelink⟩
  · exact Or.inl ⟨fun hlists => hlist ((h.coherent.listed_of_name hlists).1 p' hpmem rfl), rfl⟩
  · exact Or.inr ⟨⟨p', hpmem, q', hqmem, rfl, rfl, hlist⟩, hrelink⟩

/-- One step more. -/
theorem Routed.step (hp : a.outputs[m]? = some p) (hq : b.inputs[n]? = some q)
    (h : g.Routed addIn.name addOut.name done t)
    (hrun : Yields (routePorts parent child added addIn.name addOut.name m p.name n q.name)
      t u g') :
    g.Routed addIn.name addOut.name (fun o i => done o i ∨ o = p.name ∧ i = q.name) g' := by
  have houtput : ∀ {x o}, t.OutputOf x o ↔ g.OutputOf x o :=
    fun {x _} => outputOf_congr (h.disconnected x)
  have hinput : ∀ {x i}, t.InputOf x i ↔ g.InputOf x i :=
    fun {x _} => inputOf_congr (h.disconnected x)
  have hpOf : g.OutputOf parent p.name :=
    ⟨a, ha, ownsOutput_iff.mpr ⟨p, List.mem_of_getElem? hp, rfl⟩⟩
  have hqOf : g.InputOf child q.name :=
    ⟨b, hb, ownsInput_iff.mpr ⟨q, List.mem_of_getElem? hq, rfl⟩⟩
  have hinOf : g.InputOf added addIn.name :=
    ⟨c, hc, ownsInput_iff.mpr ⟨addIn, List.mem_of_head? hin, rfl⟩⟩
  have houtOf : g.OutputOf added addOut.name :=
    ⟨c, hc, ownsOutput_iff.mpr ⟨addOut, List.mem_of_head? hout, rfl⟩⟩
  have ho : p.name ≠ addOut.name := fun hname => hparent
    (h.coherent.eq_of_output h.wellFormed (houtput.mpr hpOf) (houtput.mpr (hname ▸ houtOf)))
  have hi : q.name ≠ addIn.name := fun hname => hchild
    (h.coherent.eq_of_input h.wellFormed (hinput.mpr hqOf) (hinput.mpr (hname ▸ hinOf)))
  have hbefore := h.lists p.name q.name
  rcases h.cases ha hb hc hin hout hparent hchild hp hq hrun with ⟨hlist, rfl⟩ | ⟨hlist, hrelink⟩
  · refine ⟨h.wellFormed, h.order, h.disconnected, h.coherent, h.covers, fun o i => ?_⟩
    rw [h.lists]
    simp only [exists_or_eq]
    grind
  · refine ⟨hrelink.wellFormed, hrelink.order.trans h.order,
      fun x => (hrelink.disconnected x).trans (h.disconnected x),
      hrelink.routed_coherent h.wellFormed h.coherent hlist ho hi,
      h.covers.trans (hrelink.routed_covers h.wellFormed h.coherent hlist ho hi), fun o i => ?_⟩
    rw [hrelink.routed_lists h.wellFormed h.coherent hlist ho hi
      ((hinput.mpr hinOf).exists_port h.wellFormed) ((houtput.mpr houtOf).exists_port h.wellFormed),
      h.lists]
    simp only [exists_or_eq]
    grind

/-- All input ports of the child. -/
theorem Routed.inner (hp : a.outputs[m]? = some p) (h : g.Routed addIn.name addOut.name done t)
    (hrun : Yields (b.inputs.zipIdx.forM fun inp =>
      routePorts parent child added addIn.name addOut.name m p.name inp.2 inp.1.name) t ⟨⟩ g') :
    g.Routed addIn.name addOut.name
      (fun o i => done o i ∨ o = p.name ∧ b.ownsInput i = true) g' := by
  have hloop := Yields.forM_induction (I := fun inps t => g.Routed addIn.name addOut.name
      (fun o i => done o i ∨ o = p.name ∧ ∃ inp ∈ inps, inp.1.name = i) t)
    (fun inps inp t t' hinp hI hstep => ?_) ?_ hrun
  · refine hloop.congr fun o i => ?_
    rw [ownsInput_iff, exists_mem_zipIdx InputPort.name]
  · have hq := List.mk_mem_zipIdx_iff_getElem?.mp hinp
    refine (hI.step ha hb hc hin hout hparent hchild hp hq hstep).congr fun o i => ?_
    simp only [List.mem_append, or_and_right, exists_or, List.mem_singleton, exists_eq_left,
      and_or_left, or_assoc, @eq_comm _ i]
  · exact h.congr fun o i => by simp

/-- All pairs of ports. -/
theorem Routed.outer (hg : g.WellFormed) (hco : g.Coherent)
    (hrun : Yields (a.outputs.zipIdx.forM fun out => b.inputs.zipIdx.forM fun inp =>
      routePorts parent child added addIn.name addOut.name out.2 out.1.name inp.2 inp.1.name)
        g ⟨⟩ g') :
    g.Routed addIn.name addOut.name
      (fun o i => a.ownsOutput o = true ∧ b.ownsInput i = true) g' := by
  have hloop := Yields.forM_induction (I := fun outs t => g.Routed addIn.name addOut.name
      (fun o i => (∃ out ∈ outs, out.1.name = o) ∧ b.ownsInput i = true) t)
    (fun outs out t t' hmem hI hstep => ?_) ?_ hrun
  · refine hloop.congr fun o i => ?_
    rw [exists_mem_zipIdx OutputPort.name]
    simp [Operator.ownsOutput]
  · have hp := List.mk_mem_zipIdx_iff_getElem?.mp hmem
    refine (hI.inner ha hb hc hin hout hparent hchild hp hstep).congr fun o i => ?_
    simp only [List.mem_append, or_and_right, exists_or, List.mem_singleton, exists_eq_left,
      @eq_comm _ o]
  · exact (Routed.init hg hco).congr fun o i => by simp

end

/-- **What putting an operator in between leaves**: the streams from the parent to the child lead
through two ports of the added operator, and the others are as they were. -/
theorem interpose_routed (hg : g.WellFormed) (hco : g.Coherent) (hparent : parent ≠ added)
    (hchild : child ≠ added) (hrun : Yields (interpose parent child added) g u g') :
    ∃ addIn addOut, g.InputOf added addIn ∧ g.OutputOf added addOut ∧
      g.Routed addIn addOut (fun o i => g.OutputOf parent o ∧ g.InputOf child i) g' ∧
        g'.Indexed := by
  unfold interpose at hrun
  obtain ⟨c, t, hlookup, hrun⟩ := yields_bind.mp hrun
  obtain ⟨hc, ht⟩ := yields_lookup.mp hlookup
  rw [ht] at hrun
  rcases hin : c.inputs.head? with _ | addIn
  · simp only [hin] at hrun
    exact absurd hrun not_yields_throw
  rcases hout : c.outputs.head? with _ | addOut
  · simp only [hin, hout] at hrun
    exact absurd hrun not_yields_throw
  simp only [hin, hout] at hrun
  obtain ⟨a, t, hlookup, hrun⟩ := yields_bind.mp hrun
  obtain ⟨ha, ht⟩ := yields_lookup.mp hlookup
  rw [ht] at hrun
  obtain ⟨b, t, hlookup, hrun⟩ := yields_bind.mp hrun
  obtain ⟨hb, ht⟩ := yields_lookup.mp hlookup
  rw [ht] at hrun
  obtain ⟨_, t, hloop, hrun⟩ := yields_bind.mp hrun
  rw [yields_modify.mp hrun]
  have hrouted := (Routed.outer ha hb hc hin hout hparent hchild hg hco hloop).reindexed
  refine ⟨addIn.name, addOut.name, ⟨c, hc, ownsInput_iff.mpr ⟨addIn, List.mem_of_head? hin, rfl⟩⟩,
    ⟨c, hc, ownsOutput_iff.mpr ⟨addOut, List.mem_of_head? hout, rfl⟩⟩, hrouted.congr fun o i => ?_,
    indexed_reindexed t⟩
  simp [OutputOf, InputOf, ha, hb]

/-! ### Streams between operators -/

/-- A stream between operators is one between ports of theirs. -/
theorem Coherent.feeds_iff_lists (hg : g.WellFormed) (hco : g.Coherent) :
    g.Feeds x y ↔ ∃ o i, g.OutputOf x o ∧ g.InputOf y i ∧ g.Lists o i := by
  constructor
  · rintro ⟨a, b, ha, hb, hfeeds⟩
    obtain ⟨p, hp, q, hq, hlisted⟩ := Operator.feeds_iff.mp hfeeds
    exact ⟨p.name, q.name, ⟨a, ha, ownsOutput_iff.mpr ⟨p, hp, rfl⟩⟩,
      ⟨b, hb, ownsInput_iff.mpr ⟨q, hq, rfl⟩⟩, p, (mem_outputPorts hg).mpr ⟨x, a, ha, hp⟩,
      q, (mem_inputPorts hg).mpr ⟨y, b, hb, hq⟩, rfl, rfl, hlisted⟩
  · rintro ⟨o, i, ⟨a, ha, hxo⟩, ⟨b, hb, hyi⟩, hlists⟩
    obtain ⟨p, hp, rfl⟩ := ownsOutput_iff.mp hxo
    obtain ⟨q, hq, rfl⟩ := ownsInput_iff.mp hyi
    exact ⟨a, b, ha, hb, Operator.feeds_iff.mpr ⟨p, hp, q, hq, (hco.listed_of_name hlists).1 p
      ((mem_outputPorts hg).mpr ⟨x, a, ha, hp⟩) rfl⟩⟩

/-- **The neighbours after an operator has been put in between**: it stands between the two that fed
one another, and the others are as they were. -/
theorem Routed.feeds {addIn addOut : String} (hg : g.WellFormed) (hco : g.Coherent)
    (hin : g.InputOf added addIn) (hout : g.OutputOf added addOut)
    (h : g.Routed addIn addOut (fun o i => g.OutputOf parent o ∧ g.InputOf child i) t) :
    t.Feeds x y ↔ g.Feeds x y ∧ ¬ (x = parent ∧ y = child) ∨
      g.Feeds parent child ∧ (x = parent ∧ y = added ∨ x = added ∧ y = child) := by
  have houtputs : ∀ {z o}, t.OutputOf z o ↔ g.OutputOf z o :=
    fun {z _} => outputOf_congr (h.disconnected z)
  have hinputs : ∀ {z i}, t.InputOf z i ↔ g.InputOf z i :=
    fun {z _} => inputOf_congr (h.disconnected z)
  rw [h.coherent.feeds_iff_lists h.wellFormed]
  simp only [houtputs, hinputs, hco.feeds_iff_lists hg]
  constructor
  · rintro ⟨o, i, hx, hy, hlists⟩
    rcases (h.lists o i).mp hlists with ⟨hold, hother⟩ | ⟨rfl, j, ⟨hp, hj⟩, hold⟩ |
      ⟨rfl, k, ⟨hk, hc⟩, hold⟩
    · refine Or.inl ⟨⟨o, i, hx, hy, hold⟩, ?_⟩
      rintro ⟨rfl, rfl⟩
      exact hother ⟨hx, hy⟩
    · exact Or.inr ⟨⟨o, j, hp, hj, hold⟩,
        Or.inl ⟨hco.eq_of_output hg hx hp, hco.eq_of_input hg hy hin⟩⟩
    · exact Or.inr ⟨⟨k, i, hk, hc, hold⟩,
        Or.inr ⟨hco.eq_of_output hg hx hout, hco.eq_of_input hg hy hc⟩⟩
  · rintro (⟨⟨o, i, hx, hy, hold⟩, hne⟩ | ⟨⟨o, i, hx, hy, hold⟩, ⟨rfl, rfl⟩ | ⟨rfl, rfl⟩⟩)
    · refine ⟨o, i, hx, hy, (h.lists o i).mpr (Or.inl ⟨hold, fun ⟨hp, hc⟩ => hne ?_⟩)⟩
      exact ⟨hco.eq_of_output hg hx hp, hco.eq_of_input hg hy hc⟩
    · exact ⟨o, addIn, hx, hin, (h.lists o addIn).mpr
        (Or.inr (Or.inl ⟨rfl, i, ⟨hx, hy⟩, hold⟩))⟩
    · exact ⟨addOut, i, hout, hy, (h.lists addOut i).mpr
        (Or.inr (Or.inr ⟨rfl, o, ⟨hx, hy⟩, hold⟩))⟩

end Graph

end StreamTopology
