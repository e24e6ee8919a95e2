import StreamTopology.Proofs.Graph.RegionEnds
import StreamTopology.Proofs.Graph.Soundness

/-!
# One operator put above another one

`Rewiring.interposeAbove` puts an operator between another one and all its parents, one parent after
the other. What it does to streams follows from what it does for each parent. What it does to the
lists of connections does not: names are replaced where they stand, and an output port that listed
two input ports of the operator lists the new one twice afterwards. Coherence does not see that,
because it asks only what is listed.

So the loops carry along, besides the streams, how each list has come about (`Rewiring.Replaced`).
Two places of a list hold the same name afterwards if and only if the names at both have been
replaced, which says exactly when no name is repeated.

## Main definitions

* `Operator.Idle`: an operator without streams.
* `Graph.Incoming`, `Graph.Unforked`: the streams into an operator, and that no port has two.
* `Graph.Detoured`: a graph in which the streams of some pairs of ports have been routed, and how
  its lists have come about.
* `Graph.PutAbove`: what putting an operator above another one leaves.

## Main results

* `Graph.interposeAbove_detoured`: putting an idle operator above another one succeeds.
* `Graph.interposeAbove_wired_iff`: what it leaves, and when no port repeats a name.
* `Graph.twoFeeders_repeats`: a graph in which one does.
-/

namespace StreamTopology

/-! ### Lists in which names have been replaced -/

namespace Rewiring

/-- Of the names, those that are `gone` have given way to `new` at their places. -/
def Replaced (gone : String → Prop) (new : String) (names names' : List String) : Prop :=
  ∃ f : String → String,
    (∀ c ∈ names, gone c ∧ f c = new ∨ ¬ gone c ∧ f c = c) ∧ names' = names.map f

variable {gone gone' : String → Prop} {new fresh known other name : String}
  {names names' : List String}

theorem Replaced.refl (h : ∀ c ∈ names, ¬ gone c) : Replaced gone new names names :=
  ⟨id, fun c hc => Or.inr ⟨h c hc, rfl⟩, (List.map_id names).symm⟩

theorem Replaced.congr (h : Replaced gone new names names')
    (hgone : ∀ c ∈ names, gone c ↔ gone' c) : Replaced gone' new names names' := by
  obtain ⟨f, hf, rfl⟩ := h
  refine ⟨f, fun c hc => ?_, rfl⟩
  rw [← hgone c hc]
  exact hf c hc

/-- One stream more is routed. -/
theorem Replaced.route (h : Replaced gone new names names') (hname : name ≠ fresh)
    (hother : other ≠ new) :
    Replaced (fun c => gone c ∨ name = known ∧ c = other) new names
      (route new fresh known other name names') := by
  obtain ⟨f, hf, rfl⟩ := h
  by_cases hknown : name = known
  · refine ⟨fun c => if f c = other then new else f c, fun c hc => ?_, ?_⟩
    · rcases hf c hc with ⟨hgone, hfc⟩ | ⟨hgone, hfc⟩
      · exact Or.inl ⟨Or.inl hgone, (if_neg (hfc ▸ hother.symm)).trans hfc⟩
      · by_cases hc : c = other
        · exact Or.inl ⟨Or.inr ⟨hknown, hc⟩, if_pos (hfc.trans hc)⟩
        · exact Or.inr ⟨not_or.mpr ⟨hgone, fun h => hc h.2⟩,
            (if_neg fun heq => hc (hfc.symm.trans heq)).trans hfc⟩
    · rw [Rewiring.route, if_pos hknown, rename, List.map_map]
      rfl
  · refine ⟨f, fun c hc => ?_, by rw [Rewiring.route, if_neg hknown, if_neg hname]⟩
    exact (hf c hc).imp (And.imp_left Or.inl)
      (And.imp_left fun hgone => not_or.mpr ⟨hgone, fun h => hknown h.1⟩)

/-- There is no stream to be routed. -/
theorem Replaced.skip (h : Replaced gone new names names')
    (hother : name = known → other ∉ names') :
    Replaced (fun c => gone c ∨ name = known ∧ c = other) new names names' := by
  obtain ⟨f, hf, rfl⟩ := h
  refine ⟨f, fun c hc => ?_, rfl⟩
  rcases hf c hc with ⟨hgone, hfc⟩ | ⟨hgone, hfc⟩
  · exact Or.inl ⟨Or.inl hgone, hfc⟩
  · refine Or.inr ⟨not_or.mpr ⟨hgone, ?_⟩, hfc⟩
    rintro ⟨hknown, rfl⟩
    exact hother hknown (List.mem_map.mpr ⟨c, hc, hfc⟩)

/-- **When names that have been replaced are different.** Only one has been replaced. -/
theorem Replaced.nodup_iff (h : Replaced gone new names names') (hnd : names.Nodup)
    (hnew : new ∉ names) :
    names'.Nodup ↔ ∀ c ∈ names, ∀ d ∈ names, gone c → gone d → c = d := by
  obtain ⟨f, hf, rfl⟩ := h
  have himage : ∀ c ∈ names, gone c → f c = new := fun c hc hgone =>
    (hf c hc).elim And.right fun h => absurd hgone h.1
  rw [List.nodup_map_iff_inj_on hnd]
  constructor
  · intro hinj c hc d hd hgonec hgoned
    exact hinj c hc d hd ((himage c hc hgonec).trans (himage d hd hgoned).symm)
  · intro hone c hc d hd heq
    rcases hf c hc with ⟨hgonec, hfc⟩ | ⟨_, hfc⟩ <;> rcases hf d hd with ⟨hgoned, hfd⟩ | ⟨_, hfd⟩
    · exact hone c hc d hd hgonec hgoned
    · exact absurd (hfd.symm.trans (heq.symm.trans hfc) ▸ hd) hnew
    · exact absurd (hfc.symm.trans (heq.trans hfd) ▸ hc) hnew
    · exact hfc.symm.trans (heq.trans hfd)

/-- A name that comes in at the end does so once. -/
theorem nodup_route (h : names.Nodup) (hname : name ≠ known) :
    (route new fresh known other name names).Nodup := by
  rw [route, if_neg hname]
  split
  · exact nodup_addOnce h
  · exact h

end Rewiring

/-- The operator has no streams. -/
def Operator.Idle (op : Operator) : Prop :=
  (∀ q ∈ op.inputs, q.connections = []) ∧ ∀ p ∈ op.outputs, p.connections = []

instance (op : Operator) : Decidable op.Idle := inferInstanceAs (Decidable (_ ∧ _))

namespace Graph

open Rewiring

variable {g t g' : Graph} {id x parent child added : Handle} {a b c op : Operator}
  {p addOut : OutputPort} {q addIn : InputPort} {m n : Nat} {o i : String}

/-! ### Streams routed one by one -/

/-- Where two lists of ports have the same names, there is a port of the same name at the same
place. -/
theorem exists_place_of_names {γ : Type} {name : γ → String} {l l' : List γ} {r' : γ}
    (h : l'.map name = l.map name) (hr : l'[n]? = some r') :
    ∃ r, l[n]? = some r ∧ name r = name r' := by
  have hname := congrArg (fun names => names[n]?) h
  simp only [List.getElem?_map, hr] at hname
  exact Option.map_eq_some_iff.mp hname.symm

/-- `t` is `g` after the streams between the pairs of ports that are done have been routed, with the
names of these ports replaced where they stood. -/
structure Detoured (g : Graph) (addIn addOut : String) (done : String → String → Prop) (t : Graph) :
    Prop extends Routed g addIn addOut done t where
  outputs : ∀ p' ∈ t.outputPorts, p'.name ≠ addOut → ∃ p ∈ g.outputPorts, p.name = p'.name ∧
    Replaced (done p.name) addIn p.connections p'.connections
  inputs : ∀ q' ∈ t.inputPorts, q'.name ≠ addIn → ∃ q ∈ g.inputPorts, q.name = q'.name ∧
    Replaced (fun o => done o q.name) addOut q.connections q'.connections
  addOut_nodup : ∀ p' ∈ t.outputPorts, p'.name = addOut → p'.connections.Nodup
  addIn_nodup : ∀ q' ∈ t.inputPorts, q'.name = addIn → q'.connections.Nodup

theorem Detoured.congr {addIn addOut : String} {done done' : String → String → Prop}
    (h : g.Detoured addIn addOut done t) (hdone : ∀ o i, done o i ↔ done' o i) :
    g.Detoured addIn addOut done' t := by
  obtain rfl : done = done' := funext fun o => funext fun i => propext (hdone o i)
  exact h

theorem Detoured.reindexed {addIn addOut : String} {done : String → String → Prop}
    (h : g.Detoured addIn addOut done t) : g.Detoured addIn addOut done t.reindexed :=
  ⟨h.toRouted.reindexed, h.outputs, h.inputs, h.addOut_nodup, h.addIn_nodup⟩

section

variable {done : String → String → Prop} (ha : g.get? parent = some a) (hb : g.get? child = some b)
  (hc : g.get? added = some c) (hin : c.inputs.head? = some addIn)
  (hout : c.outputs.head? = some addOut) (hparent : parent ≠ added) (hchild : child ≠ added)

theorem Detoured.init (hg : g.WellFormed) (hco : g.Coherent) (hc : g.get? added = some c)
    (hin : c.inputs.head? = some addIn) (hout : c.outputs.head? = some addOut) (hidle : c.Idle) :
    g.Detoured addIn.name addOut.name (fun _ _ => False) g := by
  refine ⟨.init hg hco, fun p hp _ => ⟨p, hp, rfl, .refl fun _ _ h => h⟩,
    fun q hq _ => ⟨q, hq, rfl, .refl fun _ _ h => h⟩, fun p hp hname => ?_, fun q hq hname => ?_⟩
  · obtain ⟨x, a, ha, hpa⟩ := (mem_outputPorts hg).mp hp
    obtain ⟨_, rfl⟩ := hco.output_owner hg ha hpa hc (List.mem_of_head? hout) hname
    rw [hidle.2 p (List.mem_of_head? hout)]
    exact List.nodup_nil
  · obtain ⟨x, a, ha, hqa⟩ := (mem_inputPorts hg).mp hq
    obtain ⟨_, rfl⟩ := hco.input_owner hg ha hqa hc (List.mem_of_head? hin) hname
    rw [hidle.1 q (List.mem_of_head? hin)]
    exact List.nodup_nil

/-- There was no stream to be routed. -/
theorem Detoured.skip {addIn addOut : String}
    (h : g.Detoured addIn addOut done t)
    (hrouted : g.Routed addIn addOut (fun o' i' => done o' i' ∨ o' = o ∧ i' = i) t)
    (ho : t.OutputOf parent o) (hi : t.InputOf child i) (hlist : ¬ t.Lists o i) :
    g.Detoured addIn addOut (fun o' i' => done o' i' ∨ o' = o ∧ i' = i) t := by
  obtain ⟨p₀, hp₀, rfl⟩ := ho.exists_port h.wellFormed
  obtain ⟨q₀, hq₀, rfl⟩ := hi.exists_port h.wellFormed
  refine ⟨hrouted, fun p hp hne => ?_, fun q hq hne => ?_, h.addOut_nodup, h.addIn_nodup⟩
  · obtain ⟨r, hr, hname, hrep⟩ := h.outputs p hp hne
    refine ⟨r, hr, hname, hrep.skip fun hrp hmem => hlist ?_⟩
    exact ⟨p, hp, q₀, hq₀, hname.symm.trans hrp, rfl, hmem⟩
  · obtain ⟨r, hr, hname, hrep⟩ := h.inputs q hq hne
    have hnone : r.name = q₀.name → p₀.name ∉ q.connections := by
      intro hrq hmem
      refine hlist ⟨p₀, hp₀, q, hq, rfl, hname.symm.trans hrq, ?_⟩
      rw [← hrq, hname]
      exact (h.coherent.agrees p₀ hp₀ q hq).mpr hmem
    exact ⟨r, hr, hname, (hrep.skip hnone).congr fun _ _ => or_congr_right And.comm⟩

/-- A stream has been routed. -/
theorem Detoured.relink {addIn addOut : String}
    (h : g.Detoured addIn addOut done t)
    (hrouted : g.Routed addIn addOut (fun o' i' => done o' i' ∨ o' = o ∧ i' = i) g')
    (hrelink : t.Relinks (route addIn addOut o i) (route addOut addIn i o) g')
    (ho : o ≠ addOut) (hi : i ≠ addIn) :
    g.Detoured addIn addOut (fun o' i' => done o' i' ∨ o' = o ∧ i' = i) g' := by
  refine ⟨hrouted, fun p' hp' hne => ?_, fun q' hq' hne => ?_, fun p' hp' hname => ?_,
    fun q' hq' hname => ?_⟩
  · obtain ⟨p, hp, rfl⟩ := (hrelink.mem_outputPorts h.wellFormed).mp hp'
    obtain ⟨r, hr, hname, hrep⟩ := h.outputs p hp hne
    refine ⟨r, hr, hname, ?_⟩
    rw [hname] at hrep ⊢
    exact hrep.route hne hi
  · obtain ⟨q, hq, rfl⟩ := (hrelink.mem_inputPorts h.wellFormed).mp hq'
    obtain ⟨r, hr, hname, hrep⟩ := h.inputs q hq hne
    refine ⟨r, hr, hname, ?_⟩
    rw [hname] at hrep ⊢
    exact (hrep.route hne ho).congr fun _ _ => or_congr_right And.comm
  · obtain ⟨p, hp, rfl⟩ := (hrelink.mem_outputPorts h.wellFormed).mp hp'
    exact nodup_route (h.addOut_nodup p hp hname) fun heq => ho (heq.symm.trans hname)
  · obtain ⟨q, hq, rfl⟩ := (hrelink.mem_inputPorts h.wellFormed).mp hq'
    exact nodup_route (h.addIn_nodup q hq hname) fun heq => hi (heq.symm.trans hname)

include ha hb hc hin hout hparent hchild

/-- **One stream more.** -/
theorem Detoured.step (hp : a.outputs[m]? = some p) (hq : b.inputs[n]? = some q)
    (h : g.Detoured addIn.name addOut.name done t) :
    ∃ t', Yields (routePorts parent child added addIn.name addOut.name m p.name n q.name) t () t' ∧
      g.Detoured addIn.name addOut.name (fun o i => done o i ∨ o = p.name ∧ i = q.name) t' := by
  have hlive : ∀ {x op}, g.get? x = some op → t.contains x = true := by
    intro x op hop
    obtain ⟨op', hop', _⟩ := exists_of_disconnected (h.disconnected x).symm hop
    exact contains_iff.mpr ⟨op', hop'⟩
  have hpOf : t.OutputOf parent p.name := (outputOf_congr (h.disconnected parent)).mpr
    ⟨a, ha, ownsOutput_iff.mpr ⟨p, List.mem_of_getElem? hp, rfl⟩⟩
  have hqOf : t.InputOf child q.name := (inputOf_congr (h.disconnected child)).mpr
    ⟨b, hb, ownsInput_iff.mpr ⟨q, List.mem_of_getElem? hq, rfl⟩⟩
  have hinOf : t.InputOf added addIn.name := (inputOf_congr (h.disconnected added)).mpr
    ⟨c, hc, ownsInput_iff.mpr ⟨addIn, List.mem_of_head? hin, rfl⟩⟩
  have houtOf : t.OutputOf added addOut.name := (outputOf_congr (h.disconnected added)).mpr
    ⟨c, hc, ownsOutput_iff.mpr ⟨addOut, List.mem_of_head? hout, rfl⟩⟩
  have hsucceeds : Succeeds t.Retains
      (routePorts parent child added addIn.name addOut.name m p.name n q.name) t :=
    succeeds_routePorts (.refl h.wellFormed) (hlive ha) (hlive hb) (hlive hc)
  obtain ⟨_, t', hrun, _⟩ := hsucceeds
  have hrouted := h.toRouted.step ha hb hc hin hout hparent hchild hp hq hrun
  refine ⟨t', hrun, ?_⟩
  rcases h.cases ha hb hc hin hout hparent hchild hp hq hrun with ⟨hlist, rfl⟩ | ⟨_, hrelink⟩
  · exact h.skip hrouted hpOf hqOf hlist
  · refine h.relink hrouted hrelink (fun hname => ?_) fun hname => ?_
    · exact hparent (h.coherent.eq_of_output h.wellFormed hpOf (hname ▸ houtOf))
    · exact hchild (h.coherent.eq_of_input h.wellFormed hqOf (hname ▸ hinOf))

/-- All input ports of the child, as they were looked up before. -/
theorem Detoured.inner {ins : List InputPort}
    (hins : ins.map InputPort.name = b.inputs.map InputPort.name) (hp : a.outputs[m]? = some p)
    (h : g.Detoured addIn.name addOut.name done t) :
    ∃ t', Yields (ins.zipIdx.forM fun inp =>
        routePorts parent child added addIn.name addOut.name m p.name inp.2 inp.1.name) t () t' ∧
      g.Detoured addIn.name addOut.name
        (fun o i => done o i ∨ o = p.name ∧ b.ownsInput i = true) t' := by
  have hloop : ∃ t', Yields (ins.zipIdx.forM fun inp =>
        routePorts parent child added addIn.name addOut.name m p.name inp.2 inp.1.name) t () t' ∧
      g.Detoured addIn.name addOut.name
        (fun o i => done o i ∨ o = p.name ∧ ∃ inp ∈ ins.zipIdx, inp.1.name = i) t' := by
    refine yields_forM_total (I := fun (inps : List (InputPort × Nat)) t =>
      g.Detoured addIn.name addOut.name
        (fun o i => done o i ∨ o = p.name ∧ ∃ inp ∈ inps, inp.1.name = i) t)
      (fun inps inp t hmem hI => ?_) (h.congr fun o i => by simp)
    obtain ⟨q, hq, hname⟩ := exists_place_of_names hins (List.mk_mem_zipIdx_iff_getElem?.mp hmem)
    obtain ⟨t', hrun, hstep⟩ := hI.step ha hb hc hin hout hparent hchild hp hq
    rw [hname] at hrun hstep
    refine ⟨t', hrun, hstep.congr fun o i => ?_⟩
    simp only [List.mem_append, or_and_right, exists_or, List.mem_singleton, exists_eq_left,
      and_or_left, or_assoc, @eq_comm _ i]
  obtain ⟨t', hrun, hdone⟩ := hloop
  refine ⟨t', hrun, hdone.congr fun o i => ?_⟩
  rw [exists_mem_zipIdx InputPort.name, ← List.mem_map, hins, List.mem_map, ownsInput_iff]

/-- All pairs of ports. -/
theorem Detoured.outer {outs : List OutputPort} {ins : List InputPort}
    (houts : outs.map OutputPort.name = a.outputs.map OutputPort.name)
    (hins : ins.map InputPort.name = b.inputs.map InputPort.name)
    (h : g.Detoured addIn.name addOut.name done t) :
    ∃ t', Yields (outs.zipIdx.forM fun out => ins.zipIdx.forM fun inp =>
        routePorts parent child added addIn.name addOut.name out.2 out.1.name inp.2 inp.1.name)
          t () t' ∧
      g.Detoured addIn.name addOut.name
        (fun o i => done o i ∨ a.ownsOutput o = true ∧ b.ownsInput i = true) t' := by
  have hloop : ∃ t', Yields (outs.zipIdx.forM fun out => ins.zipIdx.forM fun inp =>
        routePorts parent child added addIn.name addOut.name out.2 out.1.name inp.2 inp.1.name)
          t () t' ∧
      g.Detoured addIn.name addOut.name
        (fun o i => done o i ∨ (∃ out ∈ outs.zipIdx, out.1.name = o) ∧ b.ownsInput i = true)
        t' := by
    refine yields_forM_total (I := fun (outs : List (OutputPort × Nat)) t =>
      g.Detoured addIn.name addOut.name
        (fun o i => done o i ∨ (∃ out ∈ outs, out.1.name = o) ∧ b.ownsInput i = true) t)
      (fun outs out t hmem hI => ?_) (h.congr fun o i => by simp)
    obtain ⟨p, hp, hname⟩ :=
      exists_place_of_names houts (List.mk_mem_zipIdx_iff_getElem?.mp hmem)
    obtain ⟨t', hrun, hstep⟩ := hI.inner ha hb hc hin hout hparent hchild hins hp
    rw [hname] at hrun hstep
    refine ⟨t', hrun, hstep.congr fun o i => ?_⟩
    simp only [List.mem_append, or_and_right, exists_or, List.mem_singleton, exists_eq_left,
      or_assoc, @eq_comm _ o]
  obtain ⟨t', hrun, hdone⟩ := hloop
  refine ⟨t', hrun, hdone.congr fun o i => ?_⟩
  rw [exists_mem_zipIdx OutputPort.name, ← List.mem_map, houts, List.mem_map, ownsOutput_iff]

/-- **One parent more.** -/
theorem Detoured.interpose (h : g.Detoured addIn.name addOut.name done t) :
    ∃ t', Yields (Rewiring.interpose parent child added) t () t' ∧ t'.Indexed ∧
      g.Detoured addIn.name addOut.name
        (fun o i => done o i ∨ g.OutputOf parent o ∧ g.InputOf child i) t' := by
  obtain ⟨a', ha', hadis⟩ := exists_of_disconnected (h.disconnected parent).symm ha
  obtain ⟨b', hb', hbdis⟩ := exists_of_disconnected (h.disconnected child).symm hb
  obtain ⟨c', hc', hcdis⟩ := exists_of_disconnected (h.disconnected added).symm hc
  obtain ⟨hcins, hcouts⟩ := portNames_of_disconnected hcdis
  rw [List.head?_eq_getElem?] at hin hout
  obtain ⟨addIn', hin', hinname⟩ := exists_place_of_names hcins.symm hin
  obtain ⟨addOut', hout', houtname⟩ := exists_place_of_names hcouts.symm hout
  rw [← List.head?_eq_getElem?] at hin hout hin' hout'
  obtain ⟨t', hrun, hdone⟩ := h.outer ha hb hc hin hout hparent hchild
    (portNames_of_disconnected hadis).2 (portNames_of_disconnected hbdis).1
  refine ⟨t'.reindexed, ?_, indexed_reindexed t', hdone.reindexed.congr fun o i => ?_⟩
  · rw [Rewiring.interpose, yields_lookup_bind hc']
    simp only [hin', hout']
    rw [yields_lookup_bind ha', yields_lookup_bind hb', hinname, houtname]
    exact yields_bind.mpr ⟨_, t', hrun, yields_modify.mpr rfl⟩
  · simp [OutputOf, InputOf, ha, hb]

end

/-! ### No repetitions -/

section

variable {addIn addOut : String} {done : String → String → Prop}

/-- **When no port repeats a name.** Of the streams of a port, one at most has been routed. -/
theorem Detoured.wired_iff (h : g.Detoured addIn addOut done t) (hg : g.WellFormed) (hw : g.Wired)
    (hin : ∀ p ∈ g.outputPorts, addIn ∉ p.connections)
    (hout : ∀ q ∈ g.inputPorts, addOut ∉ q.connections) :
    t.Wired ↔
      (∀ p ∈ g.outputPorts, p.name ≠ addOut → ∀ c ∈ p.connections, ∀ d ∈ p.connections,
        done p.name c → done p.name d → c = d) ∧
      ∀ q ∈ g.inputPorts, q.name ≠ addIn → ∀ c ∈ q.connections, ∀ d ∈ q.connections,
        done c q.name → done d q.name → c = d := by
  constructor
  · refine fun hwt => ⟨fun p hp hne => ?_, fun q hq hne => ?_⟩
    · obtain ⟨x, a, ha, hpa⟩ := (mem_outputPorts hg).mp hp
      have hof : t.OutputOf x p.name := (outputOf_congr (h.disconnected x)).mpr
        ⟨a, ha, ownsOutput_iff.mpr ⟨p, hpa, rfl⟩⟩
      obtain ⟨p', hp', hname⟩ := hof.exists_port h.wellFormed
      obtain ⟨r, hr, hrname, hrep⟩ := h.outputs p' hp' (hname ▸ hne)
      obtain rfl := List.inj_on_of_nodup_map hw.outputs_nodup hr hp (hrname.trans hname)
      exact (hrep.nodup_iff (hw.feeds_nodup r hr) (hin r hr)).mp (hwt.feeds_nodup p' hp')
    · obtain ⟨y, b, hb, hqb⟩ := (mem_inputPorts hg).mp hq
      have hof : t.InputOf y q.name := (inputOf_congr (h.disconnected y)).mpr
        ⟨b, hb, ownsInput_iff.mpr ⟨q, hqb, rfl⟩⟩
      obtain ⟨q', hq', hname⟩ := hof.exists_port h.wellFormed
      obtain ⟨r, hr, hrname, hrep⟩ := h.inputs q' hq' (hname ▸ hne)
      obtain rfl := List.inj_on_of_nodup_map hw.inputs_nodup hr hq (hrname.trans hname)
      exact (hrep.nodup_iff (hw.reads_nodup r hr) (hout r hr)).mp (hwt.reads_nodup q' hq')
  · rintro ⟨houts, hins⟩
    refine ⟨h.coherent.inputs_nodup, h.coherent.outputs_nodup, fun q' hq' => ?_,
      fun p' hp' => ?_, h.coherent.agrees⟩
    · by_cases hname : q'.name = addIn
      · exact h.addIn_nodup q' hq' hname
      · obtain ⟨r, hr, hrname, hrep⟩ := h.inputs q' hq' hname
        exact (hrep.nodup_iff (hw.reads_nodup r hr) (hout r hr)).mpr (hins r hr (hrname ▸ hname))
    · by_cases hname : p'.name = addOut
      · exact h.addOut_nodup p' hp' hname
      · obtain ⟨r, hr, hrname, hrep⟩ := h.outputs p' hp' hname
        exact (hrep.nodup_iff (hw.feeds_nodup r hr) (hin r hr)).mpr (houts r hr (hrname ▸ hname))

end

/-! ### All parents -/

/-- The names of an output port of a parent of the operator and of an input port of it. -/
def Incoming (g : Graph) (id : Handle) (o i : String) : Prop :=
  (∃ x ∈ g.parents id, g.OutputOf x o) ∧ g.InputOf id i

/-- No port has two streams into the operator: an output port feeds one of its input ports at most,
and an input port of it reads one output port at most. -/
def Unforked (g : Graph) (id : Handle) : Prop :=
  ∀ o i o' i', g.InputOf id i → g.InputOf id i' → g.Lists o i → g.Lists o' i' → (o = o' ↔ i = i')

/-- `g'` is `g` after the operator at `added` has been put between the one at `id` and all its
parents: what fed `id` feeds the port `addIn`, what read these streams reads the port `addOut`, and
everything else is as it was. -/
structure PutAbove (g : Graph) (id added : Handle) (addIn addOut : String) (g' : Graph) : Prop where
  wellFormed : g'.WellFormed
  indexed : g'.Indexed
  coherent : g'.Coherent
  order : g'.order = g.order
  disconnected : ∀ x,
    (g'.get? x).map Operator.disconnected = (g.get? x).map Operator.disconnected
  lists : ∀ o i, g'.Lists o i ↔ g.Lists o i ∧ ¬ g.InputOf id i ∨
    i = addIn ∧ (∃ j, g.InputOf id j ∧ g.Lists o j) ∨
    o = addOut ∧ g.InputOf id i ∧ ∃ k, g.Lists k i
  parents : g.parents id ≠ [] → g'.parents id = [added]

section

variable (hg : g.WellFormed) (hi : g.Indexed) (hco : g.Coherent) (hw : g.Wired)
  (hc : g.get? added = some c) (hin : c.inputs.head? = some addIn)
  (hout : c.outputs.head? = some addOut) (hidle : c.Idle) (hne : added ≠ id)

include hg hco hc hidle in
/-- No port lists one of an idle operator. -/
theorem not_listed_of_idle :
    (∀ q ∈ c.inputs, ∀ p ∈ g.outputPorts, q.name ∉ p.connections) ∧
      ∀ p ∈ c.outputs, ∀ q ∈ g.inputPorts, p.name ∉ q.connections := by
  refine ⟨fun q hq p hp hmem => ?_, fun p hp q hq hmem => ?_⟩
  · have hlisted := (hco.agrees p hp q ((mem_inputPorts hg).mpr ⟨added, c, hc, hq⟩)).mp hmem
    rw [hidle.1 q hq] at hlisted
    cases hlisted
  · have hlisted := (hco.agrees p ((mem_outputPorts hg).mpr ⟨added, c, hc, hp⟩) q hq).mpr hmem
    rw [hidle.2 p hp] at hlisted
    cases hlisted

omit hc in
include hg hi hco in
/-- The streams into an operator come from its parents. -/
theorem incoming_of_lists (hlist : g.Lists o i) (hid : g.InputOf id i) : g.Incoming id o i := by
  obtain ⟨x, hx⟩ := hlist.exists_outputOf hg
  refine ⟨⟨x, (mem_parents hg hi hco.agrees).mpr ?_, hx⟩, hid⟩
  exact (hco.feeds_iff_lists hg).mpr ⟨o, i, hx, hid, hlist⟩

include hg hi hco hc hin hout hidle hne

/-- **Putting an idle operator above another one succeeds.** -/
theorem interposeAbove_detoured :
    ∃ g', Yields (interposeAbove id added) g () g' ∧ g'.Indexed ∧
      g.Detoured addIn.name addOut.name (g.Incoming id) g' := by
  rw [interposeAbove]
  simp only [yields_get_bind]
  refine yields_forM_total (I := fun xs t => t.Indexed ∧ g.Detoured addIn.name addOut.name
    (fun o i => (∃ x ∈ xs, g.OutputOf x o) ∧ g.InputOf id i) t) (fun xs x t hx ⟨_, hI⟩ => ?_)
    ⟨hi, (Detoured.init hg hco hc hin hout hidle).congr fun o i => by simp⟩
  obtain ⟨a, b, ha, hb, hfeeds⟩ := (mem_parents hg hi hco.agrees).mp hx
  have hxne : x ≠ added := by
    rintro rfl
    obtain rfl := Option.some.inj (ha.symm.trans hc)
    obtain ⟨p, hp, q, _, hmem⟩ := Operator.feeds_iff.mp hfeeds
    rw [hidle.2 p hp] at hmem
    cases hmem
  obtain ⟨t', hrun, hindexed, hstep⟩ := hI.interpose ha hb hc hin hout hxne hne.symm
  refine ⟨t', hrun, hindexed, hstep.congr fun o i => ?_⟩
  simp only [List.mem_append, or_and_right, exists_or, List.mem_singleton, exists_eq_left]

omit hidle in
/-- What that leaves. -/
theorem Detoured.putAbove (hindexed : g'.Indexed)
    (h : g.Detoured addIn.name addOut.name (g.Incoming id) g') :
    g.PutAbove id added addIn.name addOut.name g' := by
  have hlists : ∀ o i, g'.Lists o i ↔ g.Lists o i ∧ ¬ g.InputOf id i ∨
      i = addIn.name ∧ (∃ j, g.InputOf id j ∧ g.Lists o j) ∨
      o = addOut.name ∧ g.InputOf id i ∧ ∃ k, g.Lists k i := by
    intro o i
    have hincoming : ∀ {o i}, g.Lists o i → g.InputOf id i → g.Incoming id o i :=
      fun hlist hid => incoming_of_lists hg hi hco hlist hid
    rw [h.lists]
    constructor
    · rintro (⟨hlist, hnone⟩ | ⟨rfl, j, ⟨_, hj⟩, hlist⟩ | ⟨rfl, k, ⟨_, hid⟩, hlist⟩)
      · exact Or.inl ⟨hlist, fun hid => hnone (hincoming hlist hid)⟩
      · exact Or.inr (Or.inl ⟨rfl, j, hj, hlist⟩)
      · exact Or.inr (Or.inr ⟨rfl, hid, k, hlist⟩)
    · rintro (⟨hlist, hnone⟩ | ⟨rfl, j, hj, hlist⟩ | ⟨rfl, hid, k, hlist⟩)
      · exact Or.inl ⟨hlist, fun hdone => hnone hdone.2⟩
      · exact Or.inr (Or.inl ⟨rfl, j, hincoming hlist hj, hlist⟩)
      · exact Or.inr (Or.inr ⟨rfl, k, hincoming hlist hid, hlist⟩)
  have houtput : ∀ {x o}, g'.OutputOf x o ↔ g.OutputOf x o :=
    fun {x _} => outputOf_congr (h.disconnected x)
  have hinput : ∀ {x i}, g'.InputOf x i ↔ g.InputOf x i :=
    fun {x _} => inputOf_congr (h.disconnected x)
  have hinOf : g.InputOf added addIn.name :=
    ⟨c, hc, ownsInput_iff.mpr ⟨addIn, List.mem_of_head? hin, rfl⟩⟩
  have houtOf : g.OutputOf added addOut.name :=
    ⟨c, hc, ownsOutput_iff.mpr ⟨addOut, List.mem_of_head? hout, rfl⟩⟩
  refine ⟨h.wellFormed, hindexed, h.coherent, h.order, h.disconnected, hlists, fun hsome => ?_⟩
  rw [parents_eq_singleton h.wellFormed hindexed h.coherent.agrees]
  intro x
  rw [h.coherent.feeds_iff_lists h.wellFormed]
  simp only [houtput, hinput, hlists]
  constructor
  · rintro ⟨o, i, hx, hid, ⟨_, hnone⟩ | ⟨rfl, _⟩ | ⟨rfl, _⟩⟩
    · exact absurd hid hnone
    · exact absurd (hco.eq_of_input hg hinOf hid) hne
    · exact hco.eq_of_output hg hx houtOf
  · rintro rfl
    obtain ⟨y, hy⟩ := List.exists_mem_of_ne_nil _ hsome
    obtain ⟨o, i, _, hid, hlist⟩ :=
      (hco.feeds_iff_lists hg).mp ((mem_parents hg hi hco.agrees).mp hy)
    exact ⟨addOut.name, i, houtOf, hid, Or.inr (Or.inr ⟨rfl, hid, o, hlist⟩)⟩

omit hne in
/-- Which ports have two streams into the operator, list by list. -/
theorem unforked_iff :
    g.Unforked id ↔
      (∀ p ∈ g.outputPorts, p.name ≠ addOut.name → ∀ c ∈ p.connections, ∀ d ∈ p.connections,
        g.Incoming id p.name c → g.Incoming id p.name d → c = d) ∧
      ∀ q ∈ g.inputPorts, q.name ≠ addIn.name → ∀ c ∈ q.connections, ∀ d ∈ q.connections,
        g.Incoming id c q.name → g.Incoming id d q.name → c = d := by
  constructor
  · refine fun hone => ⟨fun p hp _ c hcp d hdp ⟨_, hidc⟩ ⟨_, hidd⟩ => ?_,
      fun q hq _ c hcq d hdq ⟨⟨x, _, hx⟩, hid⟩ ⟨⟨y, _, hy⟩, _⟩ => ?_⟩
    · obtain ⟨q, hq, rfl⟩ := hidc.exists_port hg
      obtain ⟨r, hr, rfl⟩ := hidd.exists_port hg
      exact (hone p.name q.name p.name r.name hidc hidd ⟨p, hp, q, hq, rfl, rfl, hcp⟩
        ⟨p, hp, r, hr, rfl, rfl, hdp⟩).mp rfl
    · obtain ⟨p, hp, rfl⟩ := hx.exists_port hg
      obtain ⟨r, hr, rfl⟩ := hy.exists_port hg
      exact (hone p.name q.name r.name q.name hid hid
        ⟨p, hp, q, hq, rfl, rfl, (hco.agrees p hp q hq).mpr hcq⟩
        ⟨r, hr, q, hq, rfl, rfl, (hco.agrees r hr q hq).mpr hdq⟩).mpr rfl
  · rintro ⟨houts, hins⟩ o i o' i' hidi hidi' hlist hlist'
    have hincoming := incoming_of_lists hg hi hco hlist hidi
    have hincoming' := incoming_of_lists hg hi hco hlist' hidi'
    obtain ⟨p, hp, q, hq, rfl, rfl, hmem⟩ := hlist
    constructor
    · rintro rfl
      refine houts p hp (fun hname => ?_) q.name hmem i'
        ((hco.listed_of_name hlist').1 p hp rfl) hincoming hincoming'
      obtain rfl := List.inj_on_of_nodup_map hco.outputs_nodup hp ((mem_outputPorts hg).mpr
        ⟨added, c, hc, List.mem_of_head? hout⟩) hname
      rw [hidle.2 p (List.mem_of_head? hout)] at hmem
      cases hmem
    · rintro rfl
      have hread : p.name ∈ q.connections := (hco.agrees p hp q hq).mp hmem
      refine hins q hq (fun hname => ?_) p.name hread o'
        ((hco.listed_of_name hlist').2 q hq rfl) hincoming hincoming'
      obtain rfl := List.inj_on_of_nodup_map hco.inputs_nodup hq ((mem_inputPorts hg).mpr
        ⟨added, c, hc, List.mem_of_head? hin⟩) hname
      rw [hidle.1 q (List.mem_of_head? hin)] at hread
      cases hread

omit hco in
include hw in
/-- **One operator put above another one.** It succeeds and leaves a coherent graph, in which what
fed the operator feeds the one that has been put above it, and that one feeds what was fed before
and is its only parent. No port repeats a name if and only if no port had two streams into the
operator. -/
theorem interposeAbove_wired_iff :
    ∃ g', Yields (interposeAbove id added) g () g' ∧
      g.PutAbove id added addIn.name addOut.name g' ∧ (g'.Wired ↔ g.Unforked id) := by
  have hco := hw.coherent
  obtain ⟨g', hrun, hindexed, h⟩ := interposeAbove_detoured hg hi hco hc hin hout hidle hne
  refine ⟨g', hrun, h.putAbove hg hi hco hc hin hout hne hindexed, ?_⟩
  obtain ⟨hinNew, houtNew⟩ := not_listed_of_idle hg hco hc hidle
  rw [h.wired_iff hg hw (hinNew addIn (List.mem_of_head? hin))
    (houtNew addOut (List.mem_of_head? hout)), unforked_iff hg hi hco hc hin hout hidle]

end

/-! ### Two streams into an operator -/

/-- Two operators that feed one input port each of a third one. The first one feeds the operator
below that as well. The last one has no streams. -/
def idleBeside : Graph := Graph.reindexed
  { name := "idleBeside"
    slots := [
      some { name := "a", kind := "Custom"
             outputs := [{ name := "ao", connections := ["xi", "yi"] }] },
      some { name := "b", kind := "Custom"
             outputs := [{ name := "bo", connections := ["xj"] }] },
      some { name := "x", kind := "Custom"
             inputs := [{ name := "xi", connections := ["ao"] },
                        { name := "xj", connections := ["bo"] }]
             outputs := [{ name := "xo", connections := ["yi"] }] },
      some { name := "y", kind := "Custom"
             inputs := [{ name := "yi", connections := ["ao", "xo"] }] },
      some { name := "h", kind := "Custom", inputs := [{ name := "hi" }]
             outputs := [{ name := "ho" }] }]
    order := (List.range 5).map Handle.mk }

theorem interposeAbove_wired_iff_idleBeside :
    idleBeside.WellFormed ∧ idleBeside.Indexed ∧ idleBeside.Wired ∧
      ∃ c addIn addOut, idleBeside.get? ⟨4⟩ = some c ∧ c.inputs.head? = some addIn ∧
        c.outputs.head? = some addOut ∧ c.Idle ∧ (⟨4⟩ : Handle) ≠ ⟨2⟩ ∧
        ∃ g', Yields (interposeAbove ⟨2⟩ ⟨4⟩) idleBeside () g' ∧
          idleBeside.PutAbove ⟨2⟩ ⟨4⟩ addIn.name addOut.name g' ∧
          (g'.Wired ↔ idleBeside.Unforked ⟨2⟩) := by
  have hof : Graph.ofDescription idleBeside.toDescription = .ok idleBeside := by decide
  have hg := WellFormed.ofDescription hof
  have hi := Indexed.ofDescription hof
  have hw : idleBeside.Wired := by decide
  obtain ⟨c, hc⟩ := contains_iff.mp (show idleBeside.contains ⟨4⟩ = true by decide)
  have hshape : ∀ c ∈ idleBeside.get? ⟨4⟩, c.Idle ∧ c.inputs.head?.isSome = true ∧
      c.outputs.head?.isSome = true := by decide
  obtain ⟨hidle, hin, hout⟩ := hshape c hc
  obtain ⟨addIn, hin⟩ := Option.isSome_iff_exists.mp hin
  obtain ⟨addOut, hout⟩ := Option.isSome_iff_exists.mp hout
  have hne : (⟨4⟩ : Handle) ≠ ⟨2⟩ := by decide
  exact ⟨hg, hi, hw, c, addIn, addOut, hc, hin, hout, hidle, hne,
    interposeAbove_wired_iff hg hi hw hc hin hout hidle hne⟩

/-- Two operators that feed the input port of a third one, and one without streams. -/
def twoFeeders : Graph := Graph.reindexed
  { name := "twoFeeders"
    slots := [
      some { name := "a", kind := "Custom"
             outputs := [{ name := "ao", connections := ["xi"] }] },
      some { name := "b", kind := "Custom"
             outputs := [{ name := "bo", connections := ["xi"] }] },
      some { name := "x", kind := "Custom"
             inputs := [{ name := "xi", connections := ["ao", "bo"] }] },
      some { name := "h", kind := "Custom", inputs := [{ name := "hi" }]
             outputs := [{ name := "ho" }] }]
    order := (List.range 4).map Handle.mk }

/-- The graph after the last operator has been put above the third one. -/
def twoFeedersAbove : Graph := ((interposeAbove ⟨2⟩ ⟨3⟩).run.run twoFeeders).2

/-- **A port that repeats a name.** Both streams into the port lead through the new operator, and
each of them has been given its name. -/
theorem twoFeeders_repeats :
    Graph.ofDescription twoFeeders.toDescription = .ok twoFeeders ∧ twoFeeders.Wired ∧
      (∀ c ∈ twoFeeders.get? ⟨3⟩, c.Idle ∧ c.inputs ≠ [] ∧ c.outputs ≠ []) ∧
      Yields (interposeAbove ⟨2⟩ ⟨3⟩) twoFeeders () twoFeedersAbove ∧
      ∃ q ∈ twoFeedersAbove.inputPorts, q.name = "xi" ∧ q.connections = ["ho", "ho"] :=
  ⟨by decide, by decide, by decide, Prod.ext (by decide) rfl, by decide⟩

end Graph

end StreamTopology
