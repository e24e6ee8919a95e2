import StreamTopology.Proofs.Passes.AdderStreams
import StreamTopology.Proofs.Passes.Relocation

/-!
# Paths through ends and hash adders

Moving all hash adders keeps the operators, apart from their ports, and the paths between the ports
of operators that are neither ends nor adders. Each move exchanges an adder and its end, and the
pairs have no operator in common, so what a move needs is there when its turn comes, whatever has
been moved before (`Graph.Shifted.step`).

That no port repeats a name afterwards does not follow. An adder that reads two streams from its end
leaves both to the operator below when it is taken out. If that is an end with an adder behind it,
both get the name of that adder when it is put above. If such adders read one stream each, no port
repeats a name (`Graph.Straight`).

The pairs have an operator in common if an adder behind an end is itself an end with an adder below
it. Then the first end may have become its child when it has its turn, and the move fails or moves
what is no adder. `Graph.Exchangeable` excludes that.

## Main definitions

* `Graph.Arranged`: what is asked of ports and their names.
* `Graph.Shifted`: what the moves for some of the ends leave.
* `Graph.Straight`: no port repeats a name, and none will.
* `Graph.StepsUp`, `Graph.Turn`: what one move does, and which ends have an adder moved.
* `Graph.Exchange`: what all moves leave.

## Main results

* `HashAdders.relocate_exchanges`: moving all hash adders succeeds, and what it leaves.
* `HashAdders.doubledEnd_repeats`, `HashAdders.adderThatEnds_refused`: a graph in which a port
  repeats a name afterwards, and one for which the run fails.
-/

namespace StreamTopology

/-! ### What is asked of a graph -/

namespace Operator

variable {op : Operator}

/-- The operator ends a region or is a hash adder. -/
def isPassage (op : Operator) : Bool := op.isMarker .endParallel || op.isHashAdder

/-- The operator has one input port, which lists one name. -/
def ReadsOne (op : Operator) : Prop := op.inputs.map (fun q => q.connections.length) = [1]

instance (op : Operator) : Decidable op.ReadsOne := inferInstanceAs (Decidable (_ = _))

theorem readsOne_iff : op.ReadsOne ↔ ∃ q c, op.inputs = [q] ∧ q.connections = [c] := by
  rw [ReadsOne, List.map_eq_singleton_iff]
  simp only [List.length_eq_one_iff]
  exact ⟨fun ⟨q, hq, c, hc⟩ => ⟨q, c, hq, hc⟩, fun ⟨q, c, hq, hc⟩ => ⟨q, hq, c, hc⟩⟩

/-- The names of input ports that belong to the operator. A hash adder also has those of a copy. -/
def inputNames (op : Operator) : List String :=
  op.inputs.map InputPort.name ++ if op.isHashAdder then op.copyInputs else []

/-- The names of output ports that belong to the operator. A hash adder also has those of a copy. -/
def outputNames (op : Operator) : List String :=
  op.outputs.map OutputPort.name ++ if op.isHashAdder then op.copyOutputs else []

end Operator

namespace Graph

open Rewiring

variable {g t t' : Graph} {a e e' h h' x y z : Handle} {op b : Operator} {es : List Handle}
  {π : Equiv.Perm Handle} {o i : String}

/-- Every name in a list of connections belongs to a port. -/
def Owned (g : Graph) : Prop :=
  (∀ p ∈ g.outputPorts, ∀ c ∈ p.connections, ∃ q ∈ g.inputPorts, q.name = c) ∧
    ∀ q ∈ g.inputPorts, ∀ c ∈ q.connections, ∃ p ∈ g.outputPorts, p.name = c

instance (g : Graph) : Decidable g.Owned := inferInstanceAs (Decidable (_ ∧ _))

/-- What is asked of a graph before hash adders are moved: the ends of regions are in order and read
one stream each, a hash adder has one port on each side, and the names that its ports get belong to
no other operator. -/
structure Arranged (g : Graph) : Prop where
  wired : g.Wired
  owned : g.Owned
  checked : g.checkRegionEnds = .ok ()
  ends : ∀ a ∈ g.entries, a.2.isMarker .endParallel = true → a.2.ReadsOne
  adders : ∀ a ∈ g.entries, a.2.isHashAdder = true →
    a.2.inputs.length = 1 ∧ a.2.outputs.length = 1
  names : ∀ a ∈ g.entries, a.2.isHashAdder = true → ∀ b ∈ g.entries, b.1 ≠ a.1 →
    (∀ i ∈ a.2.copyInputs, i ∉ b.2.inputNames) ∧ ∀ o ∈ a.2.copyOutputs, o ∉ b.2.outputNames

section

variable (hg : g.WellFormed)

include hg

/-- An operator with one input port that lists one name reads one stream. -/
theorem soleStream_of_readsOne (hco : g.Coherent) (ho : g.Owned) (hop : g.get? x = some op)
    (hone : op.ReadsOne) : g.SoleStream x := by
  obtain ⟨q, c, hins, hconns⟩ := Operator.readsOne_iff.mp hone
  have hq : q ∈ g.inputPorts :=
    (mem_inputPorts hg).mpr ⟨x, op, hop, hins ▸ List.mem_singleton_self q⟩
  obtain ⟨p, hp, rfl⟩ := ho.2 q hq c (hconns ▸ List.mem_singleton_self c)
  have hinput : ∀ {i}, g.InputOf x i ↔ q.name = i := by
    intro i
    rw [inputOf_iff, hop, Option.map_some, Option.some.injEq, ownsInput_iff, hins]
    simp only [List.mem_singleton, exists_eq_left]
  refine ⟨p.name, q.name, fun o i => ?_⟩
  rw [hinput]
  constructor
  · rintro ⟨rfl, hlist⟩
    have hmem := (hco.listed_of_name hlist).2 q hq rfl
    rw [hconns, List.mem_singleton] at hmem
    exact ⟨hmem, rfl⟩
  · rintro ⟨rfl, rfl⟩
    refine ⟨rfl, p, hp, q, hq, rfl, rfl, (hco.agrees p hp q hq).mpr ?_⟩
    rw [hconns]
    exact List.mem_singleton_self _

variable (ha : g.Arranged)

include ha

/-- The names of the ports of a copy may be used. -/
theorem Arranged.copyable (hop : g.get? h = some op) (hadder : op.isHashAdder = true) :
    g.Copyable h op := by
  obtain ⟨hins, houts⟩ := ha.adders _ ((mem_entries hg).mpr hop) hadder
  have hother : ∀ {y b}, g.get? y = some b → y ≠ h →
      (∀ i ∈ op.copyInputs, i ∉ b.inputNames) ∧ ∀ o ∈ op.copyOutputs, o ∉ b.outputNames :=
    fun hb hy => ha.names _ ((mem_entries hg).mpr hop) hadder _ ((mem_entries hg).mpr hb) hy
  have hinsNew : ∀ i ∈ op.copyInputs, ∀ y, g.InputOf y i → y = h := by
    rintro i hi y ⟨b, hb, hown⟩
    by_contra hy
    exact (hother hb hy).1 i hi
      (List.mem_append_left _ (List.mem_map.mpr (ownsInput_iff.mp hown)))
  have houtsNew : ∀ o ∈ op.copyOutputs, ∀ y, g.OutputOf y o → y = h := by
    rintro o ho y ⟨b, hb, hown⟩
    by_contra hy
    exact (hother hb hy).2 o ho
      (List.mem_append_left _ (List.mem_map.mpr (ownsOutput_iff.mp hown)))
  obtain ⟨q, hq⟩ := List.length_eq_one_iff.mp hins
  obtain ⟨p, hp⟩ := List.length_eq_one_iff.mp houts
  refine ⟨?_, hinsNew, houtsNew, fun i hi r hr hlisted => ?_, fun o ho r hr hlisted => ?_⟩
  · rw [Operator.copyInputs, Operator.copyAs, hq]
    exact List.nodup_singleton _
  · obtain ⟨s, hs, rfl⟩ := ha.owned.1 r hr i hlisted
    obtain ⟨y, b, hb, hsb⟩ := (mem_inputPorts hg).mp hs
    obtain rfl := hinsNew _ hi y ⟨b, hb, ownsInput_iff.mpr ⟨s, hsb, rfl⟩⟩
    obtain rfl := Option.some.inj (hop.symm.trans hb)
    rw [hq, List.mem_singleton] at hsb
    exact ⟨by rw [hq, hsb]; rfl, List.nodup_iff_count_le_one.mp (ha.wired.feeds_nodup r hr) _⟩
  · obtain ⟨s, hs, rfl⟩ := ha.owned.2 r hr o hlisted
    obtain ⟨y, b, hb, hsb⟩ := (mem_outputPorts hg).mp hs
    obtain rfl := houtsNew _ ho y ⟨b, hb, ownsOutput_iff.mpr ⟨s, hsb, rfl⟩⟩
    obtain rfl := Option.some.inj (hop.symm.trans hb)
    rw [hp, List.mem_singleton] at hsb
    exact ⟨by rw [hp, hsb]; rfl, List.nodup_iff_count_le_one.mp (ha.wired.reads_nodup r hr) _⟩

/-- The moves do not get in each other's way. -/
theorem Arranged.exchangeable (hlast : ∀ e h a, g.Behind e h → ¬ g.Trails h a) :
    g.Exchangeable := by
  have hadder : ∀ {e h op}, g.Behind e h → g.get? h = some op → op.isHashAdder = true := by
    intro e h op hh hop
    obtain ⟨op', hop', hadder, _⟩ := hh.adder
    exact Option.some.inj (hop.symm.trans hop') ▸ hadder
  refine ⟨hlast, fun e h op hh hop => ha.copyable hg hop (hadder hh hop),
    fun e h op e' h' op' hh hh' hne hop hop' => ?_⟩
  obtain ⟨hins, houts⟩ := ha.names _ ((mem_entries hg).mpr hop) (hadder hh hop) _
    ((mem_entries hg).mpr hop') hne.symm
  refine ⟨fun i hi hi' => hins i hi (List.mem_append_right _ ?_),
    fun o ho ho' => houts o ho (List.mem_append_right _ ?_)⟩
  · rwa [if_pos (hadder hh' hop')]
  · rwa [if_pos (hadder hh' hop')]

/-- An end reads one stream. -/
theorem Arranged.soleStream (he : g.marker? e = some .endParallel) : g.SoleStream e := by
  obtain ⟨op, hop, hkind⟩ := marker?_eq_some.mp he
  exact soleStream_of_readsOne hg ha.wired.coherent ha.owned hop
    (ha.ends _ ((mem_entries hg).mpr hop) (beq_iff_eq.mpr hkind))

end

/-! ### Operators that paths run through -/

theorem mem_passages (hg : g.WellFormed) : x ∈ g.findAll Operator.isPassage ↔
    (g.get? x).map (fun op => op.portless.isPassage) = some true := by
  rw [mem_findAll hg, Option.map_eq_some_iff]
  rfl

/-- The ports of an operator do not matter. -/
theorem mem_passages_congr (hg : g.WellFormed) (ht : t.WellFormed)
    (h : (t.get? x).map Operator.portless = (g.get? x).map Operator.portless) :
    x ∈ t.findAll Operator.isPassage ↔ x ∈ g.findAll Operator.isPassage := by
  rw [mem_passages hg, mem_passages ht, map_eq_of_map_eq h fun _ => rfl]

theorem Behind.end_mem_passages (hg : g.WellFormed) (hh : g.Behind e h) :
    e ∈ g.findAll Operator.isPassage := by
  obtain ⟨op, hop, hkind⟩ := marker?_eq_some.mp hh.isEnd
  refine (mem_findAll hg).mpr ⟨op, hop, ?_⟩
  rw [Operator.isPassage, Operator.isMarker, beq_iff_eq.mpr hkind, Bool.true_or]

theorem Behind.adder_mem_passages (hg : g.WellFormed) (hh : g.Behind e h) :
    h ∈ g.findAll Operator.isPassage := by
  obtain ⟨op, hop, hadder, _⟩ := hh.adder
  refine (mem_findAll hg).mpr ⟨op, hop, ?_⟩
  rw [Operator.isPassage, hadder, Bool.or_true]

theorem Exchanged.mem_passages (hg : g.WellFormed) (hx : g.Exchanged es x) :
    x ∈ g.findAll Operator.isPassage := by
  obtain ⟨e, _, h, hh, rfl | rfl⟩ := hx
  · exact hh.end_mem_passages hg
  · exact hh.adder_mem_passages hg

/-! ### Several moves -/

/-- `t` is `g` after the adders behind some of the ends have been moved: the operators are the same,
and so are the paths through ends and adders. -/
structure Shifted (g : Graph) (es : List Handle) (π : Equiv.Perm Handle) (t : Graph) : Prop
    extends g.Relocated es π t where
  order : t.order.Perm g.order
  portless : ∀ x, (t.get? x).map Operator.portless = (g.get? x).map Operator.portless
  paths : ∀ y o z i, y ∉ g.findAll Operator.isPassage → g.OutputOf y o →
    z ∉ g.findAll Operator.isPassage → g.InputOf z i →
      (t.FlowsThrough (t.findAll Operator.isPassage) o i ↔
        g.FlowsThrough (g.findAll Operator.isPassage) o i)

/-- No port repeats a name, and none will: the ends whose adders are still to be moved read one
stream each, and so do the adders that feed such an end and are still to be moved themselves. -/
structure Straight (g : Graph) (es : List Handle) (t : Graph) : Prop where
  wired : t.Wired
  ends : ∀ e h, g.Behind e h → e ∉ es → t.SoleStream e
  adders : ∀ e h e' h', g.Behind e h → g.Behind e' h' → g.Feeds h e' → e ∉ es → e' ∉ es →
    t.SoleStream h

/-- What a move does: the adder `h` stands directly in front of the end `e` and feeds nothing else,
and the end feeds what the adder fed. If that was the end itself, it now feeds the adder. -/
structure StepsUp (t : Graph) (e h : Handle) (t' : Graph) : Prop where
  order : ∃ before after, t.order.erase h = before ++ e :: after ∧
    t'.order = before ++ h :: e :: after
  adder : t'.children h = [e]
  exit : ∀ y, t'.Feeds e y ↔ t.Feeds h (Equiv.swap e h y)

/-- What looking at the end `e` does: the adder behind it in `g` is moved, if there is one. -/
structure Turn (g : Graph) (e : Handle) (t : Graph) (moved : Bool) (t' : Graph) : Prop where
  moved_iff : moved = true ↔ ∃ h, g.Behind e h
  stays : moved = false → t' = t
  stepsUp : ∀ h, g.Behind e h → t.StepsUp e h t'

theorem Shifted.init (hg : g.WellFormed) (hi : g.Indexed) (hco : g.Coherent)
    (hr : g.Exchangeable) : g.Shifted [] (Equiv.refl Handle) g :=
  ⟨.init hg hi hco hr, .refl _, fun _ => rfl, fun _ _ _ _ _ _ _ _ => Iff.rfl⟩

theorem Shifted.skip (hs : g.Shifted es π t) (hlone : ∀ h, ¬ g.Behind e h) :
    g.Shifted (es ++ [e]) π t :=
  ⟨hs.toRelocated.skip hlone, hs.order, hs.portless, hs.paths⟩

theorem Straight.skip (hst : g.Straight es t) : g.Straight (es ++ [e]) t := by
  have hmem : ∀ {x}, x ∉ es ++ [e] → x ∉ es := fun hx hx' => hx (List.mem_append_left _ hx')
  exact ⟨hst.wired, fun e' h' hh' hx => hst.ends e' h' hh' (hmem hx),
    fun e₁ h₁ e₂ h₂ hh₁ hh₂ hfeeds hx₁ hx₂ =>
      hst.adders e₁ h₁ e₂ h₂ hh₁ hh₂ hfeeds (hmem hx₁) (hmem hx₂)⟩

/-- An end that does not have one child is left alone. -/
theorem yields_moveChild_none (hnone : ∀ x, t.children e ≠ [x]) :
    Yields (HashAdders.moveChild e) t false t := by
  rw [HashAdders.moveChild, yields_get_bind]
  split
  next x hx => exact absurd hx (hnone x)
  next => exact yields_pure.mpr ⟨rfl, rfl⟩

section

variable (hg : g.WellFormed) (hi : g.Indexed) (ha : g.Arranged) (hr : g.Exchangeable)
  (hmem : e ∉ es)

include hg hi ha hr hmem

/-- Whatever has been moved, the adder behind another end can be moved. -/
theorem Relocated.ready (hrel : g.Relocated es π t) (hh : g.Behind e h) :
    ∃ op, t.Ready e h op := by
  obtain ⟨op, hop, hadder, _⟩ := hh.adder
  obtain ⟨b, hb, heq⟩ :=
    exists_of_disconnected (hrel.kept h (hr.adder_not_exchanged hh hmem)).symm hop
  obtain ⟨hins, houts⟩ := ha.adders _ ((mem_entries hg).mpr hop) hadder
  have hnames := congrArg List.length (portNames_of_disconnected heq).1
  rw [List.length_map, List.length_map, hins] at hnames
  obtain ⟨hchild, hparent, hseal⟩ := hrel.neighbours hg hi ha.wired.coherent hr hmem hh
    ((checkRegionEnds_eq_ok_iff hg hi ha.wired.agrees).mp ha.checked e hh.isEnd)
  exact ⟨b, hb, hnames, (outputs_length_of_disconnected heq).trans houts,
    hrel.copyable e h b hh hmem hb, hchild, hparent, hseal, (hr.adder_ne_end hh hh.trails).symm⟩

omit hg hi ha in
/-- The relation between two ends whose adders have not been moved is that of the beginning. -/
theorem Relocated.feeds_still (hrel : g.Relocated es π t) (hh : g.Behind e h)
    (hx : ¬ g.Exchanged es x) : t.Feeds h x ↔ g.Feeds h x := by
  rw [hrel.feeds, hrel.still h (hr.adder_not_exchanged hh hmem), hrel.still x hx]

omit hi ha in
/-- **One move more, the operators and the paths.** -/
theorem Shifted.move (hs : g.Shifted es π t) (hh : g.Behind e h) (hready : t.Ready e h op)
    (ht : t.Rerouted e h op t') : g.Shifted (es ++ [e]) ((Equiv.swap e h).trans π) t' := by
  have hpassages : ∀ {x}, x ∈ t.findAll Operator.isPassage ↔ x ∈ g.findAll Operator.isPassage :=
    fun {x} => mem_passages_congr hg hs.wellFormed (hs.portless x)
  have hend := hpassages.mpr (hh.end_mem_passages hg)
  have hadder := hpassages.mpr (hh.adder_mem_passages hg)
  refine ⟨hs.toRelocated.move hr hh hmem hready.live ht.toMoved, ?_,
    fun x => (ht.portless x).trans (hs.portless x), fun y o z i hy ho hz hzi => ?_⟩
  · obtain ⟨before, after, hbefore, hafter⟩ := ht.order
    have hmem : h ∈ t.order := hs.wellFormed.mem_order_iff.mpr ⟨op, hready.live⟩
    rw [hafter]
    refine (List.perm_middle.trans ?_).trans hs.order
    rw [← hbefore]
    exact (List.perm_cons_erase hmem).symm
  · have hne : ∀ {x}, x ∉ g.findAll Operator.isPassage → x ≠ e ∧ x ≠ h := by
      refine fun hx => ⟨?_, ?_⟩ <;> rintro rfl
      · exact hx (hh.end_mem_passages hg)
      · exact hx (hh.adder_mem_passages hg)
    have hkept : ∀ {x}, x ∉ g.findAll Operator.isPassage → ¬ g.Exchanged es x :=
      fun hx hexch => hx (hexch.mem_passages hg)
    rw [← hs.paths y o z i hy ho hz hzi]
    refine ht.flowsThrough hs.wellFormed hs.indexed hs.coherent hready (fun x => ?_) (hne hy).1
      (hne hy).2 ((outputOf_congr (hs.kept y (hkept hy))).mpr ho) (hne hz).1 (hne hz).2
      ((inputOf_congr (hs.kept z (hkept hz))).mpr hzi)
    rw [mem_passages_congr hs.wellFormed ht.wellFormed (ht.portless x)]
    by_cases hxe : x = e
    · rw [hxe, Equiv.swap_apply_left]
      exact iff_of_true hend hadder
    · by_cases hxh : x = h
      · rw [hxh, Equiv.swap_apply_right]
        exact iff_of_true hadder hend
      · rw [Equiv.swap_apply_of_ne_of_ne hxe hxh]

/-- **One move more, the streams that are read.** The adder that feeds another end is not the one
behind it, and an adder is fed by no other adder. -/
theorem Straight.move (hst : g.Straight es t) (hrel : g.Relocated es π t) (hh : g.Behind e h)
    (hready : t.Ready e h op) (ht : t.Rerouted e h op t')
    (hwired : t.Wired → t.SoleStream e → (t.Feeds h e → t.SoleStream h) → t'.Wired) :
    g.Straight (es ++ [e]) t' := by
  have hsole : ∀ {x}, x ≠ e → x ≠ h → t.SoleStream x → (t.Feeds h x → t.SoleStream h) →
      t'.SoleStream x := fun hxe hxh => ht.soleStream hrel.wellFormed hrel.indexed hrel.coherent
    hready hxe hxh
  have hfeeds : ∀ {e' h'}, g.Behind e' h' → e' ∉ es → t.Feeds h e' → t.SoleStream h :=
    fun hh' hmem' hf => hst.adders e h _ _ hh hh' ((hrel.feeds_still hr hmem hh
      (hr.end_not_exchanged hh'.trails hmem')).mp hf) hmem hmem'
  have hlater : ∀ {x}, x ∉ es ++ [e] → x ∉ es ∧ x ≠ e := by
    intro x hx
    rw [List.mem_append, List.mem_singleton, not_or] at hx
    exact hx
  refine ⟨hwired hst.wired (hst.ends e h hh hmem) (hfeeds hh hmem), fun e' h' hh' hx => ?_,
    fun e₁ h₁ e₂ h₂ hh₁ hh₂ hf hx₁ hx₂ => ?_⟩
  · obtain ⟨hmem', hne⟩ := hlater hx
    exact hsole hne (hr.pairs_apart hh hh' hne).1 (hst.ends e' h' hh' hmem')
      (hfeeds hh' hmem')
  · obtain ⟨hmem₁, hne₁⟩ := hlater hx₁
    obtain ⟨hmem₂, _⟩ := hlater hx₂
    obtain ⟨hapart, hne, hneh⟩ := hr.pairs_apart hh hh₁ hne₁
    refine hsole hne hneh (hst.adders e₁ h₁ e₂ h₂ hh₁ hh₂ hf hmem₁ hmem₂) fun hfed => ?_
    rw [hrel.feeds_still hr hmem hh (hr.adder_not_exchanged hh₁ hmem₁),
      (parents_eq_singleton hg hi ha.wired.agrees).mp hh₁.parents] at hfed
    exact absurd hfed.symm hapart

omit hg hi ha hr hmem in
theorem Rerouted.stepsUp (ht : t.Rerouted e h op t') (hg : t.WellFormed) (hi : t.Indexed)
    (hready : t.Ready e h op) : t.StepsUp e h t' := by
  refine ⟨ht.order, (children_eq_singleton ht.wellFormed ht.indexed).mpr fun y => ?_, fun y => ?_⟩
  · rw [ht.feeds, Equiv.swap_apply_right, hready.feeds_from hg hi, Equiv.swap_apply_eq_iff,
      Equiv.swap_apply_right]
  · rw [ht.feeds, Equiv.swap_apply_left]

/-- The child of an end that has one child and is the only parent of an adder is that adder. -/
theorem Relocated.behind_of_children (hrel : g.Relocated es π t) (htrails : g.Trails e a)
    (hchild : t.children e = [x]) : g.Behind e a := by
  obtain ⟨op, hop, hadder⟩ := htrails.adder
  have hfeeds : g.Feeds e a :=
    (parents_eq_singleton hg hi ha.wired.agrees).mp htrails.parents e |>.mpr rfl
  have hchildren : g.children e = [π x] := by
    rw [← hrel.still e (hr.end_not_exchanged htrails hmem)]
    exact (children_iff_of_feeds hrel.feeds hg hi hrel.wellFormed hrel.indexed).mp hchild
  have hsame : a = π x := (children_eq_singleton hg hi).mp hchildren a |>.mp hfeeds
  refine ⟨htrails.isEnd, hsame ▸ hchildren, htrails.parents, op, hop, hadder,
    List.ne_nil_of_length_pos ?_⟩
  rw [(ha.adders _ ((mem_entries hg).mpr hop) hadder).2]
  exact Nat.one_pos

/-- **Looking at one more end.** It succeeds. The adder behind the end is moved if there is one, and
otherwise nothing happens. -/
theorem Shifted.step (hs : g.Shifted es π t) (htrails : g.Trails e a) :
    ∃ moved t', Yields (HashAdders.moveChild e) t moved t' ∧ g.Turn e t moved t' ∧
      (∃ π', g.Shifted (es ++ [e]) π' t') ∧
      (g.Straight es t → g.Straight (es ++ [e]) t') := by
  by_cases hbehind : ∃ h, g.Behind e h
  · obtain ⟨h, hh⟩ := hbehind
    obtain ⟨op, hready⟩ := hs.toRelocated.ready hg hi ha hr hmem hh
    obtain ⟨t', hrun, ht, hwired⟩ := hready.moveChild hs.wellFormed hs.indexed hs.coherent
    refine ⟨true, t', hrun, ⟨iff_of_true rfl ⟨h, hh⟩, nofun, fun h' hh' => ?_⟩,
      ⟨_, hs.move hg hr hmem hh hready ht⟩,
      fun hst => hst.move hg hi ha hr hmem hs.toRelocated hh hready ht hwired⟩
    exact hh.adder_unique hh' ▸ ht.stepsUp hs.wellFormed hs.indexed hready
  · have hlone : ∀ h, ¬ g.Behind e h := fun h hh => hbehind ⟨h, hh⟩
    have hnone : ∀ x, t.children e ≠ [x] := fun x hx =>
      hlone _ (hs.toRelocated.behind_of_children hg hi ha hr hmem htrails hx)
    exact ⟨false, t, yields_moveChild_none hnone,
      ⟨iff_of_false Bool.false_ne_true hbehind, fun _ => rfl, fun h hh => absurd hh (hlone h)⟩,
      ⟨π, hs.skip hlone⟩, Straight.skip⟩

end

/-! ### What all moves leave -/

/-- `t` is `g` after ends and hash adders have been exchanged. The operators are the same, apart
from their ports. The others have the ports they had, and between these there are the same paths. -/
structure Exchange (g t : Graph) : Prop where
  coherent : t.Coherent
  order : t.order.Perm g.order
  portless : ∀ x, (t.get? x).map Operator.portless = (g.get? x).map Operator.portless
  kept : ∀ x, x ∉ g.findAll Operator.isPassage →
    (t.get? x).map Operator.disconnected = (g.get? x).map Operator.disconnected
  paths : ∀ y o z i, y ∉ g.findAll Operator.isPassage → g.OutputOf y o →
    z ∉ g.findAll Operator.isPassage → g.InputOf z i →
      (t.FlowsThrough (t.findAll Operator.isPassage) o i ↔
        g.FlowsThrough (g.findAll Operator.isPassage) o i)

theorem Shifted.exchange (hg : g.WellFormed) (hs : g.Shifted es π t) : g.Exchange t :=
  ⟨hs.coherent, hs.order, hs.portless,
    fun x hx => hs.kept x fun hexch => hx (hexch.mem_passages hg), hs.paths⟩

end Graph

namespace HashAdders

variable {g t : Graph} {a e : Handle} {done es : List Handle} {π : Equiv.Perm Handle}

/-- Finding the ends that are looked at succeeds. -/
theorem ends_total (hg : g.WellFormed) : ∃ es, Yields ends g es g := by
  have habove : ∀ a, ∃ r, Yields (endAbove? a) g r g := by
    intro a
    simp only [endAbove?, yields_get_bind]
    split
    next p hp =>
      obtain ⟨op, hop⟩ := Graph.contains_iff.mp
        (Graph.contains_of_mem_parents hg (hp ▸ List.mem_singleton_self p))
      exact ⟨_, (yields_lookup_bind hop).mpr (yields_pure.mpr ⟨rfl, rfl⟩)⟩
    next => exact ⟨none, yields_pure.mpr ⟨rfl, rfl⟩⟩
  have hall : ∃ found t, Yields ((g.findAll Operator.isHashAdder).mapM endAbove?) g found t ∧
      t = g := by
    refine yields_mapM_total (I := fun _ t => t = g) (fun _ a t _ ht => ?_) rfl
    obtain ⟨r, hr⟩ := habove a
    exact ⟨r, g, ht ▸ hr, rfl⟩
  obtain ⟨found, _, hfound, rfl⟩ := hall
  exact ⟨_, yields_get_bind.mpr (yields_bind.mpr ⟨found, _, hfound, yields_pure.mpr ⟨rfl, rfl⟩⟩)⟩

section

variable (hg : g.WellFormed) (hi : g.Indexed) (ha : g.Arranged) (hr : g.Exchangeable)
  (hnodup : es.Nodup) (hes : ∀ e ∈ es, ∃ a, g.Trails e a)

include hg hi ha hr hnodup hes

/-- When an end has its turn, the ends before it have been looked at and no other. -/
theorem turn_of_first (hfirst : done ++ [e] <+: es) (hs : g.Shifted done π t) :
    ∃ moved t', Yields (moveChild e) t moved t' ∧ g.Turn e t moved t' ∧
      (∃ π', g.Shifted (done ++ [e]) π' t') ∧
      (g.Straight done t → g.Straight (done ++ [e]) t') := by
  obtain ⟨a, htrails⟩ := hes e (hfirst.subset (by simp))
  exact hs.step hg hi ha hr (not_mem_of_first hnodup hfirst) htrails

/-- **The moves for the first ends succeed**, however many they are. -/
theorem moves_total (hdone : done <+: es) :
    ∃ us t, Yields (done.mapM moveChild) g us t ∧ (∃ π, g.Shifted done π t) ∧
      (g.Straight [] g → g.Straight done t) := by
  refine yields_mapM_total
    (I := fun first t => (∃ π, g.Shifted first π t) ∧ (g.Straight [] g → g.Straight first t))
    (fun first e t hfirst hI => ?_) ⟨⟨_, .init hg hi ha.wired.coherent hr⟩, id⟩
  obtain ⟨⟨π, hs⟩, hst⟩ := hI
  obtain ⟨moved, t', hrun, _, hs', hst'⟩ :=
    turn_of_first hg hi ha hr hnodup hes (hfirst.trans hdone) hs
  exact ⟨moved, t', hrun, hs', fun h => hst' (hst h)⟩

end

/-- **Moving all hash adders exchanges those behind ends with the ends.** It succeeds if no adder
that is moved is an end with an adder below it. The graph is coherent and has the same operators,
and between ports of operators that are neither ends nor adders there are the same paths as before.
No port repeats a name if the adders that feed ends with adders behind them read one stream each.
When an end has its turn, the adder behind it is put directly in front of it. -/
theorem relocate_exchanges (hg : g.WellFormed) (hi : g.Indexed) (ha : g.Arranged)
    (hlast : ∀ e h a, g.Behind e h → ¬ g.Trails h a) :
    ∃ n g', Yields relocate g n g' ∧ g.Exchange g' ∧
      ((∀ e h e' h', g.Behind e h → g.Behind e' h' → g.Feeds h e' → g.SoleStream h) →
        g'.Wired) ∧
      ∃ es, Yields ends g es g ∧ (∀ e h, g.Behind e h → e ∈ es) ∧
        ∀ done e rest, es = done ++ e :: rest → ∃ us t moved t',
          Yields (done.mapM moveChild) g us t ∧ Yields (moveChild e) t moved t' ∧
            g.Turn e t moved t' := by
  have hr := ha.exchangeable hg hlast
  obtain ⟨es, hends⟩ := ends_total hg
  obtain ⟨_, hnodup, hmem⟩ := yields_ends hg hends
  have hes : ∀ e ∈ es, ∃ a, g.Trails e a := fun e he => (hmem e).mp he
  obtain ⟨us, g', hmoves, ⟨π, hs⟩, hst⟩ :=
    moves_total hg hi ha hr hnodup hes (List.prefix_refl es)
  refine ⟨us.countP id, g', yields_bind.mpr ⟨es, g, hends, yields_bind.mpr
    ⟨us, g', hmoves, yields_pure.mpr ⟨rfl, rfl⟩⟩⟩, hs.exchange hg, fun hsole => ?_, es, hends,
    fun e h hh => (hmem e).mpr ⟨h, hh.trails⟩, fun done e rest hsplit => ?_⟩
  · exact (hst ⟨ha.wired, fun e h hh _ => ha.soleStream hg hh.isEnd,
      fun e h e' h' hh hh' hf _ _ => hsole e h e' h' hh hh' hf⟩).wired
  · obtain ⟨us, t, hrun, ⟨π, hs⟩, _⟩ :=
      moves_total hg hi ha hr hnodup hes ⟨e :: rest, hsplit.symm⟩
    have hfirst : done ++ [e] <+: es := ⟨rest, by rw [hsplit, List.append_assoc]; rfl⟩
    obtain ⟨moved, t', hmove, hturn, _⟩ := turn_of_first hg hi ha hr hnodup hes hfirst hs
    exact ⟨us, t, moved, t', hrun, hmove, hturn⟩

/-! ### Two ends in a row -/

/-- Two regions that end one after the other, each with a hash adder behind its end. The adder of
the first one feeds the end of the second one. -/
def endsInRow : Graph := Graph.reindexed
  { name := "endsInRow"
    slots := [
      some { name := "m", kind := "Custom"
             outputs := [{ name := "m_OUT0", connections := ["e_IN0"] }] },
      some { name := "e", kind := "$EndParallel$"
             inputs := [{ name := "e_IN0", connections := ["m_OUT0"] }]
             outputs := [{ name := "e_OUT0", connections := ["h_IN0"] }] },
      some { name := "h", kind := "Functor", hashAdder := true
             inputs := [{ name := "h_IN0", connections := ["e_OUT0"] }]
             outputs := [{ name := "h_OUT0", connections := ["f_IN0"] }] },
      some { name := "f", kind := "$EndParallel$"
             inputs := [{ name := "f_IN0", connections := ["h_OUT0"] }]
             outputs := [{ name := "f_OUT0", connections := ["k_IN0"] }] },
      some { name := "k", kind := "Functor", hashAdder := true
             inputs := [{ name := "k_IN0", connections := ["f_OUT0"] }]
             outputs := [{ name := "k_OUT0", connections := ["z_IN0"] }] },
      some { name := "z", kind := "Custom"
             inputs := [{ name := "z_IN0", connections := ["k_OUT0"] }] }]
    order := (List.range 6).map Handle.mk }

/-- The same, but the first end feeds its adder from two output ports. -/
def doubledEnd : Graph := Graph.reindexed
  { name := "doubledEnd"
    slots := [
      some { name := "m", kind := "Custom"
             outputs := [{ name := "m_OUT0", connections := ["e_IN0"] }] },
      some { name := "e", kind := "$EndParallel$"
             inputs := [{ name := "e_IN0", connections := ["m_OUT0"] }]
             outputs := [{ name := "e_OUT0", connections := ["h_IN0"] },
                         { name := "e_OUT1", connections := ["h_IN0"] }] },
      some { name := "h", kind := "Functor", hashAdder := true
             inputs := [{ name := "h_IN0", connections := ["e_OUT0", "e_OUT1"] }]
             outputs := [{ name := "h_OUT0", connections := ["f_IN0"] }] },
      some { name := "f", kind := "$EndParallel$"
             inputs := [{ name := "f_IN0", connections := ["h_OUT0"] }]
             outputs := [{ name := "f_OUT0", connections := ["k_IN0"] }] },
      some { name := "k", kind := "Functor", hashAdder := true
             inputs := [{ name := "k_IN0", connections := ["f_OUT0"] }]
             outputs := [{ name := "k_OUT0", connections := ["z_IN0"] }] },
      some { name := "z", kind := "Custom"
             inputs := [{ name := "z_IN0", connections := ["k_OUT0"] }] }]
    order := (List.range 6).map Handle.mk }

/-- Two ends, each with an adder behind it. The first adder is the second end, and the first end has
two output ports. -/
def adderThatEnds : Graph := Graph.reindexed
  { name := "adderThatEnds"
    slots := [
      some { name := "m", kind := "Custom"
             outputs := [{ name := "m_OUT0", connections := ["e_IN0"] }] },
      some { name := "e", kind := "$EndParallel$"
             inputs := [{ name := "e_IN0", connections := ["m_OUT0"] }]
             outputs := [{ name := "e_OUT0", connections := ["f_IN0"] }, { name := "e_OUT1" }] },
      some { name := "f", kind := "$EndParallel$", hashAdder := true
             inputs := [{ name := "f_IN0", connections := ["e_OUT0"] }]
             outputs := [{ name := "f_OUT0", connections := ["k_IN0"] }] },
      some { name := "k", kind := "Functor", hashAdder := true
             inputs := [{ name := "k_IN0", connections := ["f_OUT0"] }]
             outputs := [{ name := "k_OUT0", connections := ["z_IN0"] }] },
      some { name := "z", kind := "Custom"
             inputs := [{ name := "z_IN0", connections := ["k_OUT0"] }] }]
    order := (List.range 5).map Handle.mk }

theorem relocate_exchanges_endsInRow :
    endsInRow.WellFormed ∧ endsInRow.Indexed ∧ endsInRow.Arranged ∧
      (∀ e h a, endsInRow.Behind e h → ¬ endsInRow.Trails h a) ∧
      (∀ e h e' h', endsInRow.Behind e h → endsInRow.Behind e' h' → endsInRow.Feeds h e' →
        endsInRow.SoleStream h) ∧
      endsInRow.Behind ⟨1⟩ ⟨2⟩ ∧ endsInRow.Behind ⟨3⟩ ⟨4⟩ ∧
      ∃ n g', Yields relocate endsInRow n g' ∧ endsInRow.Exchange g' ∧ g'.Wired := by
  have hof : Graph.ofDescription endsInRow.toDescription = .ok endsInRow := by decide
  have hg := Graph.WellFormed.ofDescription hof
  have hi := Graph.Indexed.ofDescription hof
  have ha : endsInRow.Arranged :=
    ⟨by decide, by decide, by decide, by decide, by decide, by decide⟩
  have hadders : ∀ a ∈ endsInRow.entries, a.2.isHashAdder = true →
      a.2.isMarker .endParallel = false ∧ a.2.ReadsOne := by decide
  have hlast : ∀ e h a, endsInRow.Behind e h → ¬ endsInRow.Trails h a := by
    intro e h a hh htrails
    obtain ⟨op, hop, hadder, _⟩ := hh.adder
    obtain ⟨op', hop', hkind⟩ := Graph.marker?_eq_some.mp htrails.isEnd
    obtain rfl := Option.some.inj (hop.symm.trans hop')
    have hplain := (hadders _ ((Graph.mem_entries hg).mpr hop) hadder).1
    rw [Operator.isMarker, beq_iff_eq.mpr hkind] at hplain
    cases hplain
  have hsole : ∀ e h e' h', endsInRow.Behind e h → endsInRow.Behind e' h' →
      endsInRow.Feeds h e' → endsInRow.SoleStream h := by
    intro e h _ _ hh _ _
    obtain ⟨op, hop, hadder, _⟩ := hh.adder
    exact Graph.soleStream_of_readsOne hg ha.wired.coherent ha.owned hop
      (hadders _ ((Graph.mem_entries hg).mpr hop) hadder).2
  obtain ⟨n, g', hrun, hexchange, hwired, _⟩ := relocate_exchanges hg hi ha hlast
  exact ⟨hg, hi, ha, hlast, hsole, by decide, by decide, n, g', hrun, hexchange, hwired hsole⟩

/-- The graph after the hash adders have been moved. -/
def doubledEndMoved : Graph := (relocate.run.run doubledEnd).2

theorem doubledEnd_relocate : Yields relocate doubledEnd 2 doubledEndMoved :=
  by decide +kernel

/-- **A port that repeats a name.** When the first adder is moved, its end feeds the second one from
both ports, and both streams get the name of the second adder. -/
theorem doubledEnd_repeats :
    Graph.ofDescription doubledEnd.toDescription = .ok doubledEnd ∧ doubledEnd.Arranged ∧
      Yields relocate doubledEnd 2 doubledEndMoved ∧
      ∃ q ∈ doubledEndMoved.inputPorts, q.name = "f_IN0" ∧
        q.connections = ["k_OUT0", "k_OUT0"] :=
  ⟨by decide, ⟨by decide, by decide, by decide, by decide, by decide, by decide⟩,
    doubledEnd_relocate, by decide +kernel⟩

/-- **A run that fails.** When the first adder, which is an end itself, has its turn, its child is
the first end, which has two output ports and cannot be taken out. -/
theorem adderThatEnds_refused :
    Graph.ofDescription adderThatEnds.toDescription = .ok adderThatEnds ∧
      adderThatEnds.Arranged ∧ (relocate.run.run adderThatEnds).1.isOk = false :=
  ⟨by decide, ⟨by decide, by decide, by decide, by decide, by decide, by decide⟩, by decide⟩

end HashAdders

end StreamTopology
