import StreamTopology.Proofs.Graph.Detours
import StreamTopology.Proofs.Graph.Transit
import StreamTopology.Proofs.Passes.AdderMove

/-!
# The streams of a hash adder that changes places with an end

Between neighbours a move is an exchange (`Graph.Moved`). Between ports it is one as well, though
the adder gets new names for its ports: what entered the end enters the adder, what the adder fed is
fed by the end, and no other stream comes or goes. So paths that run through the two lead to where
they have led before.

A list of connections repeats a name if the end reads two streams when the adder is put above it. An
operator that reads one stream goes on doing so, unless it reads it from the adder that is taken out
and that one reads several.

## Main definitions

* `Graph.Ready`: an adder that can be moved.
* `Graph.Rerouted`: what moving it leaves, port by port.

## Main results

* `Graph.Ready.moveChild`: the move succeeds.
* `Graph.Rerouted.flowsThrough`: paths through ends and adders are as they were.
* `Graph.Rerouted.soleStream`: who reads one stream afterwards.
-/

namespace StreamTopology

/-! ### Operators without their ports -/

namespace Operator

variable {op : Operator}

/-- The operator without its ports. -/
def portless (op : Operator) : Operator := { op with inputs := [], outputs := [] }

theorem portless_disconnected : op.disconnected.portless = op.portless := rfl

theorem portless_copyAs : (op.copyAs op.name).portless = op.portless := rfl

theorem portless_withSchema {schema : String} :
    (HashAdders.withSchema schema op).portless = op.portless := rfl

end Operator

namespace Graph

open Rewiring

variable {g t : Graph} {e h x y z : Handle} {a op : Operator} {o i : String}

/-! ### One stream -/

/-- An operator that reads one stream has no port with two. -/
theorem SoleStream.unforked (hx : g.SoleStream x) : g.Unforked x := by
  obtain ⟨o, i, hsole⟩ := hx
  intro o₁ i₁ o₂ i₂ hi₁ hi₂ hlist₁ hlist₂
  obtain ⟨rfl, rfl⟩ := (hsole o₁ i₁).mp ⟨hi₁, hlist₁⟩
  obtain ⟨rfl, rfl⟩ := (hsole o₂ i₂).mp ⟨hi₂, hlist₂⟩
  exact iff_of_true rfl rfl

theorem SoleStream.congr (hx : g.SoleStream x)
    (h : ∀ o i, t.InputOf x i ∧ t.Lists o i ↔ g.InputOf x i ∧ g.Lists o i) : t.SoleStream x := by
  obtain ⟨o, i, hsole⟩ := hx
  exact ⟨o, i, fun o' i' => (h o' i').trans (hsole o' i')⟩

/-! ### Adders that can be moved -/

/-- The operator `op` at `h` can be moved in front of the end `e`: it is the only child of `e` and
has no other parent, it has one port on each side, and its ports may get the names of those of a
copy. -/
structure Ready (g : Graph) (e h : Handle) (op : Operator) : Prop where
  live : g.get? h = some op
  inputs : op.inputs.length = 1
  outputs : op.outputs.length = 1
  copyable : g.Copyable h op
  children : g.children e = [h]
  parents : g.parents h = [e]
  isSealed : g.Sealed e
  ne : e ≠ h

section

variable (hg : g.WellFormed) (hi : g.Indexed) (hco : g.Coherent) (hr : g.Ready e h op)

include hg hi hr

theorem Ready.feeds_from : g.Feeds e y ↔ y = h :=
  (children_eq_singleton hg hi).mp hr.children y

include hco

theorem Ready.feeds_to : g.Feeds x h ↔ x = e :=
  (parents_eq_singleton hg hi hco.agrees).mp hr.parents x

theorem Ready.loopless : ¬ g.Feeds h h :=
  fun hloop => hr.ne ((hr.feeds_to hg hi hco).mp hloop).symm

/-- What leads into the adder comes from the end. -/
theorem Ready.outputOf_of_into (hinto : g.Into o h) : g.OutputOf e o := by
  obtain ⟨n, hn, hlist⟩ := hinto
  obtain ⟨x, hx⟩ := hlist.exists_outputOf hg
  exact (hr.feeds_to hg hi hco).mp ((hco.feeds_iff_lists hg).mpr ⟨o, n, hx, hn, hlist⟩) ▸ hx

/-- What the end leads to is the adder. -/
theorem Ready.inputOf_of_outOf (hout : g.OutOf e i) : g.InputOf h i := by
  obtain ⟨m, hm, hlist⟩ := hout
  obtain ⟨y, hy⟩ := hlist.exists_inputOf hg
  exact (hr.feeds_from hg hi).mp ((hco.feeds_iff_lists hg).mpr ⟨m, i, hm, hy, hlist⟩) ▸ hy

omit hi hco in
/-- Where the name of an input port of the copy is listed, the adder has it. -/
theorem Ready.inputOf_of_lists (hnew : i ∈ op.copyInputs) (hlist : g.Lists o i) :
    g.InputOf h i := by
  obtain ⟨y, hy⟩ := hlist.exists_inputOf hg
  exact hr.copyable.inputs_new i hnew y hy ▸ hy

omit hi hco in
/-- Where the name of an output port of the copy is listed, the adder has it. -/
theorem Ready.outputOf_of_lists (hnew : o ∈ op.copyOutputs) (hlist : g.Lists o i) :
    g.OutputOf h o := by
  obtain ⟨x, hx⟩ := hlist.exists_outputOf hg
  exact hr.copyable.outputs_new o hnew x hx ▸ hx

/-! ### The graph in between -/

theorem Ready.fresh : (g.without h op).Fresh (op.copyAs op.name) :=
  hr.copyable.fresh hg hi hco hr.live (Nat.le_of_eq hr.outputs) (hr.loopless hg hi hco)

/-- **The streams in between**: those of the adder have been joined. -/
theorem Ready.lists_copied :
    (g.copied e h op).Lists o i ↔
      ¬ g.OutputOf h o ∧ ¬ g.InputOf h i ∧ (g.Lists o i ∨ g.Into o h ∧ g.OutOf h i) := by
  have houtput : ∀ {o}, g.OutputOf h o ↔ ∃ r ∈ op.outputs, r.name = o := by
    intro o
    rw [outputOf_iff, hr.live, Option.map_some, Option.some.injEq, ownsOutput_iff]
  have hinput : ∀ {i}, g.InputOf h i ↔ ∃ j ∈ op.inputs, j.name = i := by
    intro i
    rw [inputOf_iff, hr.live, Option.map_some, Option.some.injEq, ownsInput_iff]
  rw [copied, lists_insertBefore (hg.without h op) (hr.fresh hg hi hco),
    hco.lists_without hg hi hr.live (Nat.le_of_eq hr.outputs), Into, OutOf]
  simp only [houtput, hinput, not_exists, not_and, exists_exists_and_eq_and]
  refine and_congr_right fun _ => and_congr_right fun _ => or_congr_right ?_
  constructor
  · rintro ⟨j, hj, r, hr, hoj, hri⟩
    exact ⟨⟨j, hj, hoj⟩, r, hr, hri⟩
  · rintro ⟨⟨j, hj, hoj⟩, r, hr, hri⟩
    exact ⟨j, hj, r, hr, hoj, hri⟩

theorem Ready.wired_copied (hw : g.Wired) : (g.copied e h op).Wired :=
  (hw.without hg hi hr.live (Nat.le_of_eq hr.outputs)).insertBefore (hg.without h op)
    (hr.fresh hg hi hco)

/-- An operator goes on reading one stream, also through the adder if that one reads one. -/
theorem Ready.soleStream_copied (hx : x ≠ h) (hsole : g.SoleStream x)
    (hthrough : g.Feeds h x → g.SoleStream h) : (g.copied e h op).SoleStream x := by
  have hinput : ∀ i, (g.copied e h op).InputOf x i ↔ g.InputOf x i :=
    fun i => inputOf_congr (disconnected_copied hg hr.live hx)
  have hother : ∀ {i}, g.InputOf x i → ¬ g.InputOf h i :=
    fun hxi hhi => hx (hco.eq_of_input hg hxi hhi)
  obtain ⟨o, i, hone⟩ := hsole
  obtain ⟨hxi, hlist⟩ := (hone o i).mpr ⟨rfl, rfl⟩
  by_cases ho : g.OutputOf h o
  -- the adder fed it, and what fed the adder does so now
  · obtain ⟨o₁, i₁, hone₁⟩ := hthrough ((hco.feeds_iff_lists hg).mpr ⟨o, i, ho, hxi, hlist⟩)
    obtain ⟨hi₁, hlist₁⟩ := (hone₁ o₁ i₁).mpr ⟨rfl, rfl⟩
    refine ⟨o₁, i, fun o' i' => ?_⟩
    rw [hinput, hr.lists_copied hg hi hco]
    constructor
    · rintro ⟨hxi', ho', -, hlist' | ⟨⟨n, hn, hlist'⟩, m, hm, hlist''⟩⟩
      · obtain ⟨rfl, -⟩ := (hone o' i').mp ⟨hxi', hlist'⟩
        exact absurd ho ho'
      · exact ⟨((hone₁ o' n).mp ⟨hn, hlist'⟩).1, ((hone m i').mp ⟨hxi', hlist''⟩).2⟩
    · rintro ⟨rfl, rfl⟩
      have hinto : g.Into o' h := ⟨i₁, hi₁, hlist₁⟩
      refine ⟨hxi, fun ho' => ?_, hother hxi, Or.inr ⟨hinto, o, ho, hlist⟩⟩
      exact hr.ne (hco.eq_of_output hg (hr.outputOf_of_into hg hi hco hinto) ho')
  · refine ⟨o, i, fun o' i' => ?_⟩
    rw [hinput, hr.lists_copied hg hi hco]
    constructor
    · rintro ⟨hxi', -, -, hlist' | ⟨-, m, hm, hlist''⟩⟩
      · exact (hone o' i').mp ⟨hxi', hlist'⟩
      · obtain ⟨rfl, -⟩ := (hone m i').mp ⟨hxi', hlist''⟩
        exact absurd hm ho
    · rintro ⟨rfl, rfl⟩
      exact ⟨hxi, ho, hother hxi, Or.inl hlist⟩

omit hi hco in
/-- The copy stands directly in front of the end. -/
theorem Ready.order_copied (hi : g.Indexed) : ∃ before after,
    g.order.erase h = before ++ e :: after ∧
      (g.copied e h op).order = before ++ h :: e :: after := by
  have horder : (g.without h op).order = g.order.erase h := by
    rw [hg.order_without, hg.order_nodup.erase_eq_filter]
  have hmem : e ∈ (g.without h op).order := by
    rw [horder]
    refine (List.mem_erase_of_ne hr.ne).mpr (hg.mem_order_iff.mpr ?_)
    obtain ⟨a, _, ha, _⟩ := (hr.feeds_from hg hi).mpr rfl
    exact ⟨a, ha⟩
  obtain ⟨before, after, hbefore, hafter⟩ := insertInFront_eq_append h hmem
  refine ⟨before, after, horder.symm.trans hbefore, ?_⟩
  rw [copied, order_insertBefore, insertBefore_fst (vacant_without hr.live), hafter]

/-! ### One move, port by port -/

omit hg hi hco in
theorem Ready.copy_ports : ∃ addIn addOut,
    (op.copyAs op.name).inputs.head? = some addIn ∧ op.copyInputs = [addIn.name] ∧
      (op.copyAs op.name).outputs.head? = some addOut ∧ op.copyOutputs = [addOut.name] := by
  have hins : (op.copyAs op.name).inputs.length = 1 := by
    rw [Operator.copyAs, List.length_mapIdx, hr.inputs]
  have houts : (op.copyAs op.name).outputs.length = 1 := by
    rw [Operator.copyAs, List.length_mapIdx, hr.outputs]
  obtain ⟨addIn, hin⟩ := List.length_eq_one_iff.mp hins
  obtain ⟨addOut, hout⟩ := List.length_eq_one_iff.mp houts
  refine ⟨addIn, addOut, ?_, ?_, ?_, ?_⟩ <;>
    simp only [Operator.copyInputs, Operator.copyOutputs, hin, hout, List.head?_cons, List.map_cons,
      List.map_nil]

/-- **Putting the copy above the end succeeds.** -/
theorem Ready.interposed : ∃ addIn addOut t, op.copyInputs = [addIn] ∧ op.copyOutputs = [addOut] ∧
    Yields (interposeAbove e h) (g.copied e h op) ⟨⟩ t ∧
    (g.copied e h op).PutAbove e h addIn addOut t ∧
    ((g.copied e h op).Wired → (g.copied e h op).SoleStream e → t.Wired) := by
  obtain ⟨addIn, addOut, hin, hins, hout, houts⟩ := hr.copy_ports
  have hg' : (g.copied e h op).WellFormed := hg.copied
  have hi' : (g.copied e h op).Indexed := indexed_insertBefore
  have hco' : (g.copied e h op).Coherent :=
    hco.copied hg hr.live hi (Nat.le_of_eq hr.outputs) hr.copyable (hr.loopless hg hi hco)
  have hlive : (g.copied e h op).get? h = some (op.copyAs op.name) := by
    rw [get?_copied hg hr.live, if_pos rfl]
  have hfresh := hr.fresh hg hi hco
  have hidle : (op.copyAs op.name).Idle := ⟨hfresh.inputs_idle, hfresh.outputs_idle⟩
  obtain ⟨t, hrun, hindexed, hdetoured⟩ :=
    interposeAbove_detoured hg' hi' hco' hlive hin hout hidle hr.ne.symm
  refine ⟨addIn.name, addOut.name, t, hins, houts, hrun,
    hdetoured.putAbove hg' hi' hco' hlive hin hout hr.ne.symm hindexed, fun hw hsole => ?_⟩
  obtain ⟨t', hrun', -, hiff⟩ :=
    interposeAbove_wired_iff hg' hi' hw hlive hin hout hidle hr.ne.symm
  rw [(hrun.unique hrun').2]
  exact hiff.mpr hsole.unforked

end

/-- `t` is `g` after the adder `op` at `h` has been moved in front of the end `e`: what that does to
ports and to the streams between them. -/
structure Rerouted (g : Graph) (e h : Handle) (op : Operator) (t : Graph) : Prop
    extends g.Moved e h op t where
  portless : ∀ x, (t.get? x).map Operator.portless = (g.get? x).map Operator.portless
  order : ∃ before after, g.order.erase h = before ++ e :: after ∧
    t.order = before ++ h :: e :: after
  inputOf : ∀ x i, t.InputOf x i ↔ if x = h then i ∈ op.copyInputs else g.InputOf x i
  outputOf : ∀ x o, t.OutputOf x o ↔ if x = h then o ∈ op.copyOutputs else g.OutputOf x o
  lists : ∀ o i, t.Lists o i ↔ (g.copied e h op).Lists o i ∧ ¬ g.InputOf e i ∨
    i ∈ op.copyInputs ∧ (∃ j, g.InputOf e j ∧ (g.copied e h op).Lists o j) ∨
    o ∈ op.copyOutputs ∧ g.InputOf e i ∧ ∃ k, (g.copied e h op).Lists k i

section

variable (hg : g.WellFormed) (hi : g.Indexed) (hco : g.Coherent) (hr : g.Ready e h op)

include hg hi hco hr

/-- What is left when the copy has been put above the end, and the end has got its schema. -/
theorem Ready.rerouted {schema addIn addOut : String} (hins : op.copyInputs = [addIn])
    (houts : op.copyOutputs = [addOut])
    (hrun : Yields (interposeAbove e h) (g.copied e h op) ⟨⟩ t)
    (habove : (g.copied e h op).PutAbove e h addIn addOut t) (ha : t.get? e = some a) :
    g.Rerouted e h op (t.set e (HashAdders.withSchema schema a)) := by
  have hann : t.Annotates (t.set e (HashAdders.withSchema schema a)) :=
    annotates_set ha Operator.skeleton_withSchema
  have hend : ∀ {i}, (g.copied e h op).InputOf e i ↔ g.InputOf e i :=
    fun {_} => inputOf_congr (disconnected_copied hg hr.live hr.ne)
  refine ⟨moveChild_moved hg hr.live hi hco (Nat.le_of_eq hr.outputs) hr.copyable
    (hr.loopless hg hi hco) hr.children hr.parents hr.isSealed hr.ne hrun ha, fun x => ?_, ?_,
    fun x i => ?_, fun x o => ?_, fun o i => ?_⟩
  · have hkept : (t.get? x).map Operator.portless = (g.get? x).map Operator.portless := by
      refine (map_eq_of_map_eq (habove.disconnected x)
        fun _ => Operator.portless_disconnected).trans ?_
      by_cases hx : x = h
      · rw [hx, get?_copied hg hr.live, if_pos rfl, hr.live, Option.map_some, Option.map_some,
          Operator.portless_copyAs]
      · exact map_eq_of_map_eq (disconnected_copied hg hr.live hx)
          fun _ => Operator.portless_disconnected
    rw [← hkept, get?_set (contains_iff.mpr ⟨a, ha⟩)]
    split
    next hx => rw [hx, ha, Option.map_some, Option.map_some, Operator.portless_withSchema]
    next => rfl
  · obtain ⟨before, after, hbefore, hafter⟩ := hr.order_copied hg hi
    exact ⟨before, after, hbefore, (hann.order.trans habove.order).trans hafter⟩
  · rw [hann.inputOf, inputOf_congr (habove.disconnected x)]
    split
    next hx => rw [hx, inputOf_copied_self hg hr.live]
    next hx => exact inputOf_congr (disconnected_copied hg hr.live hx)
  · rw [hann.outputOf, outputOf_congr (habove.disconnected x)]
    split
    next hx => rw [hx, outputOf_copied_self hg hr.live]
    next hx => exact outputOf_congr (disconnected_copied hg hr.live hx)
  · rw [hann.lists habove.wellFormed, habove.lists, hins, houts, List.mem_singleton,
      List.mem_singleton]
    simp only [hend]

/-- **Moving an adder succeeds.** If the end reads one stream, and the adder too in case it feeds
the end, no port repeats a name afterwards. -/
theorem Ready.moveChild : ∃ t, Yields (HashAdders.moveChild e) g true t ∧ g.Rerouted e h op t ∧
    (g.Wired → g.SoleStream e → (g.Feeds h e → g.SoleStream h) → t.Wired) := by
  obtain ⟨addIn, addOut, t, hins, houts, hrun, habove, hwired⟩ := hr.interposed hg hi hco
  obtain ⟨output, hout⟩ := List.length_eq_one_iff.mp hr.outputs
  obtain ⟨b, _, hb, _⟩ := (hr.feeds_from hg hi).mpr rfl
  obtain ⟨a, ha, _⟩ := exists_of_disconnected ((habove.disconnected e).trans
    (disconnected_copied hg hr.live hr.ne)).symm hb
  refine ⟨t.set e (HashAdders.withSchema output.schema a), ?_,
    hr.rerouted hg hi hco hins houts hrun habove ha, fun hw hsole hthrough => ?_⟩
  · rw [HashAdders.moveChild, yields_get_bind, hr.children]
    refine (yields_lookup_bind hr.live).mpr ?_
    rw [hout, List.head?_cons]
    refine yields_bind.mpr ⟨⟨⟩, _, (yields_remove hg).mpr
      ⟨op, hr.live, Nat.le_of_eq hr.outputs, rfl⟩, ?_⟩
    have hinsert : (g.without h op).insertBefore e (op.copyAs op.name) = (h, g.copied e h op) :=
      Prod.ext (insertBefore_fst (vacant_without hr.live)) rfl
    rw [yields_get_bind, hinsert]
    exact yields_bind.mpr ⟨⟨⟩, _, yields_set.mpr rfl, yields_bind.mpr ⟨⟨⟩, t, hrun,
      yields_bind.mpr ⟨⟨⟩, _, yields_update.mpr ⟨a, ha, rfl⟩, yields_pure.mpr ⟨rfl, rfl⟩⟩⟩⟩
  · exact (annotates_set ha Operator.skeleton_withSchema).wired habove.wellFormed
      (hwired (hr.wired_copied hg hi hco hw)
        (hr.soleStream_copied hg hi hco hr.ne hsole hthrough))

/-! ### Streams outside of a move -/

/-- What does not come from the two goes on where it went. -/
theorem Ready.lists_copied_from (hye : y ≠ e) (hyh : y ≠ h) (ho : g.OutputOf y o) :
    (g.copied e h op).Lists o i ↔ g.Lists o i := by
  have hinto : ¬ g.Into o h :=
    fun hinto => hye (hco.eq_of_output hg ho (hr.outputOf_of_into hg hi hco hinto))
  rw [hr.lists_copied hg hi hco]
  constructor
  · rintro ⟨-, -, hlist | ⟨hlist, -⟩⟩
    · exact hlist
    · exact absurd hlist hinto
  · exact fun hlist => ⟨fun ho' => hyh (hco.eq_of_output hg ho ho'),
      fun hi' => hinto ⟨i, hi', hlist⟩, Or.inl hlist⟩

variable (ht : g.Rerouted e h op t)

include ht

/-- The streams that do not come from the two. -/
theorem Rerouted.lists_from (hye : y ≠ e) (hyh : y ≠ h) (ho : g.OutputOf y o) :
    t.Lists o i ↔ g.Lists o i ∧ ¬ g.InputOf e i ∨ i ∈ op.copyInputs ∧ g.Into o e := by
  have hnew : o ∉ op.copyOutputs := fun hmem => hyh (hr.copyable.outputs_new o hmem y ho)
  rw [ht.lists, Into]
  simp only [hr.lists_copied_from hg hi hco hye hyh ho, hnew, false_and, or_false]

omit hi in
/-- The streams that do not lead to the two. -/
theorem Rerouted.lists_to (hze : z ≠ e) (hzh : z ≠ h) (hzi : g.InputOf z i) :
    t.Lists o i ↔ (g.copied e h op).Lists o i := by
  have hend : ¬ g.InputOf e i := fun hei => hze (hco.eq_of_input hg hzi hei)
  have hnew : i ∉ op.copyInputs := fun hmem => hzh (hr.copyable.inputs_new i hmem z hzi)
  rw [ht.lists]
  simp only [hend, hnew, false_and, and_false, or_false, not_false_eq_true, and_true]

/-- **Between other ports the streams are as they were.** -/
theorem Rerouted.lists_iff (hye : y ≠ e) (hyh : y ≠ h) (ho : g.OutputOf y o) (hze : z ≠ e)
    (hzh : z ≠ h) (hzi : g.InputOf z i) : t.Lists o i ↔ g.Lists o i := by
  rw [ht.lists_to hg hco hr hze hzh hzi, hr.lists_copied_from hg hi hco hye hyh ho]

/-- **What led into the end leads into the adder**, and nothing else changes its direction. -/
theorem Rerouted.into_iff (hye : y ≠ e) (hyh : y ≠ h) (ho : g.OutputOf y o) :
    t.Into o x ↔ g.Into o (Equiv.swap e h x) := by
  have hnone : ¬ g.Into o h :=
    fun hinto => hye (hco.eq_of_output hg ho (hr.outputOf_of_into hg hi hco hinto))
  simp only [Into, ht.inputOf, ht.lists_from hg hi hco hr hye hyh ho]
  by_cases hxh : x = h
  -- the copy reads what the end read; nothing else lists the new name
  · subst hxh
    rw [Equiv.swap_apply_right]
    simp only [if_true]
    constructor
    · rintro ⟨n, hn, ⟨hlist, -⟩ | ⟨-, hinto⟩⟩
      · exact absurd ⟨n, hr.inputOf_of_lists hg hn hlist, hlist⟩ hnone
      · exact hinto
    · intro hinto
      obtain ⟨addIn, _, _, hins, _, _⟩ := hr.copy_ports
      exact ⟨addIn.name, hins ▸ List.mem_singleton_self _, Or.inr
        ⟨hins ▸ List.mem_singleton_self _, hinto⟩⟩
  · simp only [if_neg hxh]
    by_cases hxe : x = e
    · subst hxe
      rw [Equiv.swap_apply_left]
      refine iff_of_false ?_ hnone
      rintro ⟨n, hn, ⟨-, hend⟩ | ⟨hnew, -⟩⟩
      · exact hend hn
      · exact hxh (hr.copyable.inputs_new n hnew x hn)
    · rw [Equiv.swap_apply_of_ne_of_ne hxe hxh]
      refine exists_congr fun n => and_congr_right fun hn => ⟨?_, fun hlist => Or.inl ⟨hlist, ?_⟩⟩
      · rintro (⟨hlist, -⟩ | ⟨hnew, -⟩)
        · exact hlist
        · exact absurd (hr.copyable.inputs_new n hnew x hn) hxh
      · exact fun hend => hxe (hco.eq_of_input hg hn hend)

/-- **What the adder led to is led to by the end**, and nothing else changes its origin. -/
theorem Rerouted.outOf_iff (hze : z ≠ e) (hzh : z ≠ h) (hzi : g.InputOf z i) :
    t.OutOf x i ↔ g.OutOf (Equiv.swap e h x) i := by
  have hother : ¬ g.InputOf h i := fun hhi => hzh (hco.eq_of_input hg hzi hhi)
  have hnone : ¬ g.OutOf e i := fun hout => hother (hr.inputOf_of_outOf hg hi hco hout)
  simp only [OutOf, ht.outputOf, ht.lists_to hg hco hr hze hzh hzi, hr.lists_copied hg hi hco,
    hother, not_false_eq_true, true_and]
  by_cases hxh : x = h
  -- the copy feeds the end and nothing outside
  · subst hxh
    rw [Equiv.swap_apply_right]
    simp only [if_true]
    refine iff_of_false ?_ hnone
    rintro ⟨m, hm, hgone, hlist | ⟨⟨n, hn, hlist⟩, -⟩⟩
    · exact hgone (hr.outputOf_of_lists hg hm hlist)
    · exact hgone (hr.outputOf_of_lists hg hm hlist)
  · simp only [if_neg hxh]
    have hnot : ∀ {m}, g.OutputOf x m → ¬ g.OutputOf h m :=
      fun hm hm' => hxh (hco.eq_of_output hg hm hm')
    by_cases hxe : x = e
    · subst hxe
      rw [Equiv.swap_apply_left]
      constructor
      · rintro ⟨m, hm, -, hlist | ⟨-, hout⟩⟩
        · exact absurd ⟨m, hm, hlist⟩ hnone
        · exact hout
      · intro hout
        obtain ⟨m, hm, hinto⟩ := (hco.feeds_iff_into hg).mp ((hr.feeds_from hg hi).mpr rfl)
        exact ⟨m, hm, hnot hm, Or.inr ⟨hinto, hout⟩⟩
    · rw [Equiv.swap_apply_of_ne_of_ne hxe hxh]
      refine exists_congr fun m => and_congr_right fun hm =>
        ⟨?_, fun hlist => ⟨hnot hm, Or.inl hlist⟩⟩
      rintro ⟨-, hlist | ⟨hinto, -⟩⟩
      · exact hlist
      · exact absurd (hco.eq_of_output hg hm (hr.outputOf_of_into hg hi hco hinto)) hxe

/-- **Paths through the two lead to where they led before.** -/
theorem Rerouted.flowsThrough {ids ids' : List Handle}
    (hids : ∀ x, x ∈ ids' ↔ Equiv.swap e h x ∈ ids) (hye : y ≠ e) (hyh : y ≠ h)
    (ho : g.OutputOf y o) (hze : z ≠ e) (hzh : z ≠ h) (hzi : g.InputOf z i) :
    t.FlowsThrough ids' o i ↔ g.FlowsThrough ids o i :=
  flowsThrough_perm hg hco ht.wellFormed ht.coherent hids ht.feeds
    (ht.lists_iff hg hi hco hr hye hyh ho hze hzh hzi)
    (fun _ => ht.into_iff hg hi hco hr hye hyh ho)
    fun _ => ht.outOf_iff hg hi hco hr hze hzh hzi

/-- **Another operator goes on reading one stream**, also through the adder if that reads one. -/
theorem Rerouted.soleStream (hxe : x ≠ e) (hxh : x ≠ h) (hsole : g.SoleStream x)
    (hthrough : g.Feeds h x → g.SoleStream h) : t.SoleStream x := by
  refine (hr.soleStream_copied hg hi hco hxh hsole hthrough).congr fun o i => ?_
  rw [ht.inputOf, if_neg hxh, inputOf_congr (disconnected_copied hg hr.live hxh)]
  exact and_congr_right fun hxi => ht.lists_to hg hco hr hxe hxh hxi

end

end Graph

end StreamTopology
