import StreamTopology.Proofs.Graph.Interposing

/-!
# One operator put into a graph

`Graph.insertBefore` gives a place to an operator whose ports list nothing. If the names of its
ports are new (`Graph.Fresh`), the graph stays coherent and no stream comes or goes.

## Main definitions

* `Graph.Fresh`: the operator has names that the graph does not use.

## Main results

* `Graph.WellFormed.operators_insertBefore`: the operators afterwards.
* `Graph.Coherent.insertBefore`, `Graph.lists_insertBefore`, `Graph.feeds_insertBefore`
-/

namespace StreamTopology

namespace Graph

variable {g : Graph} {anchor x y : Handle} {op : Operator} {o i : String}

theorem operators_eq_filterMap : g.operators = g.order.filterMap g.get? := by
  simp [operators, entries, List.map_filterMap, Function.comp_def]

theorem indexed_insertBefore : (g.insertBefore anchor op).2.Indexed := indexed_reindexed _

/-- A new element has its place directly in front of the anchor. -/
theorem insertInFront_eq_append (new : Handle) {order : List Handle} (h : anchor ∈ order) :
    ∃ before after, order = before ++ anchor :: after ∧
      insertInFront anchor new order = before ++ new :: anchor :: after := by
  induction order with
  | nil => cases h
  | cons x order ih =>
    by_cases hx : x = anchor
    · exact ⟨[], order, by rw [hx, List.nil_append], by rw [insertInFront, if_pos hx, hx]; rfl⟩
    · obtain ⟨before, after, horder, hinsert⟩ :=
        ih ((List.mem_cons.mp h).resolve_left fun he => hx he.symm)
      exact ⟨x :: before, after, by rw [horder, List.cons_append],
        by rw [insertInFront, if_neg hx, hinsert, List.cons_append]⟩

theorem order_insertBefore : (g.insertBefore anchor op).2.order =
    insertInFront anchor (g.insertBefore anchor op).1 g.order := by
  show insertInFront anchor (g.allocate op).1 (g.allocate op).2.order = _
  rw [order_allocate]
  rfl

/-- An operator of the graph is not the new one. -/
theorem WellFormed.get?_insertBefore_of_live (hg : g.WellFormed) {a : Operator}
    (ha : g.get? x = some a) : (g.insertBefore anchor op).2.get? x = some a := by
  have hnone : g.get? (g.insertBefore anchor op).1 = none := (hg.allocate_fst op).1
  rw [hg.get?_insertBefore, if_neg, ha]
  rintro rfl
  rw [hnone] at ha
  cases ha

/-- **The operators after an insertion.** -/
theorem WellFormed.operators_insertBefore (hg : g.WellFormed) :
    (g.insertBefore anchor op).2.operators.Perm (op :: g.operators) := by
  have hperm := perm_insertInFront anchor (g.insertBefore anchor op).1 g.order
  have hnew : (g.insertBefore anchor op).2.get? (g.insertBefore anchor op).1 = some op := by
    rw [hg.get?_insertBefore, if_pos rfl]
  have hold : ∀ x ∈ g.order, (g.insertBefore anchor op).2.get? x = g.get? x := by
    intro x hx
    obtain ⟨a, ha⟩ := hg.mem_order_iff.mp hx
    rw [hg.get?_insertBefore_of_live ha, ha]
  rw [operators_eq_filterMap, operators_eq_filterMap, order_insertBefore]
  refine (hperm.filterMap _).trans ?_
  rw [List.filterMap_cons, hnew, List.filterMap_congr hold]

theorem WellFormed.mem_outputPorts_insertBefore (hg : g.WellFormed) {p : OutputPort} :
    p ∈ (g.insertBefore anchor op).2.outputPorts ↔ p ∈ op.outputs ∨ p ∈ g.outputPorts := by
  rw [outputPorts, (hg.operators_insertBefore.flatMap_right _).mem_iff, List.flatMap_cons,
    List.mem_append]
  rfl

theorem WellFormed.mem_inputPorts_insertBefore (hg : g.WellFormed) {q : InputPort} :
    q ∈ (g.insertBefore anchor op).2.inputPorts ↔ q ∈ op.inputs ∨ q ∈ g.inputPorts := by
  rw [inputPorts, (hg.operators_insertBefore.flatMap_right _).mem_iff, List.flatMap_cons,
    List.mem_append]
  rfl

/-- The ports of the operator list nothing, and the graph neither has nor lists ports of their
names. -/
structure Fresh (g : Graph) (op : Operator) : Prop where
  outputs_idle : ∀ p ∈ op.outputs, p.connections = []
  inputs_idle : ∀ q ∈ op.inputs, q.connections = []
  outputs_nodup : (op.outputs.map OutputPort.name).Nodup
  inputs_nodup : (op.inputs.map InputPort.name).Nodup
  outputs_new : ∀ p ∈ op.outputs, ∀ p' ∈ g.outputPorts, p.name ≠ p'.name
  inputs_new : ∀ q ∈ op.inputs, ∀ q' ∈ g.inputPorts, q.name ≠ q'.name
  outputs_unlisted : ∀ p ∈ op.outputs, ∀ q ∈ g.inputPorts, p.name ∉ q.connections
  inputs_unlisted : ∀ q ∈ op.inputs, ∀ p ∈ g.outputPorts, q.name ∉ p.connections

variable (hg : g.WellFormed) (hfresh : g.Fresh op)

include hg hfresh

theorem Coherent.insertBefore (hco : g.Coherent) : (g.insertBefore anchor op).2.Coherent := by
  have hperm : (g.insertBefore anchor op).2.operators.Perm (op :: g.operators) :=
    hg.operators_insertBefore
  refine ⟨?_, ?_, fun p hp q hq => ?_⟩
  · refine ((hperm.flatMap_right Operator.inputs).map InputPort.name).nodup_iff.mpr ?_
    rw [List.flatMap_cons, List.map_append]
    refine List.nodup_append.mpr ⟨hfresh.inputs_nodup, hco.inputs_nodup, fun n hn n' hn' => ?_⟩
    obtain ⟨q, hq, rfl⟩ := List.mem_map.mp hn
    obtain ⟨q', hq', rfl⟩ := List.mem_map.mp hn'
    exact hfresh.inputs_new q hq q' hq'
  · refine ((hperm.flatMap_right Operator.outputs).map OutputPort.name).nodup_iff.mpr ?_
    rw [List.flatMap_cons, List.map_append]
    refine List.nodup_append.mpr ⟨hfresh.outputs_nodup, hco.outputs_nodup, fun n hn n' hn' => ?_⟩
    obtain ⟨p, hp, rfl⟩ := List.mem_map.mp hn
    obtain ⟨p', hp', rfl⟩ := List.mem_map.mp hn'
    exact hfresh.outputs_new p hp p' hp'
  · rcases hg.mem_outputPorts_insertBefore.mp hp with hp | hp <;>
      rcases hg.mem_inputPorts_insertBefore.mp hq with hq | hq
    · rw [hfresh.outputs_idle p hp, hfresh.inputs_idle q hq]
      simp
    · refine iff_of_false ?_ (hfresh.outputs_unlisted p hp q hq)
      rw [hfresh.outputs_idle p hp]
      exact List.not_mem_nil
    · refine iff_of_false (hfresh.inputs_unlisted q hq p hp) ?_
      rw [hfresh.inputs_idle q hq]
      exact List.not_mem_nil
    · exact hco.agrees p hp q hq

theorem covers_insertBefore {newIn newOut : List String} :
    g.Covers newIn newOut (g.insertBefore anchor op).2 := by
  refine ⟨fun p hp c hc _ => ?_, fun q hq c hc _ => ?_⟩
  · rcases hg.mem_outputPorts_insertBefore.mp hp with hp | hp
    · rw [hfresh.outputs_idle p hp] at hc
      cases hc
    · exact ⟨p, hp, hc, Nat.le_refl _⟩
  · rcases hg.mem_inputPorts_insertBefore.mp hq with hq | hq
    · rw [hfresh.inputs_idle q hq] at hc
      cases hc
    · exact ⟨q, hq, hc, Nat.le_refl _⟩

theorem Wired.insertBefore (hw : g.Wired) : (g.insertBefore anchor op).2.Wired := by
  have hco : (g.insertBefore anchor op).2.Coherent := hw.coherent.insertBefore hg hfresh
  refine ⟨hco.inputs_nodup, hco.outputs_nodup, fun q hq => ?_, fun p hp => ?_, hco.agrees⟩
  · rcases hg.mem_inputPorts_insertBefore.mp hq with hq | hq
    · rw [hfresh.inputs_idle q hq]
      exact List.nodup_nil
    · exact hw.reads_nodup q hq
  · rcases hg.mem_outputPorts_insertBefore.mp hp with hp | hp
    · rw [hfresh.outputs_idle p hp]
      exact List.nodup_nil
    · exact hw.feeds_nodup p hp

/-- **No stream between ports comes or goes.** -/
theorem lists_insertBefore : (g.insertBefore anchor op).2.Lists o i ↔ g.Lists o i := by
  constructor
  · rintro ⟨p, hp, q, hq, rfl, rfl, hlisted⟩
    rcases hg.mem_outputPorts_insertBefore.mp hp with hp | hp
    · rw [hfresh.outputs_idle p hp] at hlisted
      cases hlisted
    · rcases hg.mem_inputPorts_insertBefore.mp hq with hq | hq
      · exact absurd hlisted (hfresh.inputs_unlisted q hq p hp)
      · exact ⟨p, hp, q, hq, rfl, rfl, hlisted⟩
  · rintro ⟨p, hp, q, hq, rfl, rfl, hlisted⟩
    exact ⟨p, hg.mem_outputPorts_insertBefore.mpr (Or.inr hp), q,
      hg.mem_inputPorts_insertBefore.mpr (Or.inr hq), rfl, rfl, hlisted⟩

/-- **No stream comes or goes.** -/
theorem feeds_insertBefore : (g.insertBefore anchor op).2.Feeds x y ↔ g.Feeds x y := by
  constructor
  · rintro ⟨a, b, ha, hb, hfeeds⟩
    obtain ⟨p, hp, q, hq, hlisted⟩ := Operator.feeds_iff.mp hfeeds
    rw [hg.get?_insertBefore] at ha hb
    by_cases hx : x = (g.insertBefore anchor op).1
    · rw [if_pos hx, Option.some.injEq] at ha
      rw [hfresh.outputs_idle p (ha ▸ hp)] at hlisted
      cases hlisted
    · rw [if_neg hx] at ha
      by_cases hy : y = (g.insertBefore anchor op).1
      · rw [if_pos hy, Option.some.injEq] at hb
        exact absurd hlisted (hfresh.inputs_unlisted q (hb ▸ hq) p
          ((mem_outputPorts hg).mpr ⟨x, a, ha, hp⟩))
      · rw [if_neg hy] at hb
        exact ⟨a, b, ha, hb, hfeeds⟩
  · rintro ⟨a, b, ha, hb, hfeeds⟩
    exact ⟨a, b, hg.get?_insertBefore_of_live ha, hg.get?_insertBefore_of_live hb, hfeeds⟩

end Graph

end StreamTopology
