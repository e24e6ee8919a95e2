import StreamTopology.Proofs.Graph.Rewiring

/-!
# What still knows a removed operator

A removal goes through the connections of the neighbours and lets one name of the removed operator
give way to what lies behind it. One name is enough for what reads the operator, which has one
output port at most. What feeds it may list several of its input ports, and all but the first of
these stay behind.

Coherence says nothing of that, for it speaks of ports that are there. So here it is said apart from
`Graph.Wired.without` which ports still list a port that is gone.

## Main definitions

* `OutputPort.Enters`, `OutputPort.EntersTwice`: an output port feeds an operator, once or more.

## Main results

* `Rewiring.exists_gone_mem_rewire`: when a list still has a name that should go.
* `Graph.remove_severs_iff`: when no port knows the operator any more.
* `Graph.sharedFeed_dangles`: a removal after which one does.
-/

namespace StreamTopology

/-- The output port lists an input port of the operator. -/
def OutputPort.Enters (p : OutputPort) (op : Operator) : Prop :=
  ∃ j ∈ op.inputs, j.name ∈ p.connections

/-- The output port lists two input ports of the operator. -/
def OutputPort.EntersTwice (p : OutputPort) (op : Operator) : Prop :=
  ∃ j ∈ op.inputs, ∃ k ∈ op.inputs, j.name ≠ k.name ∧ j.name ∈ p.connections ∧
    k.name ∈ p.connections

instance (p : OutputPort) (op : Operator) : Decidable (p.Enters op) :=
  inferInstanceAs (Decidable (∃ j ∈ op.inputs, j.name ∈ p.connections))

instance (p : OutputPort) (op : Operator) : Decidable (p.EntersTwice op) :=
  inferInstanceAs (Decidable (∃ j ∈ op.inputs, ∃ k ∈ op.inputs, j.name ≠ k.name ∧
    j.name ∈ p.connections ∧ k.name ∈ p.connections))

theorem OutputPort.EntersTwice.enters {p : OutputPort} {op : Operator} (h : p.EntersTwice op) :
    p.Enters op := by
  obtain ⟨j, hj, _, _, _, hc, _⟩ := h
  exact ⟨j, hj, hc⟩

namespace Rewiring

variable {gone : String → Bool} {names instead : List String}

/-- **What should go and stays.** Of the names that should go the first one gives way, so that one
is left if and only if there were two. -/
theorem exists_gone_mem_rewire (hnd : names.Nodup) (hinstead : ∀ c ∈ instead, gone c = false) :
    (∃ c ∈ rewire gone instead names, gone c = true) ↔
      ∃ c ∈ names, ∃ d ∈ names, c ≠ d ∧ gone c = true ∧ gone d = true := by
  by_cases hany : ∃ a ∈ names, gone a = true
  · have hrewire : (∃ c ∈ rewire gone instead names, gone c = true) ↔
        ∃ c ∈ names.eraseP gone, gone c = true := by
      refine exists_congr fun c => and_congr_left fun hc => ?_
      rw [rewire, if_pos (List.any_eq_true.mpr hany), mem_addAll, or_iff_left]
      intro hmem
      rw [hinstead c hmem] at hc
      cases hc
    obtain ⟨a, ha, hgone⟩ := hany
    obtain ⟨first, before, after, hbefore, hfirst, rfl, herase⟩ := List.exists_of_eraseP ha hgone
    have hfresh : first ∉ before ∧ first ∉ after := by
      rw [List.nodup_append, List.nodup_cons] at hnd
      exact ⟨fun hmem => hnd.2.2 first hmem first List.mem_cons_self rfl, hnd.2.1.1⟩
    rw [hrewire, herase]
    constructor
    · rintro ⟨c, hc, hgonec⟩
      refine ⟨c, by grind, first, by simp, ?_, hgonec, hfirst⟩
      rintro rfl
      exact (List.mem_append.mp hc).elim hfresh.1 hfresh.2
    · -- one of the two is not the first one, and no name before that one should go
      rintro ⟨c, hc, d, hd, hne, hgonec, hgoned⟩
      by_cases hcf : c = first
      · exact ⟨d, by grind, hgoned⟩
      · exact ⟨c, by grind, hgonec⟩
  · have hnone : ∀ c ∈ names, gone c = false := fun c hc =>
      Bool.eq_false_iff.mpr fun htrue => hany ⟨c, hc, htrue⟩
    rw [rewire_eq_self hnone]
    refine iff_of_false hany ?_
    rintro ⟨c, hc, _, _, _, hgone, _⟩
    exact hany ⟨c, hc, hgone⟩

theorem isOutputOf_unique {op : Operator} {c d : String} (hc : isOutputOf op c = true)
    (hd : isOutputOf op d = true) : c = d :=
  Option.some.inj ((eq_of_beq hc).symm.trans (eq_of_beq hd))

theorem exists_ownsInput_pair {p : OutputPort} {op : Operator} :
    (∃ c ∈ p.connections, ∃ d ∈ p.connections,
      c ≠ d ∧ op.ownsInput c = true ∧ op.ownsInput d = true) ↔ p.EntersTwice op := by
  simp only [ownsInput_iff]
  constructor
  · rintro ⟨_, hc, _, hd, hne, ⟨j, hj, rfl⟩, k, hk, rfl⟩
    exact ⟨j, hj, k, hk, hne, hc, hd⟩
  · rintro ⟨j, hj, k, hk, hne, hc, hd⟩
    exact ⟨j.name, hc, k.name, hd, hne, ⟨j, hj, rfl⟩, k, hk, rfl⟩

end Rewiring

namespace Graph

open Rewiring

variable {g : Graph} {id : Handle} {op : Operator}

section

variable (hg : g.WellFormed) (hi : g.Indexed) (hw : g.Wired) (hop : g.get? id = some op)
  (hlen : op.outputs.length ≤ 1) (hloop : ¬ g.Feeds id id)

include hop hloop in
/-- An operator that does not feed itself is not entered by its own output ports. -/
theorem not_enters_of_loopless {r : OutputPort} (hr : r ∈ op.outputs) : ¬ r.Enters op :=
  fun ⟨j, hj, hc⟩ => hloop ⟨op, op, hop, hop, Operator.feeds_iff.mpr ⟨r, hr, j, hj, hc⟩⟩

include hg hi hw hop hlen hloop

/-- Nothing of the operator comes in for its output port. -/
theorem isOutputOf_of_mem_feeders : ∀ c ∈ g.feeders id op, isOutputOf op c = false := by
  intro c hc
  rw [Bool.eq_false_iff]
  intro htrue
  obtain ⟨p, hp, hname, henters⟩ := (mem_feeders hg hi hw.coherent hop).mp hc
  obtain ⟨r, hr, rfl⟩ := (isOutputOf_iff hlen).mp htrue
  obtain ⟨x, a, ha, hpa⟩ := (mem_outputPorts hg).mp hp
  obtain ⟨_, rfl⟩ := hw.output_owner hg ha hpa hop hr hname
  exact not_enters_of_loopless hop hloop hr henters

/-- Nothing of the operator comes in for its input ports. -/
theorem ownsInput_of_mem_readers : ∀ c ∈ g.readers id op, op.ownsInput c = false := by
  intro c hc
  rw [Bool.eq_false_iff]
  intro htrue
  obtain ⟨j, hj, rfl⟩ := ownsInput_iff.mp htrue
  have hjg : j ∈ g.inputPorts := (mem_inputPorts hg).mpr ⟨id, op, hop, hj⟩
  obtain ⟨r, hr, hlisted⟩ := (mem_readers_of_input hg hi hw.coherent hop hlen hjg).mp hc
  exact not_enters_of_loopless hop hloop hr ⟨j, hj, hlisted⟩

/-- What reads a removed operator knows it no more: its only output port was listed once. -/
theorem not_listed_without {q : InputPort} {r : OutputPort}
    (hq : q ∈ (g.without id op).inputPorts) (hr : r ∈ op.outputs) : r.name ∉ q.connections := by
  obtain ⟨y, b, q, _, hb, hqb, rfl⟩ :=
    (mem_inputPorts_without hg hi hw.coherent hop hlen).mp hq
  have hnd : q.connections.Nodup := hw.reads_nodup q ((mem_inputPorts hg).mpr ⟨y, b, hb, hqb⟩)
  intro hlisted
  obtain ⟨c, _, d, _, hne, hc, hd⟩ :=
    (exists_gone_mem_rewire hnd (isOutputOf_of_mem_feeders hg hi hw hop hlen hloop)).mp
      ⟨r.name, hlisted, (isOutputOf_iff hlen).mpr ⟨r, hr, rfl⟩⟩
  exact hne (isOutputOf_unique hc hd)

/-- What fed a removed operator knows it if and only if it did so over two streams. -/
theorem exists_enters_without :
    (∃ p ∈ (g.without id op).outputPorts, p.Enters op) ↔ ∃ p ∈ g.outputPorts, p.EntersTwice op := by
  have hrewired : ∀ p ∈ g.outputPorts,
      (∃ c ∈ rewire op.ownsInput (g.readers id op) p.connections, op.ownsInput c = true) ↔
        p.EntersTwice op := fun p hp =>
    (exists_gone_mem_rewire (hw.feeds_nodup p hp)
      (ownsInput_of_mem_readers hg hi hw hop hlen hloop)).trans exists_ownsInput_pair
  constructor
  · rintro ⟨_, hp', henters⟩
    obtain ⟨x, a, p, _, ha, hpa, rfl⟩ :=
      (mem_outputPorts_without hg hi hw.coherent hop hlen).mp hp'
    have hp : p ∈ g.outputPorts := (mem_outputPorts hg).mpr ⟨x, a, ha, hpa⟩
    exact ⟨p, hp, (hrewired p hp).mp (exists_ownsInput.mpr henters)⟩
  · rintro ⟨p, hp, htwice⟩
    obtain ⟨x, a, ha, hpa⟩ := (mem_outputPorts hg).mp hp
    have hx : x ≠ id := by
      rintro rfl
      obtain rfl := Option.some.inj (ha.symm.trans hop)
      exact not_enters_of_loopless hop hloop hpa htwice.enters
    exact ⟨_, (mem_outputPorts_without hg hi hw.coherent hop hlen).mpr
      ⟨x, a, p, hx, ha, hpa, rfl⟩, exists_ownsInput.mp ((hrewired p hp).mpr htwice)⟩

/-- **What is left of a removed operator.** A removal succeeds and leaves a wired graph, and what
read the operator knows it no more. The same holds of what fed it if and only if no output port fed
it over two streams. -/
theorem remove_severs_iff :
    ∃ g', Yields (Rewiring.remove id) g () g' ∧ g'.get? id = none ∧ g'.Wired ∧
      (∀ q ∈ g'.inputPorts, ∀ r ∈ op.outputs, r.name ∉ q.connections) ∧
      ((∀ p ∈ g'.outputPorts, ¬ p.Enters op) ↔ ∀ p ∈ g.outputPorts, ¬ p.EntersTwice op) := by
  refine ⟨g.without id op, (yields_remove hg).mpr ⟨op, hop, hlen, rfl⟩, get?_without_self,
    hw.without hg hi hop hlen, fun q hq r hr => ?_, ?_⟩
  · exact not_listed_without hg hi hw hop hlen hloop hq hr
  · have hiff := not_congr (exists_enters_without hg hi hw hop hlen hloop)
    push Not at hiff
    exact hiff

end

/-! ### A feed of two input ports -/

/-- Two operators that feed one input port each of a third one. One of them feeds the operator below
that as well. -/
def crossFeed : Graph := Graph.reindexed
  { name := "crossFeed"
    slots := [
      some { name := "a", kind := "Custom"
             outputs := [{ name := "ao", connections := ["u1", "bi"] }] },
      some { name := "c", kind := "Custom"
             outputs := [{ name := "co", connections := ["u2"] }] },
      some { name := "u", kind := "$Union$"
             inputs := [{ name := "u1", connections := ["ao"] },
                        { name := "u2", connections := ["co"] }]
             outputs := [{ name := "uo", connections := ["bi"] }] },
      some { name := "b", kind := "Custom"
             inputs := [{ name := "bi", connections := ["uo", "ao"] }] }]
    order := (List.range 4).map Handle.mk }

/-- An operator that feeds both input ports of the next one. -/
def sharedFeed : Graph := Graph.reindexed
  { name := "sharedFeed"
    slots := [
      some { name := "a", kind := "Custom"
             outputs := [{ name := "ao", connections := ["u1", "u2"] }] },
      some { name := "u", kind := "$Union$"
             inputs := [{ name := "u1", connections := ["ao"] },
                        { name := "u2", connections := ["ao"] }]
             outputs := [{ name := "uo", connections := ["bi"] }] },
      some { name := "b", kind := "Custom"
             inputs := [{ name := "bi", connections := ["uo"] }] }]
    order := (List.range 3).map Handle.mk }

theorem remove_severs_iff_crossFeed :
    crossFeed.WellFormed ∧ crossFeed.Indexed ∧ crossFeed.Wired ∧ ¬ crossFeed.Feeds ⟨2⟩ ⟨2⟩ ∧
      ∃ op, crossFeed.get? ⟨2⟩ = some op ∧ op.outputs.length ≤ 1 ∧
        (∀ p ∈ crossFeed.outputPorts, ¬ p.EntersTwice op) ∧
        ∃ g', Yields (Rewiring.remove ⟨2⟩) crossFeed () g' ∧ g'.Wired ∧
          ∀ p ∈ g'.outputPorts, ¬ p.Enters op := by
  have hof : Graph.ofDescription crossFeed.toDescription = .ok crossFeed := by decide
  have hg := WellFormed.ofDescription hof
  have hi := Indexed.ofDescription hof
  have hw : crossFeed.Wired := by decide
  have hloop : ¬ crossFeed.Feeds ⟨2⟩ ⟨2⟩ :=
    fun h => absurd ((mem_children hg hi).mpr h) (by decide)
  obtain ⟨op, hop⟩ := contains_iff.mp (show crossFeed.contains ⟨2⟩ = true by decide)
  have hshape : ∀ a ∈ crossFeed.get? ⟨2⟩, a.outputs.length ≤ 1 ∧
      ∀ p ∈ crossFeed.outputPorts, ¬ p.EntersTwice a := by decide
  obtain ⟨hlen, honce⟩ := hshape op hop
  obtain ⟨g', hrun, _, hw', _, hiff⟩ := remove_severs_iff hg hi hw hop hlen hloop
  exact ⟨hg, hi, hw, hloop, op, hop, hlen, honce, g', hrun, hw', hiff.mpr honce⟩

/-- **A name that dangles.** The operator above goes on listing the second input port of the one
that is gone. -/
theorem sharedFeed_dangles :
    sharedFeed.WellFormed ∧ sharedFeed.Indexed ∧ sharedFeed.Wired ∧ ¬ sharedFeed.Feeds ⟨1⟩ ⟨1⟩ ∧
      ∃ op g', sharedFeed.get? ⟨1⟩ = some op ∧ op.outputs.length ≤ 1 ∧
        Yields (Rewiring.remove ⟨1⟩) sharedFeed () g' ∧
        ∃ p ∈ g'.outputPorts, p.name = "ao" ∧ p.connections = ["u2", "bi"] ∧ p.Enters op := by
  have hof : Graph.ofDescription sharedFeed.toDescription = .ok sharedFeed := by decide
  have hg := WellFormed.ofDescription hof
  have hi := Indexed.ofDescription hof
  have hloop : ¬ sharedFeed.Feeds ⟨1⟩ ⟨1⟩ :=
    fun h => absurd ((mem_children hg hi).mpr h) (by decide)
  obtain ⟨op, hop⟩ := contains_iff.mp (show sharedFeed.contains ⟨1⟩ = true by decide)
  have hleft : ∀ a ∈ sharedFeed.get? ⟨1⟩, a.outputs.length ≤ 1 ∧
      ∃ p ∈ (sharedFeed.without ⟨1⟩ a).outputPorts,
        p.name = "ao" ∧ p.connections = ["u2", "bi"] ∧ p.Enters a := by decide
  obtain ⟨hlen, hdangles⟩ := hleft op hop
  exact ⟨hg, hi, by decide, hloop, op, sharedFeed.without ⟨1⟩ op, hop, hlen,
    (yields_remove hg).mpr ⟨op, hop, hlen, rfl⟩, hdangles⟩

end Graph

end StreamTopology
