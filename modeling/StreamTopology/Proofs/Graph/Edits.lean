import StreamTopology.Proofs.Passes.Endings

/-!
# The index and a scan of the ports

The index saves looking at all ports of all operators. What it must not do is say anything else
than such a scan: a place in the arena is used again, ports may list names without an owner or a
name with several owners, a stream may be written on one of its sides only, and any operation may
fail half way.

A history of a graph is a list of edits, each applied to what the one before has left, whether that
succeeded or not. Each edit keeps a graph sound, so at any point of any history the index and the
scan agree.

## Main definitions

* `Graph.scanBelow`, `Graph.scanAbove`: neighbours by a scan of the ports.
* `Graph.MatchesScan`
* `Edit`, `Edit.after`: an operation on a graph, and what it leaves.

## Main results

* `Edit.sound`: an edit keeps a graph sound.
* `edits_matchScan`: after any edits the index gives what a scan gives.
-/

namespace StreamTopology

namespace Graph

variable {g : Graph} {x y : Handle}

/-! ### Scans -/

/-- The operators, in graph order, that own an input port whose name an output port of `x` lists. -/
def scanBelow (g : Graph) (x : Handle) : List Handle :=
  g.order.filter fun y => (g.get? x).any fun a => (g.get? y).any fun b =>
    b.inputs.any fun q => a.outputs.any fun p => p.connections.contains q.name

/-- The operators, in graph order, that own an output port whose name an input port of `y` lists. -/
def scanAbove (g : Graph) (y : Handle) : List Handle :=
  g.order.filter fun x => (g.get? y).any fun b => (g.get? x).any fun a =>
    a.outputs.any fun p => b.inputs.any fun q => q.connections.contains p.name

/-- The order names every place of the arena that holds an operator, each once, and the neighbours
by the index are those that a scan of the ports finds. -/
structure MatchesScan (g : Graph) : Prop where
  order_nodup : g.order.Nodup
  mem_order : ∀ x, x ∈ g.order ↔ ∃ op, g.slots[x.index]? = some (some op)
  children : ∀ x, g.children x = g.scanBelow x
  children_nodup : ∀ x, (g.children x).Nodup
  parents : ∀ x, g.parents x = g.scanAbove x
  parents_nodup : ∀ x, (g.parents x).Nodup

theorem get?_eq_some_iff {op : Operator} :
    g.get? x = some op ↔ g.slots[x.index]? = some (some op) := by
  rw [get?, Option.join_eq_some_iff]

/-- The scan below an operator finds what it feeds. -/
theorem mem_scanBelow (hg : g.WellFormed) : y ∈ g.scanBelow x ↔ g.Feeds x y := by
  simp only [scanBelow, List.mem_filter, Option.any_eq_true, List.any_eq_true,
    List.contains_iff_mem, hg.mem_order_iff, Feeds, Operator.feeds_iff]
  constructor
  · rintro ⟨_, a, ha, b, hb, q, hq, p, hp, hlisted⟩
    exact ⟨a, b, ha, hb, p, hp, q, hq, hlisted⟩
  · rintro ⟨a, b, ha, hb, p, hp, q, hq, hlisted⟩
    exact ⟨⟨b, hb⟩, a, ha, b, hb, q, hq, p, hp, hlisted⟩

/-- The scan above an operator finds what it reads. -/
theorem mem_scanAbove (hg : g.WellFormed) : x ∈ g.scanAbove y ↔ g.Reads y x := by
  simp only [scanAbove, List.mem_filter, Option.any_eq_true, List.any_eq_true,
    List.contains_iff_mem, hg.mem_order_iff, Reads, Operator.readsFrom_iff]
  constructor
  · rintro ⟨_, b, hb, a, ha, p, hp, q, hq, hlisted⟩
    exact ⟨a, b, ha, hb, q, hq, p, hp, hlisted⟩
  · rintro ⟨a, b, ha, hb, q, hq, p, hp, hlisted⟩
    exact ⟨⟨a, ha⟩, b, hb, a, ha, p, hp, q, hq, hlisted⟩

/-- Two selections from one list are equal if they select the same. -/
theorem filter_eq_filter_of_mem {order : List Handle} {p q : Handle → Bool}
    (h : ∀ x, x ∈ order.filter p ↔ x ∈ order.filter q) : order.filter p = order.filter q := by
  refine List.filter_congr fun x hx => ?_
  have hboth := h x
  simp only [List.mem_filter, hx, true_and] at hboth
  rwa [Bool.eq_iff_iff]

/-- The children are a selection from the order. -/
theorem children_eq_filter :
    g.children x =
      g.order.filter fun y => g.order.contains x && (g.links.targets x).contains y := by
  unfold children
  split
  next h => simp only [h, Bool.true_and]
  next h => simp only [h, Bool.false_and, List.filter_false]

/-- The parents are a selection from the order. -/
theorem parents_eq_filter :
    g.parents x = g.order.filter fun y => g.order.contains x && (g.links.origins x).contains y := by
  unfold parents
  split
  next h => simp only [h, Bool.true_and]
  next h => simp only [h, Bool.false_and, List.filter_false]

/-- **The index of a sound graph gives what a scan gives.** -/
theorem Sound.matchesScan (hg : g.Sound) : g.MatchesScan where
  order_nodup := hg.wellFormed.order_nodup
  mem_order x := by simp only [hg.wellFormed.mem_order_iff, get?_eq_some_iff]
  children x := by
    have hmem : ∀ y, y ∈ g.children x ↔ y ∈ g.scanBelow x := fun y =>
      (mem_children hg.wellFormed hg.indexed).trans (mem_scanBelow hg.wellFormed).symm
    rw [children_eq_filter] at hmem ⊢
    exact filter_eq_filter_of_mem hmem
  children_nodup _ := Graph.children_nodup hg.wellFormed
  parents x := by
    have hmem : ∀ y, y ∈ g.parents x ↔ y ∈ g.scanAbove x := fun y =>
      (mem_parents_reads hg.wellFormed hg.indexed).trans (mem_scanAbove hg.wellFormed).symm
    rw [parents_eq_filter] at hmem ⊢
    exact filter_eq_filter_of_mem hmem
  parents_nodup _ := Graph.parents_nodup hg.wellFormed

end Graph

/-! ### Histories -/

/-- An operation on a graph. -/
inductive Edit where
  | add (op : Operator)
  | insertBefore (anchor : Handle) (op : Operator)
  | remove (id : Handle)
  | removeAll (ids : List Handle)
  | interpose (parent child added : Handle)
  | interposeAbove (id added : Handle)
  /-- All passes of preparation, with these region counters. -/
  | prepare (counters : RegionCounters)
  deriving DecidableEq, Repr

/-- What the operation leaves of a graph, whether it succeeds or fails. -/
def Edit.after : Edit → Graph → Graph
  | .add op, g => (g.add op).2
  | .insertBefore anchor op, g => (g.insertBefore anchor op).2
  | .remove id, g => ((Rewiring.remove id).run.run g).2
  | .removeAll ids, g => ((Rewiring.removeAll ids).run.run g).2
  | .interpose parent child added, g => ((Rewiring.interpose parent child added).run.run g).2
  | .interposeAbove id added, g => ((Rewiring.interposeAbove id added).run.run g).2
  | .prepare counters, g => (Preparation.run.run.run { graph := g, counters := counters }).2.graph

/-- **An edit keeps a graph sound.** Nothing is asked of its handles. -/
theorem Edit.sound {g : Graph} (hg : g.Sound) (e : Edit) : (e.after g).Sound := by
  cases e with
  | add op => exact hg.add op
  | insertBefore anchor op => exact hg.insertBefore anchor op
  | remove id =>
    refine (remove_ends hg.wellFormed).after (P := Graph.Sound) ?_ fun _ _ h => h.1 ▸ hg
    rintro _ _ ⟨op, hop, rfl⟩
    exact hg.without hop
  | removeAll ids =>
    exact (removeAll_ends hg).after (P := Graph.Sound) (fun _ _ h => h) fun _ _ h => h.1
  | interpose parent child added =>
    exact (interpose_ends hg).after (P := Graph.Sound) (fun _ _ h => h.1) fun _ _ h => h.1 ▸ hg
  | interposeAbove id added =>
    exact (interposeAbove_ends hg).after (P := Graph.Sound) (fun _ _ h => h.1) fun _ _ h => h.1
  | prepare counters =>
    exact (Preparation.run_settles (w := { graph := g, counters := counters }) hg).after
      (P := fun w => w.graph.Sound) (fun _ _ h => h) fun _ _ h => h.2

/-- A history keeps a graph sound. -/
theorem edits_sound {g : Graph} (hg : g.Sound) (edits : List Edit) :
    (edits.foldl (fun g e => e.after g) g).Sound := by
  induction edits generalizing g with
  | nil => exact hg
  | cons e edits ih => exact ih (e.sound hg)

/-- **The index refines a scan of the ports.** At any point of any history of a graph that a
description gives, the order names every live place of the arena once, and the neighbours by the
index are those that a scan of the ports finds, in graph order, each once. -/
theorem edits_matchScan {d : Description} {g : Graph} (h : Graph.ofDescription d = .ok g)
    (edits : List Edit) : (edits.foldl (fun g e => e.after g) g).MatchesScan :=
  (edits_sound (.ofDescription h) edits).matchesScan

/-- A source and a sink. The stream between them is written on its source alone. -/
def oneSided : Graph := Graph.reindexed
  { name := "oneSided"
    slots := [
      some { name := "s", kind := "Beacon", outputs := [{ name := "so", connections := ["ti"] }] },
      some { name := "t", kind := "Custom", inputs := [{ name := "ti" }] }]
    order := [⟨0⟩, ⟨1⟩] }

/-- The source is taken out, an isolate gets its place, and an operator that is not there cannot be
taken out; then the graph is prepared. -/
def oneSidedHistory : List Edit :=
  [.remove ⟨0⟩,
    .add { name := "m", kind := "$Isolate$", inputs := [{ name := "mi" }]
           outputs := [{ name := "mo", connections := ["ti"] }] },
    .removeAll [⟨7⟩], .prepare {}]

theorem edits_matchScan_oneSided :
    Graph.ofDescription oneSided.toDescription = .ok oneSided ∧
      (oneSidedHistory.foldl (fun g e => e.after g) oneSided).MatchesScan :=
  ⟨by decide, edits_matchScan (d := oneSided.toDescription) (by decide) _⟩

example : oneSided.children ⟨0⟩ = [⟨1⟩] ∧ oneSided.parents ⟨1⟩ = [] := by decide

end StreamTopology
