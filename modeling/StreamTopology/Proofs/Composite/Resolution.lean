import StreamTopology.Proofs.Composite.Partition
import StreamTopology.Proofs.Composite.Renaming

/-!
# Names resolve inside a composite

A composite is emitted by itself, so every stream that one of its members reads has to be found in
it: as the stream that enters the composite, or as an output port of a member. On a well-bracketed
graph this holds for a stream of any origin, provided that a region is entered through one port and
that a port which feeds the end of a region serves no other purpose.

The origin of the stream decides where its name is found. A stream from the start of a region is
read under the name of the composite's input. One from a plain operator comes from a member of the
same composite, because such a stream keeps the stack. One from the end of a region comes out of the
invocation of that region, a member of the same composite again, because the end pops what the start
has pushed. In the last two cases the port has kept its name: only a port that feeds an end loses
it, and no member reads from such a port.

## Main definitions

* `Composite.Resolves`: the names inside a composite resolve.
* `Graph.Bordered`: streams cross the border of a region at its markers, one by one.

## Main results

* `separate_resolves`: names resolve inside every composite of a separation that succeeds.
-/

namespace StreamTopology

/-- The operator that a member is: one of the graph, or the invocation itself. -/
def Member.operator? (g : Graph) : Member → Option Operator
  | .node id => g.get? id
  | .invocation op _ => some op

/-- The name is that of an output port of a member. -/
def Composite.Emits (g : Graph) (c : Composite) (n : String) : Prop :=
  ∃ m ∈ c.members, ∃ op, m.operator? g = some op ∧ ∃ r ∈ op.outputs, r.name = n

/-- Every member is there, and each stream that it reads is the one that enters the composite or
comes from a member. -/
def Composite.Resolves (g : Graph) (c : Composite) : Prop :=
  ∀ m ∈ c.members, ∃ op, m.operator? g = some op ∧
    ∀ q ∈ op.inputs, ∀ n ∈ q.connections, c.inputName = some n ∨ c.Emits g n

namespace Graph

variable {g : Graph} {opened : List Handle} {x y : Handle} {a : Operator}

/-- Streams have an origin, all operators are reached from the sources, and regions are entered and
left one stream at a time: a start has one output port, and a port that feeds an end belongs to no
start and feeds ends only. -/
structure Bordered (g : Graph) : Prop where
  coherent : g.Coherent
  owned : ∀ q ∈ g.inputPorts, ∀ c ∈ q.connections, ∃ r ∈ g.outputPorts, r.name = c
  reachable : ∀ x, g.contains x = true → g.Reachable x
  entry : ∀ p a, g.get? p = some a → g.marker? p = some .parallel → a.outputs.length = 1
  exit : ∀ x a, g.get? x = some a → ∀ r ∈ a.outputs, g.FeedsEnd r →
    g.marker? x ≠ some .parallel ∧ ∀ c ∈ r.connections, g.EndInput c

/-- What is asked of the ports that feed ends follows if every end reads a single stream, which is
that of no start and which nothing else reads. -/
theorem Bordered.of_ends (hc : g.Coherent)
    (howned : ∀ q ∈ g.inputPorts, ∀ c ∈ q.connections, ∃ r ∈ g.outputPorts, r.name = c)
    (hreachable : ∀ x, g.contains x = true → g.Reachable x)
    (hentry : ∀ p a, g.get? p = some a → g.marker? p = some .parallel → a.outputs.length = 1)
    (hg : g.WellFormed)
    (hends : ∀ e b, g.get? e = some b → g.marker? e = some .endParallel →
      ∃ q n, b.inputs = [q] ∧ q.connections = [n] ∧
        ∀ x a, g.get? x = some a → ∀ r ∈ a.outputs, r.name = n →
          g.marker? x ≠ some .parallel ∧ ∀ c ∈ r.connections, c = q.name) : g.Bordered := by
  refine ⟨hc, howned, hreachable, hentry, fun x a ha r hr hfeeds => ?_⟩
  obtain ⟨_, hcr, e, b, hb, hkind, q', hq', rfl⟩ := hfeeds
  obtain ⟨q, n, hinputs, hreads, hproducer⟩ := hends e b hb hkind
  obtain rfl : q' = q := by rwa [hinputs, List.mem_singleton] at hq'
  have hread : r.name ∈ q'.connections :=
    (hc.agrees r ((mem_outputPorts hg).mpr ⟨x, a, ha, hr⟩) q'
      ((mem_inputPorts hg).mpr ⟨e, b, hb, hq'⟩)).mp hcr
  rw [hreads, List.mem_singleton] at hread
  obtain ⟨hstart, hall⟩ := hproducer x a ha r hr hread
  exact ⟨hstart, fun c hc => ⟨e, b, hb, hkind, q', hq', (hall c hc).symm⟩⟩

theorem Reachable.exists_op (hg : g.WellFormed) (h : g.Reachable x) : ∃ a, g.get? x = some a := by
  obtain ⟨s, hs, hsx⟩ := h
  cases hsx with
  | refl =>
    obtain ⟨a, ha, _⟩ := (mem_findAll hg).mp hs
    exact ⟨a, ha⟩
  | tail _ hfeeds =>
    obtain ⟨_, b, _, hb, _⟩ := hfeeds
    exact ⟨b, hb⟩

/-- An operator that is no end reads from no port that feeds an end. -/
theorem Bordered.not_feedsEnd (hg : g.WellFormed) (hb : g.Bordered) {b : Operator}
    {q : InputPort} {r : OutputPort} (ha : g.get? x = some a) (hq : q ∈ a.inputs)
    (hkind : g.marker? x ≠ some .endParallel) (hy : g.get? y = some b) (hr : r ∈ b.outputs)
    (hqr : q.name ∈ r.connections) : ¬ g.FeedsEnd r := by
  intro hfeeds
  obtain ⟨e, d, hd, hend, q', hq', hname⟩ := (hb.exit y b hy r hr hfeeds).2 q.name hqr
  obtain ⟨rfl, _⟩ := hb.coherent.input_owner hg hd hq' ha hq hname
  exact hkind hend

/-- What reads the stream of the start of a region reads it under the name of the region's input. -/
theorem Bordered.entered_of_parallel (hb : g.Bordered) {b : Operator} {r : OutputPort}
    (hy : g.get? y = some b) (hr : r ∈ b.outputs) (hx : x ∈ g.children y)
    (hkind : g.marker? y = some .parallel) (hopened : y ∈ opened) :
    g.entered opened x r.name = Composite.parallelInput := by
  obtain ⟨r', hr'⟩ := List.length_eq_one_iff.mp (hb.entry y b hy hkind)
  rw [hr', List.mem_singleton] at hr
  refine if_pos ⟨y, hopened, hx, ?_⟩
  rw [inlet?, hy, Option.bind_some, hr', hr]
  rfl

/-- What reads the stream of any other operator reads it under its own name. -/
theorem Bordered.entered_of_not_parallel (hg : g.WellFormed) (hb : g.Bordered) {b : Operator}
    {r : OutputPort} (hy : g.get? y = some b) (hr : r ∈ b.outputs)
    (hkind : g.marker? y ≠ some .parallel)
    (hopened : ∀ p ∈ opened, x ∈ g.children p → g.marker? p = some .parallel) :
    g.entered opened x r.name = r.name := by
  refine if_neg fun ⟨p, hp, hx, hinlet⟩ => hkind ?_
  obtain ⟨d, hd, hhead⟩ := Option.bind_eq_some_iff.mp hinlet
  obtain ⟨r', hr', hname⟩ := Option.map_eq_some_iff.mp hhead
  obtain ⟨rfl, _⟩ := hb.coherent.output_owner hg hd (List.mem_of_head? hr') hy hr hname
  exact hopened p hp hx

end Graph

namespace Separation

open StreamTopology.Graph

variable {g h : Graph} {nest : Handle → List Handle} {opened opened' : List Handle}
  {x y p : Handle} {a b : Operator} {root P : Plan} {c : Composite} {n : String} {q : InputPort}
  {r : OutputPort}

/-- An output port that feeds no end has kept its name. -/
theorem exists_output_of_keeps {rs rs' : List OutputPort} (hkeeps : List.Forall₂ g.Keeps rs rs')
    (hr : r ∈ rs) (hfeeds : ¬ g.FeedsEnd r) : ∃ r' ∈ rs', r'.name = r.name := by
  obtain ⟨r', hr', hk⟩ := exists_of_forall₂_left hkeeps hr
  exact ⟨r', hr', hk.2.resolve_left hfeeds⟩

section

variable (hg : g.WellFormed) (hi : g.Indexed) (hn : g.Nesting nest) (hb : g.Bordered)
  (hroot : g.Plans g.sources [] none root) (hmain : root.exit? = none)

include hg hi hn hb hroot hmain

/-- The stream of a plain operator comes from a member of the composite with its stack. -/
theorem emits_of_plain (hy : g.get? y = some b) (hr : r ∈ b.outputs) (hkind : g.IsPlain y)
    (hfeeds : ¬ g.FeedsEnd r) (hcomp : Composes nest root (nest y) P)
    (hnamed : Named g P c.members) (ht : Tracks g opened h) : c.Emits h r.name := by
  have hreach := hb.reachable y (contains_iff.mpr ⟨b, hy⟩)
  obtain ⟨P', hcomp', hmem⟩ := node_of_plain hg hi hn hroot hmain hreach hkind
  obtain rfl := composes_unique hg hi hn hroot hcomp hcomp'
  obtain ⟨b', hb', hfollows⟩ := ht.get? hy
  exact ⟨.node y, hnamed.node_mem hmem, b', hb', exists_output_of_keeps hfollows.2 hr hfeeds⟩

/-- The stream of the end of a region comes out of the invocation of the region. -/
theorem emits_of_end {σ : List Handle} (hy : g.get? y = some b) (hr : r ∈ b.outputs)
    (hkind : g.marker? y = some .endParallel) (hfeeds : ¬ g.FeedsEnd r)
    (hnest : nest y = p :: σ) (hcomp : Composes nest root σ P) (hnamed : Named g P c.members) :
    c.Emits h r.name := by
  have hreach := hb.reachable y (contains_iff.mpr ⟨b, hy⟩)
  obtain ⟨I, hcompI, hexit⟩ := exit_of_end hg hi hn hroot hmain hreach hkind
  rw [hnest] at hcompI
  rcases hcompI with ⟨hnil, _⟩ | ⟨p', hp', hinner⟩
  · cases hnil
  · obtain ⟨rfl, rfl⟩ := List.cons.inj hp'
    obtain ⟨R, hcompR, hregion⟩ := composes_parent hg hi hn hroot hinner
    obtain rfl := composes_unique hg hi hn hroot hcomp hcompR
    obtain ⟨op, k, hm, _, houtputs⟩ := hnamed.invocation_mem hregion
    obtain ⟨b', hb', hkeeps⟩ := houtputs y hexit
    obtain rfl := Option.some.inj (hb'.symm.trans hy)
    exact ⟨.invocation op k, hm, op, rfl, exists_output_of_keeps hkeeps hr hfeeds⟩

/-- **A stream that is read inside a composite resolves there.** `x` is an operator of the graph
with the stack of the composite, and no end; `n` is the name of the stream before the separation. -/
theorem resolves_stream (ha : g.get? x = some a) (hkind : g.marker? x ≠ some .endParallel)
    (hq : q ∈ a.inputs) (hread : n ∈ q.connections) (hcomp : Composes nest root (nest x) P)
    (hnamed : Named g P c.members)
    (hinput : nest x ≠ [] → c.inputName = some Composite.parallelInput) (ht : Tracks g opened h)
    (hopened : ∀ p, x ∈ g.children p → (p ∈ opened' ↔ g.marker? p = some .parallel)) :
    c.inputName = some (g.entered opened' x n) ∨ c.Emits h (g.entered opened' x n) := by
  have hqg : q ∈ g.inputPorts := (mem_inputPorts hg).mpr ⟨x, a, ha, hq⟩
  obtain ⟨r, hrg, rfl⟩ := hb.owned q hqg n hread
  obtain ⟨y, b, hy, hr⟩ := (mem_outputPorts hg).mp hrg
  have hqr : q.name ∈ r.connections := (hb.coherent.agrees r hrg q hqg).mpr hread
  have hyx : g.Feeds y x := ⟨b, a, hy, ha, Operator.feeds_iff.mpr ⟨r, hr, q, hq, hqr⟩⟩
  have hchild : x ∈ g.children y := (mem_children hg hi).mpr hyx
  have hfeeds : ¬ g.FeedsEnd r := hb.not_feedsEnd hg ha hq hkind hy hr hqr
  by_cases hopen : g.marker? y = some .parallel
  · rw [hb.entered_of_parallel hy hr hchild hopen ((hopened y hchild).mpr hopen)]
    refine Or.inl (hinput ?_)
    rw [hn.opens y x hopen hyx]
    exact List.cons_ne_nil _ _
  · rw [hb.entered_of_not_parallel hg hy hr hopen fun p hp hx => (hopened p hx).mp hp]
    refine Or.inr ?_
    by_cases hclose : g.marker? y = some .endParallel
    · obtain ⟨p, hp⟩ := hn.closes y x hclose hyx
      exact emits_of_end hg hi hn hb hroot hmain hy hr hclose hfeeds hp hcomp hnamed
    · rw [hn.keeps y x ⟨hopen, hclose⟩ hyx] at hcomp
      exact emits_of_plain hg hi hn hb hroot hmain hy hr ⟨hopen, hclose⟩ hfeeds hcomp hnamed ht

/-- **Names resolve in a named composite.** -/
theorem resolves_of_named {σ : List Handle} (hcomp : Composes nest root σ P)
    (hnamed : Named g P c.members)
    (hinput : σ ≠ [] → c.inputName = some Composite.parallelInput) (ht : Tracks g opened h)
    (hall : ∀ p I, (p, I) ∈ root.inner → p ∈ opened) : c.Resolves h := by
  have hplaced := placed_of_composes hg hi hn hroot hcomp
  intro m hm
  rcases hnamed.mem_cases hm with ⟨x, hx, rfl⟩ | ⟨p, I, op, k, hp, rfl, hstands⟩
  · obtain ⟨hkind, rfl, hreach⟩ := hplaced.of_node hx
    obtain ⟨a, ha⟩ := hreach.exists_op hg
    obtain ⟨b, hb', hfollows⟩ := ht.get? ha
    refine ⟨b, hb', fun q' hq' n hn' => ?_⟩
    rw [hfollows.1, List.mem_map] at hq'
    obtain ⟨q, hq, rfl⟩ := hq'
    obtain ⟨n, hread, rfl⟩ := List.mem_map.mp hn'
    refine resolves_stream hg hi hn hb hroot hmain ha hkind.2 hq hread hcomp hnamed hinput ht
      fun p hp => ⟨ht.markers p, fun hopen => ?_⟩
    obtain ⟨d, _, hd, _⟩ := (mem_children hg hi).mp hp
    have hp := hb.reachable p (contains_iff.mpr ⟨d, hd⟩)
    obtain ⟨_, I, _, _, hinner⟩ := region_of_parallel hg hi hn hroot hmain hp hopen
    exact hall p I hinner
  · obtain ⟨hkind, rfl, _⟩ := (hplaced.of_region hp).1
    obtain ⟨a, opened', ha, hopened', hin⟩ := hstands.1
    refine ⟨op, rfl, fun q' hq' n hn' => ?_⟩
    rw [hin, List.mem_map] at hq'
    obtain ⟨q, hq, rfl⟩ := hq'
    obtain ⟨n, hread, rfl⟩ := List.mem_map.mp hn'
    exact resolves_stream hg hi hn hb hroot hmain ha (by rw [hkind]; simp) hq hread hcomp hnamed
      hinput ht hopened'

end

end Separation

open StreamTopology.Graph Separation

/-- **Names resolve.** If the markers of a graph are well bracketed and streams cross the border of
a region at its markers only, one by one, then after a separation that succeeds every stream that a
member of a composite reads is the one that enters the composite or comes from an output port of a
member of the same composite. -/
theorem separate_resolves {g : Graph} {nest : Handle → List Handle} {values : SubmissionValues}
    {count : Nat} {cs : List Composite} {s' : Separation} (hg : g.WellFormed) (hi : g.Indexed)
    (hn : g.Nesting nest) (hb : g.Bordered)
    (hrun : Yields (separate values) { graph := g, count := count } cs s') :
    ∀ c ∈ cs, c.Resolves s'.graph := by
  obtain ⟨root, ms, s₁, k, hplan, hexit, hfill, hfinish, rfl⟩ := yields_separate.mp hrun
  have hroot : g.Plans g.sources [] none root := plans_of_planFrom hplan
  have hstart : ∀ p a, g.marker? p = some .parallel → g.get? p = some a →
      ∀ r ∈ a.outputs, ¬ g.FeedsEnd r :=
    fun p a hkind ha r hr hfeeds => (hb.exit p a ha r hr hfeeds).1 hkind
  obtain ⟨opened, _, hall, ht, hnamed, new, hnew, hinner⟩ := fill_named hg hi hn hstart hfill
    (placed_root hg hi hn hroot) (.refl g) fun q hq => absurd hq (Option.not_mem_none q)
  obtain ⟨_, hgraph, ps, hcomp⟩ := finish_appends hfinish
  rw [hnew, List.nil_append] at hcomp
  rw [hcomp, hgraph]
  intro c hc
  rcases List.mem_append.mp hc with hc | hc
  · obtain ⟨⟨p, I⟩, hI, hmembers, hinput⟩ := exists_of_forall₂_left hinner.flip hc
    exact resolves_of_named hg hi hn hb hroot hexit (Or.inr ⟨p, rfl, hI⟩) hmembers
      (fun _ => hinput) ht hall
  · obtain rfl := List.mem_singleton.mp hc
    exact resolves_of_named hg hi hn hb hroot hexit (Or.inl ⟨rfl, rfl⟩) hnamed
      (fun h => absurd rfl h) ht hall

/-- Two regions that start one right after the other and end one right after the other. -/
def adjacentRegions : Graph := Graph.reindexed
  { name := "adjacentRegions"
    slots := [
      some { name := "src", kind := "Src"
             outputs := [{ name := "so", connections := ["pi"] }] },
      some { name := "p", kind := "$Parallel$"
             inputs := [{ name := "pi", connections := ["so"] }]
             outputs := [{ name := "po", connections := ["qi"], width := some (.fixed 2) }] },
      some { name := "q", kind := "$Parallel$"
             inputs := [{ name := "qi", connections := ["po"] }]
             outputs := [{ name := "qo", connections := ["bi"], width := some (.fixed 3) }] },
      some { name := "b", kind := "B"
             inputs := [{ name := "bi", connections := ["qo"] }]
             outputs := [{ name := "bo", connections := ["fi"] }] },
      some { name := "f", kind := "$EndParallel$"
             inputs := [{ name := "fi", connections := ["bo"] }]
             outputs := [{ name := "fo", connections := ["ei"] }] },
      some { name := "e", kind := "$EndParallel$"
             inputs := [{ name := "ei", connections := ["fo"] }]
             outputs := [{ name := "eo", connections := ["zi"] }] },
      some { name := "snk", kind := "Snk"
             inputs := [{ name := "zi", connections := ["eo"] }] }]
    order := (List.range 7).map Handle.mk }

/-- The stacks of markers in that graph. -/
def adjacentStack (x : Handle) : List Handle :=
  match x.index with
  | 2 | 5 => [⟨1⟩]
  | 3 | 4 => [⟨2⟩, ⟨1⟩]
  | _ => []

theorem adjacentRegions_ofDescription :
    Graph.ofDescription adjacentRegions.toDescription = .ok adjacentRegions := by decide

theorem adjacentRegions_nesting : adjacentRegions.Nesting adjacentStack :=
  .of_streams (.ofDescription adjacentRegions_ofDescription)
    (.ofDescription adjacentRegions_ofDescription) (by decide) (by decide)
    (by decide)

theorem adjacentRegions_bordered : adjacentRegions.Bordered := by
  have hg : adjacentRegions.WellFormed := .ofDescription adjacentRegions_ofDescription
  have hi : adjacentRegions.Indexed := .ofDescription adjacentRegions_ofDescription
  refine .of_ends (by decide) (by decide) ?_ (fun p a ha hkind => ?_) hg fun e b hb hkind => ?_
  · exact reachable_of_parents hg hi (by decide)
  · have hall : ∀ e ∈ adjacentRegions.entries, adjacentRegions.marker? e.1 = some .parallel →
        e.2.outputs.length = 1 := by decide
    exact hall (p, a) ((mem_entries hg).mpr ha) hkind
  · have hall : ∀ e ∈ adjacentRegions.entries, adjacentRegions.marker? e.1 = some .endParallel →
        ∃ q ∈ e.2.inputs, ∃ n ∈ q.connections, e.2.inputs = [q] ∧ q.connections = [n] ∧
          ∀ d ∈ adjacentRegions.entries, ∀ r ∈ d.2.outputs, r.name = n →
            adjacentRegions.marker? d.1 ≠ some .parallel ∧ ∀ c ∈ r.connections, c = q.name := by
      decide
    obtain ⟨q, _, n, _, hin, hread, hproducer⟩ := hall (e, b) ((mem_entries hg).mpr hb) hkind
    exact ⟨q, n, hin, hread, fun x a ha => hproducer (x, a) ((mem_entries hg).mpr ha)⟩

theorem separate_resolves_adjacentRegions :
    adjacentRegions.WellFormed ∧ adjacentRegions.Indexed ∧ adjacentRegions.Nesting adjacentStack ∧
      adjacentRegions.Bordered ∧
      ∃ cs s', Yields (separate {}) { graph := adjacentRegions, count := 0 } cs s' ∧
        ∀ c ∈ cs, c.Resolves s'.graph := by
  have hg : adjacentRegions.WellFormed := .ofDescription adjacentRegions_ofDescription
  have hi : adjacentRegions.Indexed := .ofDescription adjacentRegions_ofDescription
  have hplan : adjacentRegions.plan = .ok (.node ⟨0⟩ (.region ⟨1⟩
      (.region ⟨2⟩ (.node ⟨3⟩ (.done (some ⟨4⟩))) (.done (some ⟨5⟩))) (.node ⟨6⟩ (.done none)))) :=
    planFrom_of_within (n := 12) (by decide)
  obtain ⟨cs, s', hrun⟩ :
      ∃ cs s', Yields (separate {}) { graph := adjacentRegions, count := 0 } cs s' :=
    exists_separate hplan rfl (by decide +kernel)
  exact ⟨hg, hi, adjacentRegions_nesting, adjacentRegions_bordered, cs, s', hrun,
    separate_resolves hg hi adjacentRegions_nesting adjacentRegions_bordered hrun⟩

end StreamTopology
