import StreamTopology.Proofs.Composite.Partition
import StreamTopology.Proofs.Composite.Stacks

/-!
# Which operators are emitted, and how often

The composites of a separation have the members of the composites of its plan, so an operator is
emitted once for each stack of open regions with which it is visited. Both ways in which this can go
wrong are questions about visits. An operator is lost if it is not visited at all, which takes a
region with two ends: the separation goes on behind one of them only. It is emitted twice if it is
visited with two stacks, which takes a stream that enters or leaves a region past its markers.

`twoExits` and `sideEntry` are graphs on which that happens.

## Main definitions

* `Graph.Descends`: there is a chain of children from a source.
* `Graph.SoleEnds`: no region has two ends.

## Main results

* `separate_reaches_all`: if no region has two ends, nothing is lost.
* `separate_disjoint_iff`: nothing is a member twice in one composite, and nothing is a member of
  two composites exactly when there are no two stacks for it.
-/

namespace StreamTopology

open Relation

/-! ### The composites of a run -/

/-- The operator of the graph that the member is. -/
def Member.node? : Member → Option Handle
  | .node id => some id
  | .invocation _ _ => none

theorem Composite.nodes_eq (c : Composite) : c.nodes = c.members.filterMap Member.node? := by
  refine congrFun (congrArg List.filterMap (funext fun m => ?_)) _
  cases m <;> rfl

namespace Separation

open StreamTopology.Graph

variable {g : Graph} {values : SubmissionValues} {count : Nat} {P : Plan} {s s' : Separation}
  {ms ms' : List Member} {cs : List Composite} {x : Handle} {σ τ : List Handle}

/-- Completing a composite keeps the operators that are its members. -/
theorem nodes_of_opening (h : ms'.map Member.opening = ms.map Member.opening) :
    ms'.filterMap Member.node? = ms.filterMap Member.node? := by
  have hopening : ∀ ms : List Member,
      (ms.map Member.opening).filterMap Member.node? = ms.filterMap Member.node? := by
    intro ms
    rw [List.filterMap_map]
    refine congrFun (congrArg List.filterMap (funext fun m => ?_)) _
    cases m <;> rfl
  rw [← hopening ms', h, hopening]

/-- **Filling a plan, the operators.** Those of the composite itself and of all composites that are
finished on the way. -/
theorem fill_nodes (h : Yields (fill values P) s ms s') :
    ms.filterMap Member.node? = P.nodes ∧ ∃ new, s'.composites = s.composites ++ new ∧
      new.map Composite.nodes = P.inner.map fun r => r.2.nodes := by
  induction P generalizing s s' ms with
  | done exit =>
    obtain ⟨rfl, rfl⟩ := yields_pure.mp h
    exact ⟨rfl, [], (List.append_nil _).symm, rfl⟩
  | node x rest ih =>
    simp only [fill, yields_bind, yields_pure] at h
    obtain ⟨ms', t, hrest, rfl, rfl⟩ := h
    obtain ⟨hnodes, hnew⟩ := ih hrest
    exact ⟨congrArg (x :: ·) hnodes, hnew⟩
  | region p inside rest ihInside ihRest =>
    simp only [fill, yields_bind, yields_pure] at h
    obtain ⟨⟨number, inv⟩, t₁, hopen, members, t₂, hinside, k, t₃, hfinish, op, t₄, hclose, others,
      t₅, hrest, rfl, rfl⟩ := h
    obtain ⟨_, hcompOpen, _⟩ := openRegion_opens hopen
    obtain ⟨hmembers, new₁, hcomp₂, hnodes₁⟩ := ihInside hinside
    obtain ⟨rfl, _, ps, hcomp₃⟩ := finish_appends hfinish
    obtain ⟨_, hcompleted, _⟩ := closeRegion_completes hclose
    rw [hcomp₃] at hcompleted
    obtain ⟨c, hcomp₄, hopening, _⟩ := hcompleted.snoc
    obtain ⟨hothers, new₂, hcomp₅, hnodes₂⟩ := ihRest hrest
    have hc : c.nodes = inside.nodes := by
      rw [Composite.nodes_eq, nodes_of_opening hopening, hmembers]
    refine ⟨hothers, new₁ ++ c :: new₂, ?_, ?_⟩
    · rw [hcomp₅, hcomp₄, hcomp₂, hcompOpen]
      simp
    · rw [List.map_append, List.map_cons, hnodes₁, hnodes₂, hc, Plan.inner, List.map_append,
        List.map_cons]

/-- **The operators of all composites** of a separation are those of the composites of its plan. -/
theorem separate_nodes (hrun : Yields (separate values) { graph := g, count := count } cs s') :
    ∃ root, g.plan = .ok root ∧ root.exit? = none ∧
      cs.map Composite.nodes = root.composites.map fun c => c.2.nodes := by
  obtain ⟨root, ms, s₁, k, hplan, hexit, hfill, hfinish, rfl⟩ := yields_separate.mp hrun
  obtain ⟨hnodes, new, hnew, hinner⟩ := fill_nodes hfill
  obtain ⟨_, _, ps, hcomp⟩ := finish_appends hfinish
  refine ⟨root, hplan, hexit, ?_⟩
  have hmain : ∀ ps, Composite.nodes { mainComposite g ms with parameters := ps } = root.nodes :=
    fun ps => (Composite.nodes_eq _).trans hnodes
  have hstacked : (Plan.stacked [] root).map (fun c => c.2.nodes) =
      root.inner.map fun r => r.2.nodes := by
    have := congrArg (List.map Plan.nodes) (Plan.map_snd_stacked (σ := []) (P := root))
    rwa [List.map_map, List.map_map] at this
  rw [hcomp, hnew, List.nil_append, List.map_append, hinner, Plan.composites, List.map_append,
    hstacked, List.map_singleton, List.map_singleton, hmain]

/-- A plan that can be filled gives the operators of all composites. -/
theorem exists_separate_nodes (count : Nat) (hplan : g.plan = .ok P) (hexit : P.exit? = none)
    (hfills : ((fill {} P).run.run { graph := g, count := count }).1.isOk = true) :
    ∃ cs s', Yields (separate {}) { graph := g, count := count } cs s' ∧
      cs.map Composite.nodes = P.composites.map fun c => c.2.nodes := by
  obtain ⟨cs, s', hrun⟩ := exists_separate hplan hexit hfills
  obtain ⟨root, hroot, _, hnodes⟩ := separate_nodes hrun
  obtain rfl := Except.ok.inj (hroot.symm.trans hplan)
  exact ⟨cs, s', hrun, hnodes⟩

/-- **Members are reached.** There is a chain of streams from a source to every operator that is a
member of a composite. -/
theorem separate_reached (hg : g.WellFormed) (hi : g.Indexed)
    (hrun : Yields (separate values) { graph := g, count := count } cs s') :
    ∀ c ∈ cs, ∀ x ∈ c.nodes, g.Reachable x := by
  obtain ⟨root, hplan, _, hnodes⟩ := separate_nodes hrun
  have hall : root.All g.Reachable := (plans_of_planFrom hplan).all
    (fun _ hx _ hy => hx.next ((mem_children hg hi).mp hy)) (fun s hs => ⟨s, hs, .refl⟩)
    fun _ h => by cases h
  intro c hc x hx
  have hmem : c.nodes ∈ root.composites.map fun d => d.2.nodes := hnodes ▸ List.mem_map_of_mem hc
  obtain ⟨⟨σ, P⟩, hP, heq⟩ := List.mem_map.mp hmem
  exact (hall.composite hP).node (heq ▸ hx)

/-- An operator is emitted exactly if it is visited. -/
theorem mem_composite_iff (hrun : Yields (separate values) { graph := g, count := count } cs s')
    (hkind : g.IsPlain x) : (∃ c ∈ cs, x ∈ c.nodes) ↔ ∃ σ, g.Visits σ x := by
  obtain ⟨root, hplan, _, hnodes⟩ := separate_nodes hrun
  have hroot : g.Plans g.sources [] none root := plans_of_planFrom hplan
  have hmap : (∃ c ∈ cs, x ∈ c.nodes) ↔ ∃ c ∈ root.composites, x ∈ c.2.nodes := by
    have hmem : ∀ ns, ns ∈ cs.map Composite.nodes ↔ ns ∈ root.composites.map fun c => c.2.nodes :=
      fun ns => by rw [hnodes]
    simp only [List.mem_map] at hmem
    constructor
    · rintro ⟨c, hc, hx⟩
      obtain ⟨d, hd, heq⟩ := (hmem c.nodes).mp ⟨c, hc, rfl⟩
      exact ⟨d, hd, heq ▸ hx⟩
    · rintro ⟨d, hd, hx⟩
      obtain ⟨c, hc, heq⟩ := (hmem d.2.nodes).mpr ⟨d, hd, rfl⟩
      exact ⟨c, hc, heq ▸ hx⟩
  rw [hmap]
  constructor
  · rintro ⟨⟨σ, P⟩, hP, hx⟩
    exact ⟨σ, ((mem_nodes_iff hroot hP).mp hx).2⟩
  · rintro ⟨σ, hvisit⟩
    obtain ⟨P, hP, _⟩ := hvisit.met hroot
    exact ⟨(σ, P), hP, (mem_nodes_iff hroot hP).mpr ⟨hkind, hvisit⟩⟩

end Separation

/-! ### Nothing lost -/

namespace Graph

variable {g : Graph} {nest : Handle → List Handle} {σ : List Handle} {x : Handle}

/-- There is a chain of children, by the index, from a source to the operator. -/
def Descends (g : Graph) (x : Handle) : Prop :=
  ∃ s ∈ g.sources, ReflTransGen (fun a b => b ∈ g.children a) s x

/-- No region has two ends. -/
def SoleEnds (g : Graph) : Prop :=
  ∀ p σ e e', g.Visits (p :: σ) e → g.Visits (p :: σ) e' → g.marker? e = some .endParallel →
    g.marker? e' = some .endParallel → e = e'

/-- On a graph whose markers are well bracketed, an operator is visited with its own stack only. -/
theorem Visits.nested (hg : g.WellFormed) (hi : g.Indexed) (hn : g.Nesting nest)
    (h : g.Visits σ x) : nest x = σ ∧ g.Reachable x := by
  induction h with
  | source hs => exact ⟨hn.source _ hs, _, hs, .refl⟩
  | @next σ x y _ hkind hy ih =>
    have hfeeds := (mem_children hg hi).mp hy
    exact ⟨(hn.keeps x y hkind hfeeds).trans ih.1, ih.2.next hfeeds⟩
  | @inside σ p y _ hkind hy ih =>
    have hfeeds := (mem_children hg hi).mp hy
    exact ⟨(hn.opens p y hkind hfeeds).trans (by rw [ih.1]), ih.2.next hfeeds⟩
  | @behind σ p e y _ hkind hleft hy ih =>
    obtain ⟨I, hplans, he⟩ := hleft
    have hplaced : g.Placed nest (p :: σ) I := by
      refine hplans.placed hg hi hn (fun z hz => ?_) fun e he => by cases he
      have hfeeds := (mem_children hg hi).mp hz
      exact ⟨(hn.opens p z hkind hfeeds).trans (by rw [ih.1]), ih.2.next hfeeds⟩
    obtain ⟨hend, hnest, hreach⟩ := hplaced.of_exit he
    have hfeeds := (mem_children hg hi).mp hy
    obtain ⟨q, hq⟩ := hn.closes e y hend hfeeds
    rw [hnest] at hq
    exact ⟨(List.cons.inj hq).2.symm, hreach.next hfeeds⟩

theorem Nesting.soleEnds (hg : g.WellFormed) (hi : g.Indexed) (hn : g.Nesting nest) :
    g.SoleEnds :=
  fun _ _ _ _ he he' hend hend' =>
    hn.ends _ _ _ _ _ hend hend' (he.nested hg hi hn).1 (he'.nested hg hi hn).1

/-- If no region has two ends, and no end is met outside all regions, then whatever a chain of
children leads to is visited. -/
theorem SoleEnds.visits {root : Plan} (hsole : g.SoleEnds)
    (hroot : g.Plans g.sources [] none root) (hexit : root.exit? = none) (h : g.Descends x) :
    ∃ σ, g.Visits σ x := by
  obtain ⟨s, hs, hsx⟩ := h
  induction hsx with
  | refl => exact ⟨[], .source hs⟩
  | @tail x y _ hy ih =>
    obtain ⟨σ, hx⟩ := ih
    by_cases hopen : g.marker? x = some .parallel
    · exact ⟨x :: σ, .inside hx hopen hy⟩
    by_cases hclose : g.marker? x = some .endParallel
    · obtain ⟨P, hP, _⟩ := hx.met hroot
      obtain ⟨e, he, hend, hvisit⟩ := exit_of_visits hroot hP hclose hx
      rcases σ with _ | ⟨p, σ⟩
      · have hmain : ([], root) ∈ root.composites := List.mem_append_right _ List.mem_cons_self
        rw [composites_unique hroot hP hmain, hexit] at he
        cases he
      · obtain rfl := hsole p σ x e hx hvisit hclose hend
        obtain ⟨hp, hkind⟩ := hx.opened
        exact ⟨σ, .behind hp hkind ⟨P, plans_of_mem_composites_cons hroot hP, he⟩ hy⟩
    · exact ⟨σ, .next hx ⟨hopen, hclose⟩ hy⟩

end Graph

open StreamTopology.Graph Separation

variable {g : Graph} {values : SubmissionValues} {count : Nat} {cs : List Composite}
  {s' : Separation}

/-- **Nothing is lost where regions have one end.** If a separation succeeds and no region has two
ends, then every operator below a source that is no marker of a region is a member of a
composite. -/
theorem separate_reaches_all (hsole : g.SoleEnds)
    (hrun : Yields (separate values) { graph := g, count := count } cs s') :
    ∀ x, g.Descends x → g.IsPlain x → ∃ c ∈ cs, x ∈ c.nodes := by
  intro x hdesc hkind
  obtain ⟨root, hplan, hexit, _⟩ := separate_nodes hrun
  exact (mem_composite_iff hrun hkind).mpr (hsole.visits (plans_of_planFrom hplan) hexit hdesc)

theorem separate_reaches_all_nestedRegions :
    nestedRegions.SoleEnds ∧ ∃ cs s',
      Yields (separate {}) { graph := nestedRegions, count := 0 } cs s' ∧
      ∀ x, nestedRegions.Descends x → nestedRegions.IsPlain x → ∃ c ∈ cs, x ∈ c.nodes := by
  have hsole := nestedRegions_nesting.soleEnds nestedRegions_wellFormed nestedRegions_indexed
  obtain ⟨cs, s', hrun⟩ := nestedRegions_separate
  exact ⟨hsole, cs, s', hrun, separate_reaches_all hsole hrun⟩

/-- A region with two ends and an operator behind each of them. -/
def twoExits : Graph := Graph.reindexed
  { name := "twoExits"
    slots := [
      some { name := "s", kind := "Beacon"
             outputs := [{ name := "so", connections := ["pi"] }] },
      some { name := "p", kind := "$Parallel$"
             inputs := [{ name := "pi", connections := ["so"] }]
             outputs := [{ name := "po", connections := ["ai", "bi"], width := some (.fixed 2) }] },
      some { name := "a", kind := "Custom"
             inputs := [{ name := "ai", connections := ["po"] }]
             outputs := [{ name := "ao", connections := ["ei"] }] },
      some { name := "b", kind := "Custom"
             inputs := [{ name := "bi", connections := ["po"] }]
             outputs := [{ name := "bo", connections := ["fi"] }] },
      some { name := "e", kind := "$EndParallel$"
             inputs := [{ name := "ei", connections := ["ao"] }]
             outputs := [{ name := "eo", connections := ["xi"] }] },
      some { name := "f", kind := "$EndParallel$"
             inputs := [{ name := "fi", connections := ["bo"] }]
             outputs := [{ name := "fo", connections := ["yi"] }] },
      some { name := "x", kind := "Custom"
             inputs := [{ name := "xi", connections := ["eo"] }] },
      some { name := "y", kind := "Custom"
             inputs := [{ name := "yi", connections := ["fo"] }] }]
    order := (List.range 8).map Handle.mk }

/-- Behind the end that was met first nothing is visited: the region counts as left by the other. -/
theorem twoExits_loses :
    twoExits.WellFormed ∧ twoExits.Indexed ∧ twoExits.Wired ∧
      twoExits.Descends ⟨6⟩ ∧ twoExits.IsPlain ⟨6⟩ ∧
      ∃ cs s', Yields (separate {}) { graph := twoExits, count := 0 } cs s' ∧
        ∀ c ∈ cs, ⟨6⟩ ∉ c.nodes := by
  have hof : Graph.ofDescription twoExits.toDescription = .ok twoExits := by decide
  have hplan : twoExits.plan = .ok (.node ⟨0⟩ (.region ⟨1⟩
      (.node ⟨2⟩ (.node ⟨3⟩ (.done (some ⟨5⟩)))) (.node ⟨7⟩ (.done none)))) :=
    planFrom_of_within (n := 12) (by decide)
  obtain ⟨cs, s', hrun, hnodes⟩ := exists_separate_nodes 0 hplan rfl (by decide)
  refine ⟨WellFormed.ofDescription hof, Indexed.ofDescription hof, by decide, ?_,
    ⟨by decide, by decide⟩, cs, s', hrun, fun c hc hx => ?_⟩
  · refine ⟨⟨0⟩, by decide, ?_⟩
    have hsteps : (⟨1⟩ : Handle) ∈ twoExits.children ⟨0⟩ ∧ ⟨2⟩ ∈ twoExits.children ⟨1⟩ ∧
        ⟨4⟩ ∈ twoExits.children ⟨2⟩ ∧ ⟨6⟩ ∈ twoExits.children ⟨4⟩ := by decide
    exact .tail (.tail (.tail (.single hsteps.1) hsteps.2.1) hsteps.2.2.1) hsteps.2.2.2
  · have hmem : c.nodes ∈ cs.map Composite.nodes := List.mem_map_of_mem hc
    rw [hnodes] at hmem
    have hall : ∀ ns ∈ ([[⟨2⟩, ⟨3⟩], [⟨0⟩, ⟨7⟩]] : List (List Handle)), ⟨6⟩ ∉ ns := by decide
    exact hall _ hmem hx

/-! ### Nothing twice -/

/-- **What is emitted twice.** If a separation succeeds, then no composite has an operator twice,
and two composites share no operator exactly if no operator is visited with two stacks of open
regions. -/
theorem separate_disjoint_iff
    (hrun : Yields (separate values) { graph := g, count := count } cs s') :
    (∀ c ∈ cs, c.nodes.Nodup) ∧
      (cs.Pairwise (fun c d => c.nodes.Disjoint d.nodes) ↔
        ∀ x σ τ, g.IsPlain x → g.Visits σ x → g.Visits τ x → σ = τ) := by
  obtain ⟨root, hplan, _, hnodes⟩ := separate_nodes hrun
  have hroot : g.Plans g.sources [] none root := plans_of_planFrom hplan
  have hdistinct := hroot.distinct.1
  refine ⟨fun c hc => ?_, ?_⟩
  · have hmem : c.nodes ∈ cs.map Composite.nodes := List.mem_map_of_mem hc
    rw [hnodes] at hmem
    obtain ⟨⟨σ, P⟩, hP, heq⟩ := List.mem_map.mp hmem
    rw [← heq]
    exact (hdistinct.of_composites hP).nodes_nodup
  · rw [← List.pairwise_map (f := Composite.nodes) (R := List.Disjoint), hnodes, List.pairwise_map]
    constructor
    · intro hpair x σ τ hkind hσ hτ
      obtain ⟨P, hP, _⟩ := hσ.met hroot
      obtain ⟨Q, hQ, _⟩ := hτ.met hroot
      by_contra hne
      have : Std.Symm fun c d : List Handle × Plan => c.2.nodes.Disjoint d.2.nodes :=
        ⟨fun _ _ h x hx hx' => h hx' hx⟩
      have hdisj := hpair.forall hP hQ fun h => hne (Prod.mk.inj h).1
      exact hdisj ((mem_nodes_iff hroot hP).mpr ⟨hkind, hσ⟩)
        ((mem_nodes_iff hroot hQ).mpr ⟨hkind, hτ⟩)
    · intro hvisits
      refine (List.pairwise_map.mp hdistinct.composites_nodup).imp_of_mem fun {c d} hc hd hne => ?_
      intro x hx hx'
      obtain ⟨hkind, hσ⟩ := (mem_nodes_iff hroot hc).mp hx
      obtain ⟨_, hτ⟩ := (mem_nodes_iff hroot hd).mp hx'
      exact hne (hvisits x _ _ hkind hσ hτ)

theorem separate_disjoint_iff_nestedRegions :
    ∃ cs s', Yields (separate {}) { graph := nestedRegions, count := 0 } cs s' ∧
      (∀ c ∈ cs, c.nodes.Nodup) ∧ cs.Pairwise (fun c d => c.nodes.Disjoint d.nodes) := by
  obtain ⟨cs, s', hrun⟩ := nestedRegions_separate
  obtain ⟨hnodup, hiff⟩ := separate_disjoint_iff hrun
  refine ⟨cs, s', hrun, hnodup, hiff.mpr fun x σ τ _ hσ hτ => ?_⟩
  have hnested {σ : List Handle} (h : nestedRegions.Visits σ x) : nestedStack x = σ :=
    (h.nested nestedRegions_wellFormed nestedRegions_indexed nestedRegions_nesting).1
  exact (hnested hσ).symm.trans (hnested hτ)

/-- A region whose only operator also reads the source directly. -/
def sideEntry : Graph := Graph.reindexed
  { name := "sideEntry"
    slots := [
      some { name := "s", kind := "Beacon"
             outputs := [{ name := "so", connections := ["pi", "ai"] }] },
      some { name := "p", kind := "$Parallel$"
             inputs := [{ name := "pi", connections := ["so"] }]
             outputs := [{ name := "po", connections := ["ai"], width := some (.fixed 2) }] },
      some { name := "a", kind := "Custom"
             inputs := [{ name := "ai", connections := ["po", "so"] }] }]
    order := (List.range 3).map Handle.mk }

/-- The operator is visited inside the region and outside. -/
theorem sideEntry_repeats :
    sideEntry.WellFormed ∧ sideEntry.Indexed ∧ sideEntry.Wired ∧
      ∃ cs s', Yields (separate {}) { graph := sideEntry, count := 0 } cs s' ∧
        ¬ cs.Pairwise (fun c d => c.nodes.Disjoint d.nodes) := by
  have hof : Graph.ofDescription sideEntry.toDescription = .ok sideEntry := by decide
  have hplan : sideEntry.plan = .ok
      (.node ⟨0⟩ (.region ⟨1⟩ (.node ⟨2⟩ (.done none)) (.node ⟨2⟩ (.done none)))) :=
    planFrom_of_within (n := 12) (by decide)
  obtain ⟨cs, s', hrun, hnodes⟩ := exists_separate_nodes 0 hplan rfl (by decide)
  refine ⟨WellFormed.ofDescription hof, Indexed.ofDescription hof, by decide, cs, s', hrun,
    fun h => ?_⟩
  rw [← List.pairwise_map (f := Composite.nodes) (R := List.Disjoint), hnodes] at h
  have htwo : ([[⟨2⟩], [⟨0⟩, ⟨2⟩]] : List (List Handle)).Pairwise List.Disjoint := h
  have hdisj := List.rel_of_pairwise_cons htwo List.mem_cons_self
  exact hdisj List.mem_cons_self (List.mem_cons_of_mem _ List.mem_cons_self)

end StreamTopology
