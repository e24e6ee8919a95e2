import StreamTopology.Proofs.Composite.Separation

/-!
# Separation is a partition

On a graph whose markers are well bracketed, every operator that is reached from a source ends up in
exactly one composite, and its stack of markers says in which: one starts at the main composite and
follows the invocation of the outermost marker, and so on inwards.

The plan says which operators belong together and the run says that the composites are the plans.
What is left is to see that the stack of an operator determines the position of its composite, and
that is so because no region is planned twice.

## Main definitions

* `Composite.invocations`: the invocations of a composite by another.
* `Separation.place`: the position of the composite with a given stack.
* `Separation.Partitions`: what it means that composites are a partition of a graph.

## Main results

* `separate_partitions`: a separation that succeeds is a partition.
-/

namespace StreamTopology

/-- The members of a composite that invoke the one at a position. -/
def Composite.invocations (c : Composite) (k : Nat) : List Operator :=
  c.members.filterMap fun m =>
    match m with
    | .node _ => none
    | .invocation op k' => if k' = k then some op else none

namespace Separation

open StreamTopology.Graph

/-- The position of the composite with a given stack: the main one is the last, and any other one is
that of the innermost marker. -/
def place (cs : List Composite) (home : Handle → Nat) : List Handle → Nat
  | [] => cs.length - 1
  | p :: _ => home p

/-- The composites are a partition of what is reached from the sources, `home` gives the position of
the composite of each region. -/
structure Partitions (g : Graph) (nest : Handle → List Handle) (cs : List Composite)
    (home : Handle → Nat) : Prop where
  /-- The main composite is the last one, and there are no others. -/
  main : ∀ i c, cs[i]? = some c → (c.isMain = true ↔ i + 1 = cs.length)
  nonempty : cs ≠ []
  /-- Every other composite is that of one region. -/
  homes : ∀ i, i + 1 < cs.length ↔
    ∃ p, g.Reachable p ∧ g.marker? p = some .parallel ∧ home p = i
  home_inj : ∀ p q, g.Reachable p → g.marker? p = some .parallel → g.Reachable q →
    g.marker? q = some .parallel → home p = home q → p = q
  /-- Below the innermost marker of a stack is the stack of that marker. -/
  stack : ∀ x p σ, g.Reachable x → nest x = p :: σ →
    g.Reachable p ∧ g.marker? p = some .parallel ∧ nest p = σ
  /-- An operator is a member once, where its stack says, and nowhere else. -/
  nodes : ∀ x, g.Reachable x → g.IsPlain x → ∀ i c, cs[i]? = some c →
    c.nodes.count x = if i = place cs home (nest x) then 1 else 0
  /-- A region is invoked once, where the stack of its marker says, and nowhere else. -/
  regions : ∀ p, g.Reachable p → g.marker? p = some .parallel → ∀ i c, cs[i]? = some c →
    (c.invocations (home p)).length = if i = place cs home (nest p) then 1 else 0
  /-- The invocation of a region is the one that its marker calls for. -/
  invokes : ∀ p, g.Reachable p → g.marker? p = some .parallel → ∀ c ∈ cs,
    ∀ op ∈ c.invocations (home p), Invokes g p op
  /-- There are no other members. -/
  reached : ∀ c ∈ cs, ∀ x ∈ c.nodes, g.Reachable x ∧ g.IsPlain x
  invoked : ∀ c ∈ cs, ∀ op k, Member.invocation op k ∈ c.members → k + 1 < cs.length

variable {g : Graph} {nest : Handle → List Handle} {home : Handle → Nat} {root P I : Plan}
  {cs new : List Composite} {c : Composite} {ms : List Member} {x p : Handle} {op : Operator}
  {i k : Nat} {σ : List Handle}

/-! ### Members of a filled composite -/

theorem mem_invocations : op ∈ c.invocations k ↔ .invocation op k ∈ c.members := by
  simp only [Composite.invocations, List.mem_filterMap]
  constructor
  · rintro ⟨m, hm, h⟩
    cases m with
    | node id => cases h
    | invocation op' k' =>
      simp only at h
      split at h
      · obtain rfl := Option.some.inj h
        exact ‹k' = k› ▸ hm
      · cases h
  · intro hm
    exact ⟨_, hm, if_pos rfl⟩

theorem Filled.nodes (h : Filled g home P c.members) : c.nodes = P.nodes := by
  unfold Composite.nodes
  generalize c.members = ms at h
  induction P generalizing ms with
  | done exit =>
    rw [Filled] at h
    rw [h]
    rfl
  | node x rest ih =>
    obtain ⟨ms, rfl, h⟩ := h
    rw [Plan.nodes, ← ih ms h]
    rfl
  | region p inside rest _ ih =>
    obtain ⟨op, ms, rfl, _, h⟩ := h
    rw [Plan.nodes, ← ih ms h]
    rfl

theorem Filled.mem_invocation (h : Filled g home P ms) (hm : .invocation op k ∈ ms) :
    ∃ p I, (p, I) ∈ P.regions ∧ k = home p ∧ Invokes g p op := by
  induction P generalizing ms with
  | done exit =>
    rw [Filled] at h
    rw [h] at hm
    cases hm
  | node x rest ih =>
    obtain ⟨ms, rfl, h⟩ := h
    rcases List.mem_cons.mp hm with hm | hm
    · cases hm
    · exact ih h hm
  | region p inside rest _ ih =>
    obtain ⟨op', ms, rfl, hop, h⟩ := h
    rcases List.mem_cons.mp hm with hm | hm
    · obtain ⟨rfl, rfl⟩ := Member.invocation.inj hm
      exact ⟨p, inside, List.mem_cons_self, rfl, hop⟩
    · obtain ⟨q, I, hq, hk, hop⟩ := ih h hm
      exact ⟨q, I, List.mem_cons_of_mem _ hq, hk, hop⟩

/-- The invocations of a composite are as many as the regions at its position. -/
theorem Filled.length_invocations (h : Filled g home P c.members) :
    (c.invocations k).length = (P.regions.map fun r => home r.1).count k := by
  unfold Composite.invocations
  generalize c.members = ms at h
  induction P generalizing ms with
  | done exit =>
    rw [Filled] at h
    rw [h]
    rfl
  | node x rest ih =>
    obtain ⟨ms, rfl, h⟩ := h
    rw [Plan.regions, ← ih ms h]
    rfl
  | region p inside rest _ ih =>
    obtain ⟨op, ms, rfl, _, h⟩ := h
    rw [Plan.regions, List.map_cons, List.count_cons, ← ih ms h, List.filterMap_cons]
    by_cases hk : home p = k
    · simp [hk]
    · simp [hk]

/-! ### Positions -/

/-- The composites are laid out as the plan says: those of the regions in the order of `Plan.inner`,
and the main one behind them. -/
structure Laid (g : Graph) (root : Plan) (cs : List Composite) (home : Handle → Nat) : Prop where
  plans : g.Plans g.sources [] none root
  exit : root.exit? = none
  numbered : ∀ i p I, root.inner[i]? = some (p, I) → home p = i
  composites : ∃ new m, cs = new ++ [m] ∧ m.isMain = true ∧ Filled g home root m.members ∧
    List.Forall₂ (fun r c => Filled g home r.2 c.members ∧ c.isMain = false) root.inner new

section

variable (hg : g.WellFormed) (hi : g.Indexed) (hn : g.Nesting nest) (hl : Laid g root cs home)

include hl

theorem Laid.length : cs.length = root.inner.length + 1 := by
  obtain ⟨new, m, rfl, _, _, hnew⟩ := hl.composites
  rw [List.length_append, List.length_singleton, hnew.length_eq]

theorem Laid.home_lt (hp : (p, I) ∈ root.inner) :
    home p < root.inner.length ∧ root.inner[home p]? = some (p, I) := by
  obtain ⟨i, hi⟩ := List.mem_iff_getElem?.mp hp
  rw [hl.numbered i p I hi]
  exact ⟨(List.getElem?_eq_some_iff.mp hi).1, hi⟩

theorem Laid.home_inj {q : Handle} {J : Plan} (hp : (p, I) ∈ root.inner) (hq : (q, J) ∈ root.inner)
    (h : home p = home q) : p = q := by
  have hsame := (hl.home_lt hp).2.symm.trans (h ▸ (hl.home_lt hq).2)
  exact (Prod.mk.inj (Option.some.inj hsame)).1

/-- What stands at a position is the composite with some stack. -/
theorem Laid.at (nest : Handle → List Handle) (h : cs[i]? = some c) :
    ∃ σ P, Composes nest root σ P ∧ place cs home σ = i ∧ Filled g home P c.members ∧
      (c.isMain = true ↔ i + 1 = cs.length) := by
  have hlen := hl.length
  obtain ⟨new, m, rfl, hmain, hfilled, hnew⟩ := hl.composites
  have hlt : i < (new ++ [m]).length := (List.getElem?_eq_some_iff.mp h).1
  have hnewlen := hnew.length_eq
  by_cases hi : i < new.length
  · rw [List.getElem?_append_left hi] at h
    have hlt' : i < root.inner.length := by omega
    obtain ⟨hmembers, hnot⟩ := List.forall₂_iff_get.mp hnew |>.2 i hlt' hi
    obtain ⟨_, hc⟩ := List.getElem?_eq_some_iff.mp h
    simp only [List.get_eq_getElem, hc] at hmembers hnot
    refine ⟨root.inner[i].1 :: nest root.inner[i].1, root.inner[i].2, Or.inr ⟨_, rfl, ?_⟩, ?_,
      hmembers, ?_⟩
    · exact List.getElem_mem hlt'
    · exact hl.numbered i _ root.inner[i].2 (List.getElem?_eq_getElem hlt')
    · rw [hnot, hlen]
      simp only [Bool.false_eq_true, false_iff]
      omega
  · obtain rfl : i = new.length := by
      rw [List.length_append, List.length_singleton] at hlt
      omega
    rw [List.getElem?_append_right (Nat.le_refl _), Nat.sub_self] at h
    obtain rfl := Option.some.inj h
    refine ⟨[], root, Or.inl ⟨rfl, rfl⟩, ?_, hfilled, ?_⟩
    · rw [place, hlen]
      omega
    · simp [hmain]

theorem Laid.place_inj {σ' : List Handle} {P' : Plan} (h : Composes nest root σ P)
    (h' : Composes nest root σ' P') (hplace : place cs home σ = place cs home σ') : σ = σ' := by
  have hlen := hl.length
  rcases h with ⟨rfl, _⟩ | ⟨p, rfl, hp⟩
  · rcases h' with ⟨rfl, _⟩ | ⟨q, rfl, hq⟩
    · rfl
    · have hlt := (hl.home_lt hq).1
      simp only [place] at hplace
      omega
  · rcases h' with ⟨rfl, _⟩ | ⟨q, rfl, hq⟩
    · have hlt := (hl.home_lt hp).1
      simp only [place] at hplace
      omega
    · rw [hl.home_inj hp hq hplace]

include hg hi hn

theorem Laid.count_nodes (hx : g.Reachable x) (hkind : g.IsPlain x)
    (hcomp : Composes nest root σ P) :
    P.nodes.count x = if place cs home σ = place cs home (nest x) then 1 else 0 := by
  obtain ⟨P₀, hcomp₀, hx₀⟩ := node_of_plain hg hi hn hl.plans hl.exit hx hkind
  by_cases hxP : x ∈ P.nodes
  · have hσ : nest x = σ := ((placed_of_composes hg hi hn hl.plans hcomp).of_node hxP).2.1
    rw [if_pos (by rw [hσ])]
    exact List.count_eq_one_of_mem (distinct_of_composes hl.plans hcomp).nodes_nodup hxP
  · rw [List.count_eq_zero_of_not_mem hxP, if_neg]
    intro hplace
    obtain rfl := hl.place_inj hcomp hcomp₀ hplace
    exact hxP (composes_unique hg hi hn hl.plans hcomp hcomp₀ ▸ hx₀)

omit hg hi hn in
theorem Laid.homes_nodup (hcomp : Composes nest root σ P) :
    (P.regions.map fun r => home r.1).Nodup := by
  have hnd := (distinct_of_composes hl.plans hcomp).regions_nodup
  refine List.Nodup.map_on ?_ (List.Nodup.of_map _ hnd)
  rintro ⟨p, I⟩ hp ⟨q, J⟩ hq h
  have hpq : p = q :=
    hl.home_inj (mem_inner_of_composes hcomp hp) (mem_inner_of_composes hcomp hq) h
  exact List.inj_on_of_nodup_map hnd hp hq hpq

theorem Laid.count_regions (hp : g.Reachable p) (hkind : g.marker? p = some .parallel)
    (hcomp : Composes nest root σ P) : (P.regions.map fun r => home r.1).count (home p) =
      if place cs home σ = place cs home (nest p) then 1 else 0 := by
  obtain ⟨P₀, I, hcomp₀, hI, hinner⟩ := region_of_parallel hg hi hn hl.plans hl.exit hp hkind
  by_cases hpP : ∃ J, (p, J) ∈ P.regions
  · obtain ⟨J, hJ⟩ := hpP
    have hσ : nest p = σ := ((placed_of_composes hg hi hn hl.plans hcomp).of_region hJ).1.2.1
    rw [if_pos (by rw [hσ])]
    exact List.count_eq_one_of_mem (hl.homes_nodup hcomp) (List.mem_map.mpr ⟨_, hJ, rfl⟩)
  · rw [List.count_eq_zero_of_not_mem, if_neg]
    · intro hplace
      obtain rfl := hl.place_inj hcomp hcomp₀ hplace
      exact hpP ⟨I, composes_unique hg hi hn hl.plans hcomp hcomp₀ ▸ hI⟩
    · intro hmem
      obtain ⟨⟨q, J⟩, hq, hhome⟩ := List.mem_map.mp hmem
      obtain rfl := hl.home_inj (mem_inner_of_composes hcomp hq) hinner hhome
      exact hpP ⟨J, hq⟩

/-- **A plan that is laid out is a partition.** -/
theorem Laid.partitions : Partitions g nest cs home := by
  have hroot := placed_root hg hi hn hl.plans
  have hlen := hl.length
  refine ⟨fun i c hc => ?_, ?_, fun i => ?_, fun p q hp hpk hq hqk h => ?_,
    fun x p σ hx hnest => ?_,
    fun x hx hkind i c hc => ?_, fun p hp hkind i c hc => ?_, fun p hp hkind c hc op hop => ?_,
    fun c hc x hx => ?_, fun c hc op k hm => ?_⟩
  · obtain ⟨_, _, _, _, _, hmain⟩ := hl.at nest hc
    exact hmain
  · rintro rfl
    rw [List.length_nil] at hlen
    omega
  · constructor
    · intro hlt
      have hinner : i < root.inner.length := by omega
      obtain ⟨hkind, hreach, _⟩ := hroot.of_inner (List.getElem_mem hinner)
      exact ⟨_, hreach, hkind, hl.numbered i _ _ (List.getElem?_eq_getElem hinner)⟩
    · rintro ⟨p, hp, hkind, rfl⟩
      obtain ⟨P, I, _, _, hinner⟩ := region_of_parallel hg hi hn hl.plans hl.exit hp hkind
      have := (hl.home_lt hinner).1
      omega
  · obtain ⟨_, _, _, _, hpi⟩ := region_of_parallel hg hi hn hl.plans hl.exit hp hpk
    obtain ⟨_, _, _, _, hqi⟩ := region_of_parallel hg hi hn hl.plans hl.exit hq hqk
    exact hl.home_inj hpi hqi h
  · obtain ⟨P, hcomp, _⟩ := met hg hi hn hl.plans hl.exit hx
    rcases hcomp with ⟨hσ, _⟩ | ⟨q, hσ, hq⟩
    · rw [hσ] at hnest
      cases hnest
    · rw [hσ] at hnest
      obtain ⟨rfl, rfl⟩ := List.cons.inj hnest
      obtain ⟨hkind, hreach, _⟩ := hroot.of_inner hq
      exact ⟨hreach, hkind, rfl⟩
  · obtain ⟨σ, P, hcomp, rfl, hfilled, _⟩ := hl.at nest hc
    rw [hfilled.nodes]
    exact hl.count_nodes hg hi hn hx hkind hcomp
  · obtain ⟨σ, P, hcomp, rfl, hfilled, _⟩ := hl.at nest hc
    rw [hfilled.length_invocations]
    exact hl.count_regions hg hi hn hp hkind hcomp
  · obtain ⟨i, hc⟩ := List.mem_iff_getElem?.mp hc
    obtain ⟨σ, P, hcomp, rfl, hfilled, _⟩ := hl.at nest hc
    obtain ⟨q, J, hq, hhome, hinvokes⟩ := hfilled.mem_invocation (mem_invocations.mp hop)
    obtain ⟨_, _, _, _, hinner⟩ := region_of_parallel hg hi hn hl.plans hl.exit hp hkind
    obtain rfl := hl.home_inj hinner (mem_inner_of_composes hcomp hq) hhome
    exact hinvokes
  · obtain ⟨i, hc⟩ := List.mem_iff_getElem?.mp hc
    obtain ⟨σ, P, hcomp, rfl, hfilled, _⟩ := hl.at nest hc
    rw [hfilled.nodes] at hx
    obtain ⟨hkind, _, hreach⟩ := (placed_of_composes hg hi hn hl.plans hcomp).of_node hx
    exact ⟨hreach, hkind⟩
  · obtain ⟨i, hc⟩ := List.mem_iff_getElem?.mp hc
    obtain ⟨σ, P, hcomp, rfl, hfilled, _⟩ := hl.at nest hc
    obtain ⟨q, J, hq, rfl, _⟩ := hfilled.mem_invocation hm
    have := (hl.home_lt (mem_inner_of_composes hcomp hq)).1
    omega

end

end Separation

open StreamTopology.Graph Separation

/-- **A separation that succeeds lays out a plan.** -/
theorem separate_laid {g : Graph} {nest : Handle → List Handle} {values : SubmissionValues}
    {count : Nat} {cs : List Composite} {s' : Separation} (hg : g.WellFormed) (hi : g.Indexed)
    (hn : g.Nesting nest)
    (hrun : Yields (separate values) { graph := g, count := count } cs s') :
    ∃ root home, Laid g root cs home := by
  obtain ⟨root, ms, s₁, k, hplan, hexit, hfill, hfinish, rfl⟩ := yields_separate.mp hrun
  have hroot : g.Plans g.sources [] none root := plans_of_planFrom hplan
  have hnd : (root.inner.map Prod.fst).Nodup :=
    (placed_root hg hi hn hroot).inner_nodup hroot.distinct.1
  have hhome : ∀ i p I, root.inner[i]? = some (p, I) →
      (root.inner.map Prod.fst).idxOf p = i := by
    intro i p I hi
    obtain ⟨hlt, heq⟩ := List.getElem?_eq_some_iff.mp hi
    have hlt' : i < (root.inner.map Prod.fst).length := by rwa [List.length_map]
    have hp : (root.inner.map Prod.fst)[i] = p := by rw [List.getElem_map, heq]
    rw [← hp]
    exact hnd.idxOf_getElem i hlt'
  obtain ⟨_, hfilled, new, hnew, hall⟩ := fill_filled hfill (.refl g) fun i p I hi => by
    rw [List.length_nil, Nat.zero_add]
    exact hhome i p I hi
  obtain ⟨_, _, ps, hcomp⟩ := finish_appends hfinish
  rw [hnew, List.nil_append] at hcomp
  exact ⟨root, _, hroot, hexit, hhome, new, _, hcomp, rfl, hfilled, hall⟩

/-- **Separation is a partition.** If the markers of a graph are well bracketed and its separation
succeeds, then every operator that is reached from a source and is no marker of a region is a member
of exactly one composite, once, and the stack of the operator says of which; every region that is
reached is invoked exactly once; and nothing else is a member of any composite. -/
theorem separate_partitions {g : Graph} {nest : Handle → List Handle} {values : SubmissionValues}
    {count : Nat} {cs : List Composite} {s' : Separation} (hg : g.WellFormed) (hi : g.Indexed)
    (hn : g.Nesting nest)
    (hrun : Yields (separate values) { graph := g, count := count } cs s') :
    ∃ home, Partitions g nest cs home := by
  obtain ⟨root, home, hl⟩ := separate_laid hg hi hn hrun
  exact ⟨home, hl.partitions hg hi hn⟩

/-- A region in a region, with an operator in each, between a source and a consumer. -/
def nestedRegions : Graph := Graph.reindexed
  { name := "nestedRegions"
    slots := [
      some { name := "s", kind := "Beacon"
             outputs := [{ name := "so", connections := ["pi"] }] },
      some { name := "p", kind := "$Parallel$"
             inputs := [{ name := "pi", connections := ["so"] }]
             outputs := [{ name := "po", connections := ["ai", "qi"], width := some (.fixed 2) }] },
      some { name := "a", kind := "Custom"
             inputs := [{ name := "ai", connections := ["po"] }]
             outputs := [{ name := "ao", connections := ["ei"] }] },
      some { name := "q", kind := "$Parallel$"
             inputs := [{ name := "qi", connections := ["po"] }]
             outputs := [{ name := "qo", connections := ["bi"], width := some (.fixed 3) }] },
      some { name := "b", kind := "Custom"
             inputs := [{ name := "bi", connections := ["qo"] }]
             outputs := [{ name := "bo", connections := ["fi"] }] },
      some { name := "f", kind := "$EndParallel$"
             inputs := [{ name := "fi", connections := ["bo"] }]
             outputs := [{ name := "fo", connections := ["ei"] }] },
      some { name := "e", kind := "$EndParallel$"
             inputs := [{ name := "ei", connections := ["ao", "fo"] }]
             outputs := [{ name := "eo", connections := ["zi"] }] },
      some { name := "z", kind := "Custom"
             inputs := [{ name := "zi", connections := ["eo"] }] }]
    order := (List.range 8).map Handle.mk }

/-- The stacks of markers in that graph. -/
def nestedStack (x : Handle) : List Handle :=
  match x.index with
  | 2 | 3 | 6 => [⟨1⟩]
  | 4 | 5 => [⟨3⟩, ⟨1⟩]
  | _ => []

theorem nestedRegions_wellFormed : nestedRegions.WellFormed :=
  WellFormed.ofDescription (d := nestedRegions.toDescription) (by decide)

theorem nestedRegions_indexed : nestedRegions.Indexed :=
  Indexed.ofDescription (d := nestedRegions.toDescription) (by decide)

theorem nestedRegions_nesting : nestedRegions.Nesting nestedStack :=
  .of_streams nestedRegions_wellFormed nestedRegions_indexed (by decide)
    (by decide) (by decide)

/-- The plan of that graph. -/
def nestedPlan : Plan :=
  .node ⟨0⟩ (.region ⟨1⟩
    (.node ⟨2⟩ (.region ⟨3⟩ (.node ⟨4⟩ (.done (some ⟨5⟩))) (.done (some ⟨6⟩))))
    (.node ⟨7⟩ (.done none)))

theorem nestedRegions_separate :
    ∃ cs s', Yields (separate {}) { graph := nestedRegions, count := 0 } cs s' := by
  have hplan : nestedRegions.plan = .ok nestedPlan :=
    planFrom_of_within (n := 12) (by decide)
  exact exists_separate hplan rfl (by decide +kernel)

theorem separate_partitions_nestedRegions :
    nestedRegions.WellFormed ∧ nestedRegions.Indexed ∧ nestedRegions.Nesting nestedStack ∧
      ∃ cs s', Yields (separate {}) { graph := nestedRegions, count := 0 } cs s' ∧
        ∃ home, Partitions nestedRegions nestedStack cs home := by
  obtain ⟨cs, s', hrun⟩ := nestedRegions_separate
  exact ⟨nestedRegions_wellFormed, nestedRegions_indexed, nestedRegions_nesting, cs, s', hrun,
    separate_partitions nestedRegions_wellFormed nestedRegions_indexed nestedRegions_nesting hrun⟩

end StreamTopology
