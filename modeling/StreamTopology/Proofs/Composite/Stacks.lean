import StreamTopology.Proofs.Composite.Plan

/-!
# Stacks of open regions

On any graph, well bracketed or not, a separation comes to an operator inside some regions that are
open at that moment. `Graph.Visits` says inside which: it follows the streams from the sources, puts
a marker on the stack where a region starts, and goes on with the stack from before behind the end
by which the region was left. An operator can be visited with several stacks, and it need not be
visited at all, even if a chain of streams leads to it.

A plan has one composite for each stack with which a region is opened, and the main one. The members
of a composite are exactly the operators that are visited with its stack. That a composite has no
more members than that is read off the run of the work list; that it has no fewer is shown along the
visits, where the run of a region inside is recognised because the work list is deterministic.

## Main definitions

* `Graph.LeftBy`: the end by which a region is left.
* `Graph.Visits`: the operators that a separation comes to, with the stacks of open regions.

## Main results

* `Graph.Plans.unique`: a run of the work list has one result.
* `Graph.Plans.mem_nodes_iff`: the members of a composite.
-/

namespace StreamTopology

/-! ### Visits -/

namespace Graph

variable {g : Graph} {queue traversed σ τ : List Handle} {exit : Option Handle}
  {root P Q I : Plan} {x y p e : Handle}

/-- **The work list is deterministic.** -/
theorem Plans.unique (h : g.Plans queue traversed exit P) (h' : g.Plans queue traversed exit Q) :
    P = Q := by
  induction h generalizing Q with
  | done traversed exit =>
    cases h'
    rfl
  | again hx rest ih =>
    cases h' with
    | again _ rest' => exact ih rest'
    | node hx' _ _ => exact absurd hx hx'
    | leave hx' _ _ => exact absurd hx hx'
    | region hx' _ _ _ => exact absurd hx hx'
  | node hx hkind rest ih =>
    cases h' with
    | again hx' _ => exact absurd hx' hx
    | node _ _ rest' => rw [ih rest']
    | leave _ hkind' _ => exact absurd hkind' hkind.2
    | region _ hkind' _ _ => exact absurd hkind' hkind.1
  | leave hx hkind rest ih =>
    cases h' with
    | again hx' _ => exact absurd hx' hx
    | node _ hkind' _ => exact absurd hkind hkind'.2
    | leave _ _ rest' => exact ih rest'
    | region _ hkind' _ _ => exact absurd (hkind.symm.trans hkind') (by simp)
  | region hx hkind inside rest ihInside ihRest =>
    cases h' with
    | again hx' _ => exact absurd hx' hx
    | node _ hkind' _ => exact absurd hkind hkind'.1
    | leave _ hkind' _ => exact absurd (hkind.symm.trans hkind') (by simp)
    | region _ _ inside' rest' =>
      obtain rfl := ihInside inside'
      rw [ihRest rest']

/-- The region of a marker is left by the end `e`. -/
def LeftBy (g : Graph) (p e : Handle) : Prop :=
  ∃ I, g.Plans (g.children p) [] none I ∧ I.exit? = some e

/-- A separation comes to the operator while the regions of some markers are open, the innermost
first. -/
inductive Visits (g : Graph) : List Handle → Handle → Prop where
  | source {s : Handle} (hs : s ∈ g.sources) : Visits g [] s
  | next {σ : List Handle} {x y : Handle} (hx : Visits g σ x) (hkind : g.IsPlain x)
      (hy : y ∈ g.children x) : Visits g σ y
  | inside {σ : List Handle} {p y : Handle} (hp : Visits g σ p)
      (hkind : g.marker? p = some .parallel) (hy : y ∈ g.children p) : Visits g (p :: σ) y
  | behind {σ : List Handle} {p e y : Handle} (hp : Visits g σ p)
      (hkind : g.marker? p = some .parallel) (he : g.LeftBy p e) (hy : y ∈ g.children e) :
      Visits g σ y

/-- Every marker on the stack of a visit has been visited, with the stack below it. -/
theorem Visits.opened (h : g.Visits (p :: σ) x) :
    g.Visits σ p ∧ g.marker? p = some .parallel := by
  generalize hτ : p :: σ = τ at h
  induction h with
  | source hs => cases hτ
  | next _ _ _ ih => exact ih hτ
  | inside hp hkind _ _ =>
    obtain ⟨rfl, rfl⟩ := List.cons.inj hτ
    exact ⟨hp, hkind⟩
  | behind _ _ _ _ ih => exact ih hτ

/-! ### No member without a visit -/

theorem mem_beyond : y ∈ g.beyond I ↔ ∃ e, I.exit? = some e ∧ y ∈ g.children e := by
  rw [beyond]
  rcases I.exit? with _ | e
  · simp
  · simp

/-- What a run of the work list puts into its plan has been visited, if what waits in its queue
has. -/
theorem Plans.visited (h : g.Plans queue traversed exit P) (hqueue : ∀ y ∈ queue, g.Visits σ y) :
    (∀ x ∈ P.nodes, g.IsPlain x ∧ g.Visits σ x) ∧
    (∀ p I, (p, I) ∈ P.regions → g.marker? p = some .parallel ∧ g.Visits σ p ∧
      g.Plans (g.children p) [] none I) ∧
    ∀ e, P.exit? = some e → exit = some e ∨ g.marker? e = some .endParallel ∧ g.Visits σ e := by
  induction h with
  | done traversed exit =>
    exact ⟨fun _ h => (List.not_mem_nil h).elim, fun _ _ h => (List.not_mem_nil h).elim,
      fun e he => Or.inl he⟩
  | again hx rest ih => exact ih fun y hy => hqueue y (List.mem_cons_of_mem _ hy)
  | @node x queue traversed exit P hx hkind rest ih =>
    have hvisit := hqueue x List.mem_cons_self
    obtain ⟨hnodes, hregions, hexit⟩ := ih fun y hy => by
      rcases List.mem_append.mp hy with hy | hy
      · exact hqueue y (List.mem_cons_of_mem _ hy)
      · exact .next hvisit hkind hy
    refine ⟨fun z hz => ?_, hregions, hexit⟩
    rcases List.mem_cons.mp hz with rfl | hz
    · exact ⟨hkind, hvisit⟩
    · exact hnodes z hz
  | @leave x queue traversed exit P hx hkind rest ih =>
    obtain ⟨hnodes, hregions, hexit⟩ := ih fun y hy => hqueue y (List.mem_cons_of_mem _ hy)
    refine ⟨hnodes, hregions, fun e he => Or.inr ?_⟩
    rcases hexit e he with hx | he
    · obtain rfl := Option.some.inj hx
      exact ⟨hkind, hqueue x List.mem_cons_self⟩
    · exact he
  | @region x queue traversed exit I P hx hkind inside rest _ ih =>
    have hvisit := hqueue x List.mem_cons_self
    obtain ⟨hnodes, hregions, hexit⟩ := ih fun y hy => by
      rcases List.mem_append.mp hy with hy | hy
      · exact hqueue y (List.mem_cons_of_mem _ hy)
      · obtain ⟨e, he, hy⟩ := mem_beyond.mp hy
        exact .behind hvisit hkind ⟨I, inside, he⟩ hy
    refine ⟨hnodes, fun p J hp => ?_, hexit⟩
    rcases List.mem_cons.mp hp with hp | hp
    · obtain ⟨rfl, rfl⟩ := Prod.mk.inj hp
      exact ⟨hkind, hvisit, inside⟩
    · exact hregions p J hp

/-- Every inner composite is the run of the region that the first marker of its stack starts. -/
theorem plans_of_mem_stacked (hregions : ∀ p I, (p, I) ∈ P.regions →
      g.marker? p = some .parallel ∧ g.Visits σ p ∧ g.Plans (g.children p) [] none I)
    (h : (τ, I) ∈ Plan.stacked σ P) :
    g.Plans ((τ.head?.map g.children).getD []) [] none I ∧
      ∀ y ∈ (τ.head?.map g.children).getD [], g.Visits τ y := by
  induction P generalizing σ with
  | done _ => cases h
  | node _ rest ih => exact ih hregions h
  | region p inside rest ihInside ihRest =>
    obtain ⟨hkind, hvisit, hplans⟩ := hregions p inside List.mem_cons_self
    have hstarts : ∀ y ∈ g.children p, g.Visits (p :: σ) y := fun y hy => .inside hvisit hkind hy
    rcases List.mem_append.mp h with h | h
    · exact ihInside (hplans.visited hstarts).2.1 h
    · rcases List.mem_cons.mp h with h | h
      · obtain ⟨rfl, rfl⟩ := Prod.mk.inj h
        exact ⟨hplans, hstarts⟩
      · exact ihRest (fun q J hq => hregions q J (List.mem_cons_of_mem _ hq)) h

section

variable (hroot : g.Plans g.sources [] none root)

include hroot

/-- Every composite is a run of the work list, from operators that are visited with its stack. -/
theorem plans_of_mem_composites (h : (σ, P) ∈ root.composites) :
    ∃ queue, g.Plans queue [] none P ∧ ∀ y ∈ queue, g.Visits σ y := by
  have hsources : ∀ s ∈ g.sources, g.Visits [] s := fun s hs => .source hs
  rcases List.mem_append.mp h with h | h
  · exact ⟨_, plans_of_mem_stacked (hroot.visited hsources).2.1 h⟩
  · obtain ⟨rfl, rfl⟩ := Prod.mk.inj (List.mem_singleton.mp h)
    exact ⟨_, hroot, hsources⟩

/-- An inner composite is the run of the region that the first marker of its stack starts. -/
theorem plans_of_mem_composites_cons (h : (p :: σ, P) ∈ root.composites) :
    g.Plans (g.children p) [] none P := by
  rcases List.mem_append.mp h with h | h
  · exact (plans_of_mem_stacked (hroot.visited fun s hs => .source hs).2.1 h).1
  · cases (Prod.mk.inj (List.mem_singleton.mp h)).1

/-- A composite is determined by its stack. -/
theorem composites_unique (hP : (σ, P) ∈ root.composites) (hQ : (σ, Q) ∈ root.composites) :
    P = Q :=
  congrArg Prod.snd (List.inj_on_of_nodup_map hroot.distinct.1.composites_nodup hP hQ rfl)

/-! ### No visit without a member -/

/-- **Every visit is met** by the composite with its stack. -/
theorem Visits.met (h : g.Visits σ x) : ∃ P, (σ, P) ∈ root.composites ∧ g.Meets P x := by
  -- a marker of a region that is met is a member, with the run of the region inside
  have region : ∀ {σ p P}, (σ, P) ∈ root.composites → g.Meets P p →
      g.marker? p = some .parallel → ∃ I, (p, I) ∈ P.regions := by
    intro σ p P hP hmeets hkind
    obtain ⟨queue, hrun, hqueue⟩ := plans_of_mem_composites hroot hP
    rcases hmeets with hp | hp | ⟨hend, _⟩
    · exact absurd hkind ((hrun.visited hqueue).1 p hp).1.1
    · exact hp
    · exact absurd (hkind.symm.trans hend) (by simp)
  induction h with
  | @source s hs =>
    exact ⟨root, List.mem_append_right _ List.mem_cons_self,
      (hroot.complete.queued s hs).resolve_left List.not_mem_nil⟩
  | @next σ x y _ hkind hy ih =>
    obtain ⟨P, hP, hmeets⟩ := ih
    obtain ⟨queue, hrun, hqueue⟩ := plans_of_mem_composites hroot hP
    have hx : x ∈ P.nodes := by
      rcases hmeets with hx | ⟨I, hI⟩ | ⟨hend, _⟩
      · exact hx
      · exact absurd ((hrun.visited hqueue).2.1 x I hI).1 hkind.1
      · exact absurd hend hkind.2
    exact ⟨P, hP, (hrun.complete.below x hx y hy).resolve_left List.not_mem_nil⟩
  | @inside σ p y _ hkind hy ih =>
    obtain ⟨P, hP, hmeets⟩ := ih
    obtain ⟨I, hI⟩ := region hP hmeets hkind
    obtain ⟨queue, hrun, hqueue⟩ := plans_of_mem_composites hroot hP
    have hinside := ((hrun.visited hqueue).2.1 p I hI).2.2
    exact ⟨I, Plan.mem_composites_of_mem_regions hP hI,
      (hinside.complete.queued y hy).resolve_left List.not_mem_nil⟩
  | @behind σ p e y _ hkind hleft hy ih =>
    obtain ⟨P, hP, hmeets⟩ := ih
    obtain ⟨I, hI⟩ := region hP hmeets hkind
    obtain ⟨queue, hrun, hqueue⟩ := plans_of_mem_composites hroot hP
    obtain ⟨I', hinside, he⟩ := hleft
    obtain rfl := hinside.unique ((hrun.visited hqueue).2.1 p I hI).2.2
    have hbeyond : y ∈ g.beyond I' := mem_beyond.mpr ⟨e, he, hy⟩
    exact ⟨P, hP, (hrun.complete.behind p I' hI y hbeyond).resolve_left List.not_mem_nil⟩

/-- **The members of a composite** are the operators that are visited with its stack and neither
start nor end a region. -/
theorem mem_nodes_iff (h : (σ, P) ∈ root.composites) :
    x ∈ P.nodes ↔ g.IsPlain x ∧ g.Visits σ x := by
  obtain ⟨queue, hrun, hqueue⟩ := plans_of_mem_composites hroot h
  obtain ⟨hnodes, hregions, _⟩ := hrun.visited hqueue
  constructor
  · exact hnodes x
  · rintro ⟨hkind, hvisit⟩
    obtain ⟨Q, hQ, hx | ⟨I, hI⟩ | ⟨hend, _⟩⟩ := hvisit.met hroot
    · exact composites_unique hroot h hQ ▸ hx
    · rw [← composites_unique hroot h hQ] at hI
      exact absurd (hregions x I hI).1 hkind.1
    · exact absurd hend hkind.2

/-- A composite that has met an end is left by an end that it has met. -/
theorem exit_of_visits (h : (σ, P) ∈ root.composites) (hend : g.marker? e = some .endParallel)
    (hvisit : g.Visits σ e) :
    ∃ e', P.exit? = some e' ∧ g.marker? e' = some .endParallel ∧ g.Visits σ e' := by
  obtain ⟨queue, hrun, hqueue⟩ := plans_of_mem_composites hroot h
  obtain ⟨hnodes, hregions, hexit⟩ := hrun.visited hqueue
  obtain ⟨Q, hQ, hmeets⟩ := hvisit.met hroot
  obtain rfl := composites_unique hroot h hQ
  rcases hmeets with he | ⟨I, hI⟩ | ⟨_, hleft⟩
  · exact absurd hend (hnodes e he).1.2
  · exact absurd (hend.symm.trans (hregions e I hI).1) (by simp)
  · obtain ⟨e', he'⟩ := Option.ne_none_iff_exists'.mp hleft
    exact ⟨e', he', (hexit e' he').resolve_left (by simp)⟩

end

end Graph

end StreamTopology
