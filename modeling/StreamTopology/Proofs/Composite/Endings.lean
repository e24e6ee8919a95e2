import StreamTopology.Proofs.Composite.Members
import StreamTopology.Proofs.Graph.Soundness

/-!
# How a separation ends

A separation makes a plan and then works through it while it renames streams. The plan names live
operators only, renaming leaves the same operators live, and the index from which the plan was made
is not rebuilt, so that the neighbours of a marker are live whenever they are looked up. What is
left to fail is what the topology is to blame for: a region inside itself, a region without an
output, an end without a start.

## Main definitions

* `Graph.Staffs`: a separation under way whose handles are live.

## Main results

* `Graph.planFrom_refuses`: a plan is made, unless a region is inside itself.
* `Separation.separate_ends`: every member of a composite is live.
-/

namespace StreamTopology

/-! ### Plans -/

namespace Graph

variable {g : Graph} {active queue traversed : List Handle} {exit : Option Handle} {P : Plan}

/-- **A plan is made**, unless a region is inside itself. -/
theorem planFrom_refuses (hg : g.WellFormed) (hqueue : ∀ x ∈ queue, g.contains x = true) :
    OnlyRefuses (g.planFrom active queue traversed exit) := by
  have hchildren : ∀ x, ∀ y ∈ g.children x, g.contains y = true :=
    fun x y => contains_of_mem_children hg
  have hbehind : ∀ {x : Handle} {queue more : List Handle},
      (∀ y ∈ x :: queue, g.contains y = true) → (∀ y ∈ more, g.contains y = true) →
      ∀ y ∈ queue ++ more, g.contains y = true := by
    intro x queue more hqueue hmore y hy
    rcases List.mem_append.mp hy with hy | hy
    · exact hqueue y (List.mem_cons_of_mem _ hy)
    · exact hmore y hy
  induction active, queue, traversed, exit using planFrom.induct g with
  | case1 active traversed exit =>
    rw [planFrom]
    exact onlyRefuses_ok _
  | case2 active x queue traversed exit hx ih =>
    rw [planFrom, if_pos hx]
    exact ih fun y hy => hqueue y (List.mem_cons_of_mem _ hy)
  | case3 active x queue traversed exit hx hlive hkind hactive =>
    rw [planFrom, if_neg hx, if_pos hlive]
    simp only [hkind, if_pos hactive]
    exact onlyRefuses_error.mpr trivial
  | case4 active x queue traversed exit hx hlive hkind hactive e hfail ih =>
    rw [planFrom, if_neg hx, if_pos hlive]
    simp only [hkind, if_neg hactive, hfail]
    have hinside := ih (hchildren x)
    rw [hfail] at hinside
    exact onlyRefuses_error.mpr (onlyRefuses_error.mp hinside)
  | case5 active x queue traversed exit hx hlive hkind hactive inside hinside beyond ihInside =>
    rename_i ihRest
    rw [planFrom, if_neg hx, if_pos hlive]
    simp only [hkind, if_neg hactive, hinside]
    refine (ihRest (hbehind hqueue fun y hy => ?_)).map _
    rcases hend : inside.exit? with _ | e
    · simp [beyond, hend] at hy
    · simp only [beyond, hend, Option.map_some, Option.getD_some] at hy
      exact hchildren e y hy
  | case6 active x queue traversed exit hx hlive hkind ih =>
    rw [planFrom, if_neg hx, if_pos hlive]
    simp only [hkind]
    exact ih fun y hy => hqueue y (List.mem_cons_of_mem _ hy)
  | case7 active x queue traversed exit hx hlive hopen hclose ih =>
    rw [planFrom, if_neg hx, if_pos hlive]
    split
    · exact absurd ‹_› hopen
    · exact absurd ‹_› hclose
    · exact (ih (hbehind hqueue (hchildren x))).map _
  | case8 active x queue traversed exit hx hdead =>
    exact absurd ((hg.mem_order x).mpr (hqueue x List.mem_cons_self)) hdead

theorem live_of_mem_sources (hg : g.WellFormed) : ∀ x ∈ g.sources, g.contains x = true := by
  intro x hx
  obtain ⟨op, hop, _⟩ := (mem_findAll hg).mp hx
  exact contains_iff.mpr ⟨op, hop⟩

/-- A plan names live operators only. -/
theorem plan_live (hg : g.WellFormed) (h : g.plan = .ok P) : P.All fun x => g.contains x = true :=
  (plans_of_planFrom h).all (fun _ _ _ hy => contains_of_mem_children hg hy)
    (live_of_mem_sources hg) fun _ h => by cases h

/-- `t` is a separation of `g` under way. It has its operators at the same handles, and the members
of its composites are among them. -/
structure Staffs (g : Graph) (t : Separation) : Prop where
  retains : g.Retains t.graph
  members : ∀ c ∈ t.composites, ∀ x ∈ c.nodes, g.contains x = true

end Graph

/-! ### Operations on the graph of a separation -/

namespace Separation

open StreamTopology.Graph

variable {g : Graph} {s t : Separation} {values : SubmissionValues} {P : Plan} {x : Handle}
  {ids : List Handle} {c : Composite} {k : Nat} {op : Operator}

section

variable (h : g.Staffs t)

include h

theorem Staffs.onGraph {α : Type} {action : GraphM α}
    (haction : Succeeds g.Retains action t.graph) :
    Succeeds g.Staffs (onGraph action) t := by
  obtain ⟨a, g', hrun, hg'⟩ := haction
  exact ⟨a, { t with graph := g' }, yields_onGraph.mpr ⟨g', hrun, rfl⟩, hg', h.members⟩

theorem Staffs.lookup (hx : g.contains x = true) :
    Succeeds g.Staffs (Separation.onGraph (GraphM.lookup x)) t :=
  Staffs.onGraph h (h.retains.lookup hx)

theorem Staffs.updates {f : Operator → Operator} (hids : ∀ x ∈ ids, g.contains x = true) :
    Succeeds g.Staffs (ids.forM fun x => Separation.onGraph (GraphM.update x f)) t :=
  succeeds_forM h fun x hx _ h => Staffs.onGraph h (h.retains.update (hids x hx) f)

theorem Staffs.updateComposite {f : Composite → Composite} (hf : ∀ c, (f c).nodes = c.nodes) :
    Succeeds g.Staffs (updateComposite k f) t := by
  refine ⟨⟨⟩, _, yields_modify.mpr rfl, h.retains, fun c hc x hx => ?_⟩
  obtain ⟨i, hi⟩ := List.mem_iff_getElem?.mp hc
  rw [List.getElem?_modify] at hi
  obtain ⟨d, hd, rfl⟩ := Option.map_eq_some_iff.mp hi
  refine h.members d (List.mem_of_getElem? hd) x ?_
  split at hx
  · rwa [hf] at hx
  · exact hx

theorem Staffs.children : ∀ y ∈ t.graph.children x, g.contains y = true :=
  fun y hy => h.retains.contains y ▸ contains_of_mem_children h.retains.wellFormed hy

theorem Staffs.parents : ∀ y ∈ t.graph.parents x, g.contains y = true :=
  fun y hy => h.retains.contains y ▸ contains_of_mem_parents h.retains.wellFormed hy

/-! ### Regions -/

theorem openRegion_ends (hx : g.contains x = true) :
    Settles g.Staffs (openRegion x) t := by
  refine ends_bind (P := fun _ => g.Staffs) ?_ fun number t h => ?_
  · exact ends_get_bind (ends_bind (P := fun _ => g.Staffs) (ends_set ⟨h.retains, h.members⟩)
      fun _ _ h => ends_pure h)
  refine ends_bind (Staffs.lookup h hx).ends fun op t h => ?_
  split
  · exact ends_throw ⟨trivial, h⟩
  · exact ends_get_bind (ends_bind (Staffs.updates h (Staffs.children h)).ends
      fun _ _ h => ends_pure h)

theorem declaredBy_succeeds (hc : ∀ x ∈ c.nodes, g.contains x = true) :
    Succeeds g.Staffs (declaredBy values c) t := by
  unfold declaredBy
  split
  · exact succeeds_pure h
  split
  · exact succeeds_pure h
  refine succeeds_bind (succeeds_mapM h fun m hm t h => ?_) fun _ _ h => succeeds_pure h
  cases m with
  | node y =>
    have hy : y ∈ c.nodes := List.mem_filterMap.mpr ⟨.node y, hm, rfl⟩
    exact succeeds_bind (Staffs.lookup h (hc y hy)) fun _ _ h => succeeds_pure h
  | invocation op k => exact succeeds_get_bind (succeeds_pure h)

theorem finish_succeeds (hc : ∀ x ∈ c.nodes, g.contains x = true) :
    Succeeds g.Staffs (finish values c) t := by
  refine succeeds_bind (declaredBy_succeeds h hc) fun ps t h => succeeds_get_bind ?_
  refine succeeds_bind (P := g.Staffs) ⟨⟨⟩, _, yields_set.mpr rfl, h.retains, fun d hd => ?_⟩
    fun _ _ h => succeeds_pure h
  rcases List.mem_append.mp hd with hd | hd
  · exact h.members d hd
  · obtain rfl := List.mem_singleton.mp hd
    exact hc

theorem closeRegion_succeeds {exit : Option Handle}
    (hexit : ∀ e, exit = some e → g.contains e = true) :
    Succeeds g.Staffs (closeRegion k exit op) t := by
  refine succeeds_bind (Staffs.updateComposite h fun _ => rfl) fun _ t h => succeeds_get_bind ?_
  rcases exit with _ | marker
  · exact succeeds_pure h
  refine succeeds_bind (Staffs.lookup h (hexit marker rfl)) fun end_ t h => ?_
  refine succeeds_bind (Staffs.updateComposite h fun _ => rfl) fun _ t h => succeeds_get_bind ?_
  refine succeeds_bind (Staffs.onGraph h (succeeds_mapM h.retains fun y hy _ h' =>
    h'.lookup (Staffs.parents h y hy))) fun producers t' h' => ?_
  split
  · exact succeeds_pure h'
  · refine succeeds_bind (Staffs.updates h' (Staffs.parents h)) fun _ t h => ?_
    refine succeeds_bind (Staffs.updateComposite h fun c => ?_) fun _ _ h => succeeds_pure h
    rw [Composite.nodes_eq, Composite.nodes_eq]
    refine nodes_of_opening ?_
    rw [List.map_map]
    exact List.map_congr_left fun m _ => opening_renameMemberOutput

end

/-- **Filling a plan that names live operators.** -/
theorem fill_ends (hP : P.All fun x => g.contains x = true) (h : g.Staffs s) :
    Ends (fun ms t => g.Staffs t ∧ ∀ x ∈ ms.filterMap Member.node?, g.contains x = true)
      (fun e t => e.IsRefusal ∧ g.Staffs t) (fill values P) s := by
  induction P generalizing s with
  | done exit => exact ends_pure ⟨h, fun _ hx => by cases hx⟩
  | node x rest ih =>
    refine ends_bind (ih hP.2 h) fun ms t ⟨h, hms⟩ => ends_pure ⟨h, fun y hy => ?_⟩
    rcases List.mem_cons.mp hy with rfl | hy
    · exact hP.1
    · exact hms y hy
  | region p inside rest ihInside ihRest =>
    obtain ⟨hp, hinside, hrest⟩ := hP
    refine ends_bind (openRegion_ends h hp) fun opened t h => ?_
    refine ends_bind (ihInside hinside h) fun ms t ⟨h, hms⟩ => ?_
    refine ends_bind (finish_succeeds h fun x hx => ?_).ends fun position t h => ?_
    · rw [Composite.nodes_eq] at hx
      exact hms x hx
    refine ends_bind (closeRegion_succeeds h fun e he => hinside.exit he).ends fun op t h => ?_
    exact ends_bind (ihRest hrest h) fun others t ⟨h, hothers⟩ => ends_pure ⟨h, hothers⟩

/-- **How a separation ends**: the operators are where they were, and the members of all composites
are live or the topology is at fault. -/
theorem separate_ends {count : Nat} (hg : g.WellFormed) :
    Ends (fun cs t => g.Retains t.graph ∧ ∀ c ∈ cs, ∀ x ∈ c.nodes, t.graph.contains x = true)
      (fun e t => e.IsRefusal ∧ g.Retains t.graph) (separate values)
      { graph := g, count := count } := by
  have hstart : g.Staffs { graph := g, count := count } :=
    ⟨.refl hg, fun c hc => by cases hc⟩
  refine ends_get_bind (ends_bind (P := fun P t => g.Staffs t ∧ g.plan = .ok P) ?_ ?_)
  · exact ends_liftM (fun P hP => ⟨hstart, hP⟩)
      fun e he => ⟨planFrom_refuses hg (live_of_mem_sources hg) e he, .refl hg⟩
  rintro P t ⟨h, hP⟩
  have hlive := plan_live hg hP
  refine ends_bind ((fill_ends hlive h).mono (fun _ _ h => h) fun _ _ h => ⟨h.1, h.2.retains⟩)
    fun ms t ⟨h, hms⟩ => ?_
  refine ends_bind (finish_succeeds h fun x hx => ?_).ends fun _ t h => ?_
  · rw [Composite.nodes_eq] at hx
    exact hms x hx
  rcases hexit : P.exit? with _ | e
  · exact ends_get_bind
      (ends_pure ⟨h.retains, fun c hc x hx => (h.retains.contains x).trans (h.members c hc x hx)⟩)
  · exact ends_bind (Staffs.lookup h (hlive.exit hexit)).ends
      fun _ _ h => ends_throw ⟨trivial, h.retains⟩

end Separation

end StreamTopology
