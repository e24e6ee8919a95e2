import StreamTopology.Proofs.Composite.PlanTree
import StreamTopology.Proofs.Graph.Walk
import StreamTopology.Proofs.Outcome

/-!
# How a plan comes about

A plan is made by a work list that calls itself at the start of a region and goes on behind the end
of it. `Graph.Plans` writes this down as a relation with one constructor for each thing that can
happen to the operator at the front of the queue, so that what a plan has in common with the graph
is proved by induction on it, with the region inside as a second premise.

On a graph whose markers are well bracketed (`Graph.Nesting`) the stack of an operator says in which
composite it belongs. The stack is the same for everything that a work list ever holds; that is the
invariant from which the rest follows.

## Main definitions

* `Graph.planWithin`: a plan that can be computed.
* `Graph.Plans`, `Graph.Nesting`

## Main results

* `Graph.Plans.placed`: the members of a composite have the same stack.
* `Graph.Placed.inner_nodup`: no region is planned twice.
* `Graph.Plans.met`: everything that is reached from a source is met.
-/

namespace StreamTopology

open Relation

/-! ### The work list -/

namespace Graph

variable {g : Graph} {nest : Handle → List Handle} {active queue traversed σ : List Handle}
  {exit : Option Handle} {P I : Plan} {x y p e : Handle}

/-- The operator is a member of a composite by itself: it neither starts nor ends a region. -/
def IsPlain (g : Graph) (x : Handle) : Prop :=
  g.marker? x ≠ some .parallel ∧ g.marker? x ≠ some .endParallel

/-- Where the composite around a region goes on. -/
def beyond (g : Graph) (inside : Plan) : List Handle := (inside.exit?.map g.children).getD []

/-- A run of the work list, by what happens to the operator at the front of the queue. -/
inductive Plans (g : Graph) : List Handle → List Handle → Option Handle → Plan → Prop where
  | done (traversed : List Handle) (exit : Option Handle) : Plans g [] traversed exit (.done exit)
  | again {x : Handle} {queue traversed : List Handle} {exit : Option Handle} {P : Plan}
      (hx : x ∈ traversed) (rest : Plans g queue traversed exit P) :
      Plans g (x :: queue) traversed exit P
  | node {x : Handle} {queue traversed : List Handle} {exit : Option Handle} {P : Plan}
      (hx : x ∉ traversed) (hkind : g.IsPlain x)
      (rest : Plans g (queue ++ g.children x) (x :: traversed) exit P) :
      Plans g (x :: queue) traversed exit (.node x P)
  | leave {x : Handle} {queue traversed : List Handle} {exit : Option Handle} {P : Plan}
      (hx : x ∉ traversed) (hkind : g.marker? x = some .endParallel)
      (rest : Plans g queue (x :: traversed) (some x) P) : Plans g (x :: queue) traversed exit P
  | region {x : Handle} {queue traversed : List Handle} {exit : Option Handle} {I P : Plan}
      (hx : x ∉ traversed) (hkind : g.marker? x = some .parallel)
      (inside : Plans g (g.children x) [] none I)
      (rest : Plans g (queue ++ g.beyond I) (x :: traversed) exit P) :
      Plans g (x :: queue) traversed exit (.region x I P)

/-- **A plan that is made is a run of the work list.** -/
theorem plans_of_planFrom (h : g.planFrom active queue traversed exit = .ok P) :
    g.Plans queue traversed exit P := by
  induction active, queue, traversed, exit using planFrom.induct g generalizing P with
  | case1 active traversed exit =>
    rw [planFrom] at h
    cases h
    exact .done traversed exit
  | case2 active x queue traversed exit hx ih =>
    rw [planFrom, if_pos hx] at h
    exact .again hx (ih h)
  | case3 active x queue traversed exit hx hlive hkind hactive =>
    rw [planFrom, if_neg hx, if_pos hlive] at h
    simp only [hkind, if_pos hactive] at h
    cases h
  | case4 active x queue traversed exit hx hlive hkind hactive e hfail =>
    rw [planFrom, if_neg hx, if_pos hlive] at h
    simp only [hkind, if_neg hactive, hfail] at h
    cases h
  | case5 active x queue traversed exit hx hlive hkind hactive inside hinside beyond ihInside =>
    rename_i ihRest
    rw [planFrom, if_neg hx, if_pos hlive] at h
    simp only [hkind, if_neg hactive, hinside] at h
    obtain ⟨rest, hrest, rfl⟩ := map_eq_ok.mp h
    exact .region hx hkind (ihInside hinside) (ihRest hrest)
  | case6 active x queue traversed exit hx hlive hkind ih =>
    rw [planFrom, if_neg hx, if_pos hlive] at h
    simp only [hkind] at h
    exact .leave hx hkind (ih h)
  | case7 active x queue traversed exit hx hlive hopen hclose ih =>
    rw [planFrom, if_neg hx, if_pos hlive] at h
    split at h
    · exact absurd ‹_› hopen
    · exact absurd ‹_› hclose
    · obtain ⟨rest, hrest, rfl⟩ := map_eq_ok.mp h
      exact .node hx ⟨hopen, hclose⟩ (ih hrest)
  | case8 active x queue traversed exit hx hdead =>
    rw [planFrom, if_neg hx, if_neg hdead] at h
    cases h

/-- **What a plan names.** A property of everything in the queue that streams hand on holds of
everything that the plan names. -/
theorem Plans.all {Q : Handle → Prop} (h : g.Plans queue traversed exit P)
    (hnext : ∀ x, Q x → ∀ y ∈ g.children x, Q y) (hqueue : ∀ x ∈ queue, Q x)
    (hexit : ∀ e, exit = some e → Q e) : P.All Q := by
  induction h with
  | done traversed exit => exact hexit
  | again hx rest ih => exact ih (fun y hy => hqueue y (List.mem_cons_of_mem _ hy)) hexit
  | @node x queue traversed exit P hx hkind rest ih =>
    refine ⟨hqueue x List.mem_cons_self, ih (fun y hy => ?_) hexit⟩
    rcases List.mem_append.mp hy with hy | hy
    · exact hqueue y (List.mem_cons_of_mem _ hy)
    · exact hnext x (hqueue x List.mem_cons_self) y hy
  | @leave x queue traversed exit P hx hkind rest ih =>
    refine ih (fun y hy => hqueue y (List.mem_cons_of_mem _ hy)) ?_
    rintro _ ⟨⟩
    exact hqueue x List.mem_cons_self
  | @region x queue traversed exit I P hx hkind inside rest ihInside ihRest =>
    have hx := hqueue x List.mem_cons_self
    have hinside : I.All Q := ihInside (hnext x hx) fun _ h => by cases h
    refine ⟨hx, hinside, ihRest (fun y hy => ?_) hexit⟩
    rcases List.mem_append.mp hy with hy | hy
    · exact hqueue y (List.mem_cons_of_mem _ hy)
    · rcases hend : I.exit? with _ | e
      · simp [beyond, hend] at hy
      · simp only [beyond, hend, Option.map_some, Option.getD_some] at hy
        exact hnext e (hinside.exit hend) y hy

/-- The plan, if it is made within a number of steps and without an error. Its recursion is on that
number, so that it can be computed in a proof. -/
def planWithin (g : Graph) : Nat → List Handle → List Handle → List Handle → Option Handle →
    Option Plan
  | _, _, [], _, exit => some (.done exit)
  | 0, _, _ :: _, _, _ => none
  | n + 1, active, x :: queue, traversed, exit =>
    if x ∈ traversed then planWithin g n active queue traversed exit
    else if x ∉ g.order then none
    else if g.marker? x = some .parallel then
      if x ∈ active then none
      else (planWithin g n (x :: active) (g.children x) [] none).bind fun inside =>
        (planWithin g n active (queue ++ g.beyond inside) (x :: traversed) exit).map
          (.region x inside)
    else if g.marker? x = some .endParallel then
      planWithin g n active queue (x :: traversed) (some x)
    else (planWithin g n active (queue ++ g.children x) (x :: traversed) exit).map (.node x)

/-- A plan that is made within a number of steps is the plan. -/
theorem planFrom_of_within {n : Nat} (h : g.planWithin n active queue traversed exit = some P) :
    g.planFrom active queue traversed exit = .ok P := by
  induction n generalizing active queue traversed exit P with
  | zero =>
    cases queue with
    | nil =>
      obtain rfl := Option.some.inj h
      rw [planFrom]
    | cons x queue => cases h
  | succ n ih =>
    cases queue with
    | nil =>
      obtain rfl := Option.some.inj h
      rw [planFrom]
    | cons x queue =>
      rw [planWithin] at h
      by_cases hx : x ∈ traversed
      · rw [if_pos hx] at h
        rw [planFrom, if_pos hx, ih h]
      by_cases hlive : x ∈ g.order
      · rw [if_neg hx, if_neg (not_not.mpr hlive)] at h
        rw [planFrom, if_neg hx, if_pos hlive]
        by_cases hopen : g.marker? x = some .parallel
        · rw [if_pos hopen] at h
          by_cases hactive : x ∈ active
          · rw [if_pos hactive] at h
            cases h
          rw [if_neg hactive] at h
          obtain ⟨inside, hinside, hmap⟩ := Option.bind_eq_some_iff.mp h
          obtain ⟨rest, hrest, rfl⟩ := Option.map_eq_some_iff.mp hmap
          simp only [hopen, if_neg hactive, ih hinside]
          exact map_eq_ok.mpr ⟨rest, ih hrest, rfl⟩
        · rw [if_neg hopen] at h
          by_cases hclose : g.marker? x = some .endParallel
          · rw [if_pos hclose] at h
            simp only [hclose]
            exact ih h
          · rw [if_neg hclose] at h
            obtain ⟨rest, hrest, rfl⟩ := Option.map_eq_some_iff.mp h
            split
            · exact absurd ‹_› hopen
            · exact absurd ‹_› hclose
            · exact map_eq_ok.mpr ⟨rest, ih hrest, rfl⟩
      · rw [if_neg hx, if_pos hlive] at h
        cases h

/-! ### Well-bracketed markers -/

/-- There is a chain of streams from a source to the operator. -/
def Reachable (g : Graph) (x : Handle) : Prop := ∃ s ∈ g.sources, ReflTransGen g.Feeds s x

theorem Reachable.next (hx : g.Reachable x) (h : g.Feeds x y) : g.Reachable y := by
  obtain ⟨s, hs, hsx⟩ := hx
  exact ⟨s, hs, hsx.tail h⟩

/-- Every operator has a stack of markers, the innermost first. A source has none; a stream out of a
`$Parallel$` marker pushes the marker, a stream out of an `$EndParallel$` marker pops one, and any
other stream keeps the stack. A marker is the innermost one at no more than one end. -/
structure Nesting (g : Graph) (nest : Handle → List Handle) : Prop where
  source : ∀ s ∈ g.sources, nest s = []
  opens : ∀ p y, g.marker? p = some .parallel → g.Feeds p y → nest y = p :: nest p
  closes : ∀ e y, g.marker? e = some .endParallel → g.Feeds e y → ∃ q, nest e = q :: nest y
  keeps : ∀ x y, g.IsPlain x → g.Feeds x y → nest y = nest x
  ends : ∀ p e e' σ σ', g.marker? e = some .endParallel → g.marker? e' = some .endParallel →
    nest e = p :: σ → nest e' = p :: σ' → e = e'

/-- Stacks of markers, checked stream by stream. -/
theorem Nesting.of_streams (hg : g.WellFormed) (hi : g.Indexed)
    (hsource : ∀ s ∈ g.sources, nest s = [])
    (hstreams : ∀ x ∈ g.order, ∀ y ∈ g.children x,
      (g.marker? x = some .parallel → nest y = x :: nest x) ∧
      (g.marker? x = some .endParallel → nest x = (nest x).headI :: nest y) ∧
      (g.marker? x ≠ some .parallel ∧ g.marker? x ≠ some .endParallel → nest y = nest x))
    (hends : ∀ e ∈ g.order, ∀ e' ∈ g.order, g.marker? e = some .endParallel →
      g.marker? e' = some .endParallel → (nest e).head? = (nest e').head? → e = e') :
    g.Nesting nest := by
  have hchild {x y : Handle} (h : g.Feeds x y) : x ∈ g.order ∧ y ∈ g.children x := by
    obtain ⟨a, b, ha, hb, hfeeds⟩ := h
    exact ⟨hg.mem_order_iff.mpr ⟨a, ha⟩, (mem_children hg hi).mpr ⟨a, b, ha, hb, hfeeds⟩⟩
  have hlive {x : Handle} (h : g.marker? x = some .endParallel) : x ∈ g.order := by
    obtain ⟨op, hop, _⟩ := Option.bind_eq_some_iff.mp h
    exact hg.mem_order_iff.mpr ⟨op, hop⟩
  refine ⟨hsource, fun p y hp h => ?_, fun e y he h => ?_, fun x y hx h => ?_,
    fun p e e' σ σ' he he' hσ hσ' => ?_⟩
  · exact (hstreams p (hchild h).1 y (hchild h).2).1 hp
  · exact ⟨_, (hstreams e (hchild h).1 y (hchild h).2).2.1 he⟩
  · exact (hstreams x (hchild h).1 y (hchild h).2).2.2 hx
  · exact hends e (hlive he) e' (hlive he') he he' (by rw [hσ, hσ']; rfl)

/-- Everything is reached if every operator that is no source has a parent with a smaller handle. -/
theorem reachable_of_parents (hg : g.WellFormed) (hi : g.Indexed)
    (h : ∀ x ∈ g.order, x ∈ g.sources ∨ ∃ y ∈ g.order, y.index < x.index ∧ x ∈ g.children y) :
    ∀ x, g.contains x = true → g.Reachable x := by
  suffices hall : ∀ n, ∀ x ∈ g.order, x.index = n → g.Reachable x from
    fun x hx => hall _ x (hg.mem_order_iff.mpr (contains_iff.mp hx)) rfl
  intro n
  induction n using Nat.strongRecOn with
  | ind n ih =>
    rintro x hx rfl
    rcases h x hx with hs | ⟨y, hy, hlt, hchild⟩
    · exact ⟨x, hs, .refl⟩
    · exact (ih y.index hlt y hy rfl).next ((mem_children hg hi).mp hchild)

/-- The members of the composite and the end that it was left by have the stack `σ`, and the
composites of its regions have the stacks of their markers. -/
def Placed (g : Graph) (nest : Handle → List Handle) (σ : List Handle) : Plan → Prop
  | .done exit => ∀ e ∈ exit, g.marker? e = some .endParallel ∧ nest e = σ ∧ g.Reachable e
  | .node x rest => (g.IsPlain x ∧ nest x = σ ∧ g.Reachable x) ∧ Placed g nest σ rest
  | .region p inside rest => (g.marker? p = some .parallel ∧ nest p = σ ∧ g.Reachable p) ∧
      Placed g nest (p :: σ) inside ∧ Placed g nest σ rest

theorem Placed.of_exit (h : g.Placed nest σ P) (he : P.exit? = some e) :
    g.marker? e = some .endParallel ∧ nest e = σ ∧ g.Reachable e := by
  induction P generalizing σ with
  | done exit => exact h e he
  | node _ rest ih => exact ih h.2 he
  | region _ _ rest _ ih => exact ih h.2.2 he

theorem Placed.of_node (h : g.Placed nest σ P) (hx : x ∈ P.nodes) :
    g.IsPlain x ∧ nest x = σ ∧ g.Reachable x := by
  induction P generalizing σ with
  | done exit => cases hx
  | node y rest ih =>
    rcases List.mem_cons.mp hx with rfl | hx
    · exact h.1
    · exact ih h.2 hx
  | region _ _ rest _ ih => exact ih h.2.2 hx

theorem Placed.of_region (h : g.Placed nest σ P) (hp : (p, I) ∈ P.regions) :
    (g.marker? p = some .parallel ∧ nest p = σ ∧ g.Reachable p) ∧ g.Placed nest (p :: σ) I := by
  induction P generalizing σ with
  | done exit => cases hp
  | node y rest ih => exact ih h.2 hp
  | region q inside rest _ ih =>
    rcases List.mem_cons.mp hp with hp | hp
    · obtain ⟨rfl, rfl⟩ := Prod.mk.inj hp
      exact ⟨h.1, h.2.1⟩
    · exact ih h.2.2 hp

/-- Every region of a plan, at any depth: its composite has the stack of its marker. -/
theorem Placed.of_inner (h : g.Placed nest σ P) (hp : (p, I) ∈ P.inner) :
    g.marker? p = some .parallel ∧ g.Reachable p ∧ g.Placed nest (p :: nest p) I := by
  induction P generalizing σ with
  | done _ => cases hp
  | node _ rest ih => exact ih h.2 hp
  | region q inside rest ihInside ihRest =>
    rcases List.mem_append.mp hp with hp | hp
    · exact ihInside h.2.1 hp
    · rcases List.mem_cons.mp hp with hp | hp
      · obtain ⟨rfl, rfl⟩ := Prod.mk.inj hp
        exact ⟨h.1.1, h.1.2.2, by rw [h.1.2.1]; exact h.2.1⟩
      · exact ihRest h.2.2 hp

section

variable (hg : g.WellFormed) (hi : g.Indexed) (hn : g.Nesting nest)

include hg hi hn

/-- **One stack for each work list.** If what waits in the queue has the stack `σ`, so has
everything that becomes a member. -/
theorem Plans.placed (h : g.Plans queue traversed exit P)
    (hqueue : ∀ x ∈ queue, nest x = σ ∧ g.Reachable x)
    (hexit : ∀ e ∈ exit, g.marker? e = some .endParallel ∧ nest e = σ ∧ g.Reachable e) :
    g.Placed nest σ P := by
  induction h generalizing σ with
  | done traversed exit => exact hexit
  | again hx rest ih => exact ih (fun y hy => hqueue y (List.mem_cons_of_mem _ hy)) hexit
  | @node x queue traversed exit P hx hkind rest ih =>
    obtain ⟨hσ, hreach⟩ := hqueue x List.mem_cons_self
    refine ⟨⟨hkind, hσ, hreach⟩, ih (fun y hy => ?_) hexit⟩
    rcases List.mem_append.mp hy with hy | hy
    · exact hqueue y (List.mem_cons_of_mem _ hy)
    · have hfeeds := (mem_children hg hi).mp hy
      exact ⟨(hn.keeps x y hkind hfeeds).trans hσ, hreach.next hfeeds⟩
  | @leave x queue traversed exit P hx hkind rest ih =>
    obtain ⟨hσ, hreach⟩ := hqueue x List.mem_cons_self
    refine ih (fun y hy => hqueue y (List.mem_cons_of_mem _ hy)) fun e he => ?_
    obtain rfl := Option.some.inj he
    exact ⟨hkind, hσ, hreach⟩
  | @region x queue traversed exit I P hx hkind inside rest ihInside ihRest =>
    obtain ⟨hσ, hreach⟩ := hqueue x List.mem_cons_self
    have hI : g.Placed nest (x :: σ) I := by
      refine ihInside (fun y hy => ?_) fun e he => by cases he
      have hfeeds := (mem_children hg hi).mp hy
      exact ⟨(hn.opens x y hkind hfeeds).trans (by rw [hσ]), hreach.next hfeeds⟩
    refine ⟨⟨hkind, hσ, hreach⟩, hI, ihRest (fun y hy => ?_) hexit⟩
    rcases List.mem_append.mp hy with hy | hy
    · exact hqueue y (List.mem_cons_of_mem _ hy)
    · -- behind the end of the region, its marker is popped
      rw [beyond] at hy
      rcases he : I.exit? with _ | e
      · rw [he] at hy
        cases hy
      · rw [he] at hy
        obtain ⟨hend, hnest, hereach⟩ := hI.of_exit he
        have hfeeds := (mem_children hg hi).mp hy
        obtain ⟨q, hq⟩ := hn.closes e y hend hfeeds
        rw [hnest, List.cons.injEq] at hq
        exact ⟨hq.2.symm, hereach.next hfeeds⟩

end

/-! ### Nothing twice -/

theorem Plans.distinct (h : g.Plans queue traversed exit P) :
    P.Distinct ∧ (∀ x ∈ P.nodes, x ∉ traversed) ∧ ∀ p I, (p, I) ∈ P.regions → p ∉ traversed := by
  induction h with
  | done traversed exit =>
    exact ⟨trivial, fun _ h => (List.not_mem_nil h).elim, fun _ _ h => (List.not_mem_nil h).elim⟩
  | again hx rest ih => exact ih
  | @node x queue traversed exit P hx hkind rest ih =>
    obtain ⟨hd, hnodes, hregions⟩ := ih
    refine ⟨⟨fun h => hnodes x h List.mem_cons_self, hd⟩, fun y hy => ?_, fun p I hp ht => ?_⟩
    · rcases List.mem_cons.mp hy with rfl | hy
      · exact hx
      · exact fun ht => hnodes y hy (List.mem_cons_of_mem _ ht)
    · exact hregions p I hp (List.mem_cons_of_mem _ ht)
  | @leave x queue traversed exit P hx hkind rest ih =>
    obtain ⟨hd, hnodes, hregions⟩ := ih
    exact ⟨hd, fun y hy ht => hnodes y hy (List.mem_cons_of_mem _ ht),
      fun p I hp ht => hregions p I hp (List.mem_cons_of_mem _ ht)⟩
  | @region x queue traversed exit I P hx hkind inside rest ihInside ihRest =>
    obtain ⟨hd, hnodes, hregions⟩ := ihRest
    refine ⟨⟨fun J h => hregions x J h List.mem_cons_self, ihInside.1, hd⟩,
      fun y hy ht => hnodes y hy (List.mem_cons_of_mem _ ht), fun p J hp => ?_⟩
    rcases List.mem_cons.mp hp with hp | hp
    · obtain ⟨rfl, rfl⟩ := Prod.mk.inj hp
      exact hx
    · exact fun ht => hregions p J hp (List.mem_cons_of_mem _ ht)

/-- The stack of a region is its marker on top of the stack of that. -/
theorem Placed.map_fst_stacked (h : g.Placed nest σ P) :
    (Plan.stacked σ P).map Prod.fst = (P.inner.map Prod.fst).map fun q => q :: nest q := by
  induction P generalizing σ with
  | done _ => rfl
  | node _ rest ih => exact ih h.2
  | region p inside rest ihInside ihRest =>
    simp only [Plan.stacked, Plan.inner, List.map_append, List.map_cons, ihInside h.2.1,
      ihRest h.2.2, h.1.2.1]

/-- **No region is planned twice,** since no stack is. -/
theorem Placed.inner_nodup (h : g.Placed nest σ P) (hd : P.Distinct) :
    (P.inner.map Prod.fst).Nodup := by
  have hstacks : ((Plan.stacked σ P).map Prod.fst).Nodup := hd.stacked_nodup
  rw [h.map_fst_stacked] at hstacks
  exact hstacks.of_map _

/-! ### Nothing left out -/

/-- The operator is a member of the composite, or it ends a region and the composite was left. -/
def Meets (g : Graph) (P : Plan) (y : Handle) : Prop :=
  y ∈ P.nodes ∨ (∃ I, (y, I) ∈ P.regions) ∨ g.marker? y = some .endParallel ∧ P.exit? ≠ none

/-- What a run of the work list takes care of: the queue, the streams out of its members, and what
lies behind its regions. -/
structure Complete (g : Graph) (queue traversed : List Handle) (exit : Option Handle) (P : Plan) :
    Prop where
  exits : exit ≠ none → P.exit? ≠ none
  queued : ∀ y ∈ queue, y ∈ traversed ∨ g.Meets P y
  below : ∀ x ∈ P.nodes, ∀ y ∈ g.children x, y ∈ traversed ∨ g.Meets P y
  inside : ∀ p I, (p, I) ∈ P.regions → g.Plans (g.children p) [] none I
  behind : ∀ p I, (p, I) ∈ P.regions → ∀ y ∈ g.beyond I, y ∈ traversed ∨ g.Meets P y

theorem Meets.node (h : g.Meets P y) : g.Meets (.node x P) y := by
  rcases h with h | h
  · exact Or.inl (List.mem_cons_of_mem _ h)
  · exact Or.inr h

theorem Meets.region (h : g.Meets P y) : g.Meets (.region x I P) y := by
  rcases h with h | ⟨J, hJ⟩ | h
  · exact Or.inl h
  · exact Or.inr (Or.inl ⟨J, List.mem_cons_of_mem _ hJ⟩)
  · exact Or.inr (Or.inr h)

/-- What is traversed in one step is met by the plan that this step makes. -/
theorem met_of_step {P' : Plan} (hx : g.Meets P' x) (hstep : g.Meets P y → g.Meets P' y)
    (h : y ∈ x :: traversed ∨ g.Meets P y) : y ∈ traversed ∨ g.Meets P' y := by
  rcases h with h | h
  · rcases List.mem_cons.mp h with rfl | h
    · exact Or.inr hx
    · exact Or.inl h
  · exact Or.inr (hstep h)

theorem Plans.complete (h : g.Plans queue traversed exit P) :
    g.Complete queue traversed exit P := by
  induction h with
  | done traversed exit =>
    exact ⟨fun h => h, fun _ h => (List.not_mem_nil h).elim, fun _ h => (List.not_mem_nil h).elim,
      fun _ _ h => (List.not_mem_nil h).elim, fun _ _ h => (List.not_mem_nil h).elim⟩
  | again hx rest ih =>
    refine ⟨ih.exits, fun y hy => ?_, ih.below, ih.inside, ih.behind⟩
    rcases List.mem_cons.mp hy with rfl | hy
    · exact Or.inl hx
    · exact ih.queued y hy
  | @node x queue traversed exit P hx hkind rest ih =>
    have hmet : g.Meets (.node x P) x := Or.inl List.mem_cons_self
    refine ⟨ih.exits, fun y hy => ?_, fun z hz y hy => ?_, ih.inside,
      fun p I hp y hy => met_of_step hmet .node (ih.behind p I hp y hy)⟩
    · rcases List.mem_cons.mp hy with rfl | hy
      · exact Or.inr hmet
      · exact met_of_step hmet .node (ih.queued y (List.mem_append_left _ hy))
    · rcases List.mem_cons.mp hz with rfl | hz
      · exact met_of_step hmet .node (ih.queued y (List.mem_append_right _ hy))
      · exact met_of_step hmet .node (ih.below z hz y hy)
  | @leave x queue traversed exit P hx hkind rest ih =>
    have hleft : P.exit? ≠ none := ih.exits (Option.some_ne_none x)
    have hmet : g.Meets P x := Or.inr (Or.inr ⟨hkind, hleft⟩)
    refine ⟨fun _ => hleft, fun y hy => ?_,
      fun z hz y hy => met_of_step hmet id (ih.below z hz y hy), ih.inside,
      fun p I hp y hy => met_of_step hmet id (ih.behind p I hp y hy)⟩
    rcases List.mem_cons.mp hy with rfl | hy
    · exact Or.inr hmet
    · exact met_of_step hmet id (ih.queued y hy)
  | @region x queue traversed exit I P hx hkind inside rest ihInside ihRest =>
    have hmet : g.Meets (.region x I P) x := Or.inr (Or.inl ⟨I, List.mem_cons_self⟩)
    refine ⟨ihRest.exits, fun y hy => ?_,
      fun z hz y hy => met_of_step hmet .region (ihRest.below z hz y hy),
      fun p J hp => ?_, fun p J hp y hy => ?_⟩
    · rcases List.mem_cons.mp hy with rfl | hy
      · exact Or.inr hmet
      · exact met_of_step hmet .region (ihRest.queued y (List.mem_append_left _ hy))
    · rcases List.mem_cons.mp hp with hp | hp
      · obtain ⟨rfl, rfl⟩ := Prod.mk.inj hp
        exact inside
      · exact ihRest.inside p J hp
    · rcases List.mem_cons.mp hp with hp | hp
      · obtain ⟨rfl, rfl⟩ := Prod.mk.inj hp
        exact met_of_step hmet .region (ihRest.queued y (List.mem_append_right _ hy))
      · exact met_of_step hmet .region (ihRest.behind p J hp y hy)

theorem Plans.of_inner (h : g.Plans queue traversed exit P) (hp : (p, I) ∈ P.inner) :
    g.Plans (g.children p) [] none I := by
  induction h with
  | done traversed exit => cases hp
  | again hx rest ih => exact ih hp
  | node hx hkind rest ih => exact ih hp
  | leave hx hkind rest ih => exact ih hp
  | region hx hkind inside rest ihInside ihRest =>
    rcases List.mem_append.mp hp with hp | hp
    · exact ihInside hp
    · rcases List.mem_cons.mp hp with hp | hp
      · obtain ⟨rfl, rfl⟩ := Prod.mk.inj hp
        exact inside
      · exact ihRest hp

/-- The plan is that of the composite with a given stack: the main one, or that of the region whose
marker is the innermost one. -/
def Composes (nest : Handle → List Handle) (root : Plan) (σ : List Handle) (P : Plan) : Prop :=
  σ = [] ∧ P = root ∨ ∃ p, σ = p :: nest p ∧ (p, P) ∈ root.inner

section

variable {root : Plan} (hg : g.WellFormed) (hi : g.Indexed) (hn : g.Nesting nest)
  (hroot : g.Plans g.sources [] none root) (hmain : root.exit? = none)

include hg hi hn hroot

theorem placed_root : g.Placed nest [] root := by
  refine hroot.placed hg hi hn (fun s hs => ?_) fun e he => by cases he
  exact ⟨hn.source s hs, s, hs, .refl⟩

theorem placed_of_composes (h : Composes nest root σ P) : g.Placed nest σ P := by
  rcases h with ⟨rfl, rfl⟩ | ⟨p, rfl, hp⟩
  · exact placed_root hg hi hn hroot
  · exact ((placed_root hg hi hn hroot).of_inner hp).2.2

/-- A region is a member of the composite with the stack of its marker. -/
theorem composes_parent (hp : (p, P) ∈ root.inner) :
    ∃ R, Composes nest root (nest p) R ∧ (p, P) ∈ R.regions := by
  have hplaced := placed_root hg hi hn hroot
  rcases Plan.parent_of_mem_inner hp with h | ⟨r, R, hr, h⟩
  · exact ⟨root, Or.inl ⟨(hplaced.of_region h).1.2.1, rfl⟩, h⟩
  · exact ⟨R, Or.inr ⟨r, ((hplaced.of_inner hr).2.2.of_region h).1.2.1, hr⟩, h⟩

omit hg hi hn in
theorem complete_of_composes (h : Composes nest root σ P) :
    ∃ queue, g.Complete queue [] none P := by
  rcases h with ⟨_, rfl⟩ | ⟨p, _, hp⟩
  · exact ⟨_, hroot.complete⟩
  · exact ⟨_, (hroot.of_inner hp).complete⟩

omit hg hi hn hroot in
theorem mem_inner_of_composes (h : Composes nest root σ P) (hp : (p, I) ∈ P.regions) :
    (p, I) ∈ root.inner := by
  rcases h with ⟨_, rfl⟩ | ⟨q, _, hq⟩
  · exact Plan.mem_inner_of_mem_regions hp
  · exact Plan.inner_subset hq (Plan.mem_inner_of_mem_regions hp)

/-- Every composite has one plan. -/
theorem composes_unique {R : Plan} (hP : Composes nest root σ P) (hR : Composes nest root σ R) :
    P = R := by
  have hnd := (placed_root hg hi hn hroot).inner_nodup hroot.distinct.1
  rcases hP with ⟨rfl, rfl⟩ | ⟨p, rfl, hp⟩
  · rcases hR with ⟨_, rfl⟩ | ⟨q, hq, _⟩
    · rfl
    · cases hq
  · rcases hR with ⟨hσ, _⟩ | ⟨q, hq, hR⟩
    · cases hσ
    · obtain rfl := (List.cons.inj hq).1
      exact congrArg Prod.snd (List.inj_on_of_nodup_map hnd hp hR rfl)

omit hg hi hn in
theorem distinct_of_composes (h : Composes nest root σ P) : P.Distinct := by
  rcases h with ⟨_, rfl⟩ | ⟨p, _, hp⟩
  · exact hroot.distinct.1
  · exact hroot.distinct.1.of_inner hp

include hmain

/-- What a composite meets is one of its members, or the end that it was left by. -/
theorem settled (h : Composes nest root (nest y) P) (hy : g.Meets P y) :
    y ∈ P.nodes ∨ (∃ I, (y, I) ∈ P.regions) ∨ P.exit? = some y := by
  rcases hy with hy | hy | ⟨hend, hleft⟩
  · exact Or.inl hy
  · exact Or.inr (Or.inl hy)
  · have hplaced := placed_of_composes hg hi hn hroot h
    rcases h with ⟨_, rfl⟩ | ⟨p, hnest, _⟩
    · exact absurd hmain hleft
    · obtain ⟨e, he⟩ := Option.ne_none_iff_exists'.mp hleft
      obtain ⟨hend', hnest', _⟩ := hplaced.of_exit he
      rw [hnest] at hnest'
      exact Or.inr (Or.inr (hn.ends p e y _ _ hend' hend hnest' hnest ▸ he))

/-- **Everything reached is met,** in the composite that its stack says. -/
theorem met (hy : g.Reachable y) : ∃ P, Composes nest root (nest y) P ∧
    (y ∈ P.nodes ∨ (∃ I, (y, I) ∈ P.regions) ∨ P.exit? = some y) := by
  obtain ⟨s, hs, hsy⟩ := hy
  induction hsy with
  | refl =>
    have hcomp : Composes nest root (nest s) root := Or.inl ⟨hn.source s hs, rfl⟩
    have hmeets := (hroot.complete.queued s hs).resolve_left List.not_mem_nil
    exact ⟨root, hcomp, settled hg hi hn hroot hmain hcomp hmeets⟩
  | @tail x y _ hxy ih =>
    obtain ⟨P, hcomp, hx⟩ := ih
    have hplaced := placed_of_composes hg hi hn hroot hcomp
    have hy := (mem_children hg hi).mpr hxy
    obtain ⟨queue, hrun⟩ := complete_of_composes hroot hcomp
    rcases hx with hx | ⟨I, hI⟩ | hx
    · have hnest := hn.keeps x y (hplaced.of_node hx).1 hxy
      rw [← hnest] at hcomp
      have hmeets := (hrun.below x hx y hy).resolve_left List.not_mem_nil
      exact ⟨P, hcomp, settled hg hi hn hroot hmain hcomp hmeets⟩
    · have hnest := hn.opens x y (hplaced.of_region hI).1.1 hxy
      have hinner := mem_inner_of_composes hcomp hI
      have hcompI : Composes nest root (nest y) I := Or.inr ⟨x, hnest, hinner⟩
      have hmeets := ((hroot.of_inner hinner).complete.queued y hy).resolve_left List.not_mem_nil
      exact ⟨I, hcompI, settled hg hi hn hroot hmain hcompI hmeets⟩
    · -- the composite around the region goes on behind its end
      obtain ⟨q, hq⟩ := hn.closes x y (hplaced.of_exit hx).1 hxy
      rcases hcomp with ⟨_, rfl⟩ | ⟨p, hnest, hp⟩
      · rw [hmain] at hx
        cases hx
      · rw [hnest, List.cons.injEq] at hq
        obtain ⟨R, hcompR, hR⟩ := composes_parent hg hi hn hroot hp
        obtain ⟨_, hrunR⟩ := complete_of_composes hroot hcompR
        rw [hq.2] at hcompR
        have hbeyond : y ∈ g.beyond P := by
          rw [beyond, hx]
          exact hy
        have hmeets := (hrunR.behind p P hR y hbeyond).resolve_left List.not_mem_nil
        exact ⟨R, hcompR, settled hg hi hn hroot hmain hcompR hmeets⟩

/-- An operator that is reached and plain is a member of the composite with its stack. -/
theorem node_of_plain (hy : g.Reachable y) (hkind : g.IsPlain y) :
    ∃ P, Composes nest root (nest y) P ∧ y ∈ P.nodes := by
  obtain ⟨P, hcomp, hy | ⟨I, hI⟩ | hy⟩ := met hg hi hn hroot hmain hy
  · exact ⟨P, hcomp, hy⟩
  · exact absurd ((placed_of_composes hg hi hn hroot hcomp).of_region hI).1.1 hkind.1
  · exact absurd ((placed_of_composes hg hi hn hroot hcomp).of_exit hy).1 hkind.2

/-- A region that is reached is planned, in the composite with the stack of its start. -/
theorem region_of_parallel (hy : g.Reachable y) (hkind : g.marker? y = some .parallel) :
    ∃ P I, Composes nest root (nest y) P ∧ (y, I) ∈ P.regions ∧ (y, I) ∈ root.inner := by
  obtain ⟨P, hcomp, hy | ⟨I, hI⟩ | hy⟩ := met hg hi hn hroot hmain hy
  · exact absurd hkind ((placed_of_composes hg hi hn hroot hcomp).of_node hy).1.1
  · exact ⟨P, I, hcomp, hI, mem_inner_of_composes hcomp hI⟩
  · rw [((placed_of_composes hg hi hn hroot hcomp).of_exit hy).1] at hkind
    cases hkind

/-- An end that is reached is the one by which the composite with its stack is left. -/
theorem exit_of_end (hy : g.Reachable y) (hkind : g.marker? y = some .endParallel) :
    ∃ P, Composes nest root (nest y) P ∧ P.exit? = some y := by
  obtain ⟨P, hcomp, hy | ⟨I, hI⟩ | hy⟩ := met hg hi hn hroot hmain hy
  · exact absurd hkind ((placed_of_composes hg hi hn hroot hcomp).of_node hy).1.2
  · rw [((placed_of_composes hg hi hn hroot hcomp).of_region hI).1.1] at hkind
    cases hkind
  · exact ⟨P, hcomp, hy⟩

end

end Graph

end StreamTopology
