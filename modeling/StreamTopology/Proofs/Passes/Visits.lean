import StreamTopology.Proofs.Passes.Success

/-!
# Visitors on the way

`GraphM.visit` computes a walk first and calls its visitor afterwards. Here is the loop that does
both at once: it calls the visitor when an operator has its turn, and looks for what comes next in
the graph that the call leaves behind. A visitor that only annotates changes nothing the loop looks
at, so both are the same, and what is known of walks holds of the loop.

The loop is a relation and not a function, for a visitor may be anything; that it comes to an end is
then a theorem, and not something its definition must provide.

## Main definitions

* `Visitor`: on the operators of a graph it succeeds, and it only annotates.
* `Turns`: a loop that has come to an end.

## Main results

* `visit_bounded`: the loop comes to an end, and what it has called the visitor on by then.
* `besideStart_unvisited`: a start that it does not call the visitor on.
-/

namespace StreamTopology

open Relation

/-! ### What annotations do not change -/

namespace Graph

variable {g t : Graph} {b : Bounds} {x : Handle} {seen starts : List Handle}

theorem isGate_congr (h : (t.get? x).map Operator.kind = (g.get? x).map Operator.kind) :
    t.isGate b x = g.isGate b x := by
  have hmarker : (t.get? x).bind Operator.marker? = (g.get? x).bind Operator.marker? :=
    marker?_congr h
  rw [isGate, isGate, hmarker]

section

variable (h : g.Annotates t)

include h

theorem Annotates.reachAll : t.reachAll b x seen = g.reachAll b x seen :=
  reachAll_congr (fun _ => h.parents) (fun _ => h.children) fun y => isGate_congr (h.kind y)

theorem Annotates.walk : t.walk b starts = g.walk b starts :=
  walk_congr (fun _ => h.parents) (fun _ => h.children) fun y => isGate_congr (h.kind y)

end

end Graph

/-! ### The loop -/

section

variable {σ : Type}

/-- On every operator of the graph the visitor succeeds, and it does nothing to the graph but
annotate. What else is in its state is its own business. -/
def Visitor (graphOf : σ → Graph) (g : Graph) (visitor : Handle → ExceptT Error (StateM σ) Unit) :
    Prop :=
  ∀ x s, g.contains x = true → g.Annotates (graphOf s) →
    Succeeds (fun s' => g.Annotates (graphOf s')) (visitor x) s

/-- From a queue and the operators seen so far, the loop has called the visitor on a list of
operators, in order, and has led from one state to the other. -/
inductive Turns (b : Bounds) (graphOf : σ → Graph)
    (visitor : Handle → ExceptT Error (StateM σ) Unit) :
    List Handle → List Handle → σ → List Handle → σ → Prop
  | stop {seen : List Handle} {s : σ} : Turns b graphOf visitor [] seen s [] s
  | skip {x : Handle} {queue seen called : List Handle} {s s' : σ} (hx : x ∈ seen)
      (rest : Turns b graphOf visitor queue seen s called s') :
      Turns b graphOf visitor (x :: queue) seen s called s'
  | call {x : Handle} {queue seen called : List Handle} {s t s' : σ} (hx : x ∉ seen)
      (call : Yields (visitor x) s () t)
      (rest : Turns b graphOf visitor (queue ++ ((graphOf t).reachAll b x (x :: seen)).1)
        ((graphOf t).reachAll b x (x :: seen)).2 t called s') :
      Turns b graphOf visitor (x :: queue) seen s (x :: called) s'

variable {graphOf : σ → Graph} {g : Graph} {s s' : σ} {b : Bounds}
  {visitor : Handle → ExceptT Error (StateM σ) Unit} {x : Handle}
  {queue seen starts called : List Handle}

theorem Visitor.annotates (hv : Visitor graphOf g visitor) (hx : g.contains x = true)
    (h : g.Annotates (graphOf s)) (hcall : Yields (visitor x) s () s') :
    g.Annotates (graphOf s') := by
  obtain ⟨_, t, hrun, hann⟩ := hv x s hx h
  obtain ⟨_, rfl⟩ := hrun.unique hcall
  exact hann

section

variable (hg : g.WellFormed)

include hg

/-- What is reached from live operators is live. -/
theorem live_of_reachAll (hqueue : ∀ y ∈ x :: queue, g.contains y = true) :
    ∀ y ∈ queue ++ (g.reachAll b x seen).1, g.contains y = true := by
  intro y hy
  rcases List.mem_append.mp hy with hy | hy
  · exact hqueue y (List.mem_cons_of_mem _ hy)
  · exact Graph.contains_of_step hg (Graph.step_of_mem_reachAll hy)

/-- **Termination.** From live operators the loop comes to an end. -/
theorem exists_turns (hv : Visitor graphOf g visitor) (hqueue : ∀ y ∈ queue, g.contains y = true) :
    ∀ s, g.Annotates (graphOf s) →
      ∃ called s', Turns b graphOf visitor queue seen s called s' := by
  -- along the recursion of the walk through `g`, whose measure the calls do not change
  induction queue, seen using Graph.walkFrom.induct g b with
  | case1 seen =>
    intro s _
    exact ⟨[], s, .stop⟩
  | case2 x queue seen hx ih =>
    intro s h
    obtain ⟨called, s', hturns⟩ := ih (fun y hy => hqueue y (List.mem_cons_of_mem _ hy)) s h
    exact ⟨called, s', .skip hx hturns⟩
  | case3 x queue seen hx reached ih =>
    intro s h
    obtain ⟨_, t, hcall, hann⟩ := hv x s (hqueue x List.mem_cons_self) h
    obtain ⟨called, s', hturns⟩ := ih (live_of_reachAll hg hqueue) t hann
    refine ⟨x :: called, s', .call hx hcall ?_⟩
    rwa [hann.reachAll]

/-- **The loop is the walk.** It calls the visitor on what the walk visits, in the same order. -/
theorem Turns.walks (hv : Visitor graphOf g visitor) (hqueue : ∀ y ∈ queue, g.contains y = true)
    (h : g.Annotates (graphOf s)) (hturns : Turns b graphOf visitor queue seen s called s') :
    called = g.walkFrom b queue seen ∧ Yields (called.forM visitor) s () s' := by
  induction hturns with
  | stop => exact ⟨Graph.walkFrom_nil.symm, yields_forM_nil.mpr rfl⟩
  | skip hx _ ih =>
    rw [Graph.walkFrom_seen hx]
    exact ih (fun y hy => hqueue y (List.mem_cons_of_mem _ hy)) h
  | call hx hcall _ ih =>
    have hann := hv.annotates (hqueue _ List.mem_cons_self) h hcall
    rw [hann.reachAll] at ih
    obtain ⟨hwalk, hrun⟩ := ih (live_of_reachAll hg hqueue) hann
    rw [Graph.walkFrom_cons hx, ← hwalk]
    exact ⟨rfl, yields_forM_cons.mpr ⟨_, hcall, hrun⟩⟩

/-- Where the state is the graph, `GraphM.visit` does what the loop does. -/
theorem Turns.visit {visitor : Handle → GraphM Unit} {g' : Graph} (hv : Visitor id g visitor)
    (hstarts : ∀ x ∈ starts, g.contains x = true)
    (hturns : Turns b id visitor starts [] g called g') :
    Yields (GraphM.visit b starts visitor) g () g' := by
  obtain ⟨rfl, hrun⟩ := hturns.walks hg hv hstarts (.refl g)
  exact yields_get_bind.mpr hrun

end

/-- **Bounded visits.** From live starts the loop comes to an end. By then it has called the visitor
on what the walk visits, in the same order, and on no operator twice. What it has called the visitor
on is closed under streams in the directions of the walk, boundaries excepted, and is reached from
the starts in steps of the walk. The starts are among it, but for the boundaries among them that
stand next to a start before them that is. -/
theorem visit_bounded (hg : (graphOf s).WellFormed) (hv : Visitor graphOf (graphOf s) visitor)
    (hstarts : ∀ x ∈ starts, (graphOf s).contains x = true) :
    (∃ called s', Turns b graphOf visitor starts [] s called s') ∧
      ∀ called s', Turns b graphOf visitor starts [] s called s' →
        called = (graphOf s).walk b starts ∧ Yields (called.forM visitor) s () s' ∧
          called.Nodup ∧
          (∀ x ∈ called, ∀ z, (graphOf s).NextTo b x z → (graphOf s).isGate b z = false →
            z ∈ called) ∧
          (∀ z ∈ called, ∃ x ∈ starts, ReflTransGen ((graphOf s).Step b) x z) ∧
          ∀ done x rest, starts = done ++ x :: rest → x ∉ done →
            (x ∈ called ↔ ¬ ((graphOf s).isGate b x = true ∧
              ∃ y ∈ done, y ∈ called ∧ (graphOf s).NextTo b y x)) := by
  refine ⟨exists_turns hg hv hstarts s (.refl _), fun called s' hturns => ?_⟩
  obtain ⟨hwalk, hrun⟩ := hturns.walks hg hv hstarts (.refl _)
  obtain rfl : called = (graphOf s).walk b starts := hwalk
  refine ⟨rfl, hrun, Graph.walk_nodup, fun x hx z hxz hz => ?_, fun z hz => ?_, ?_⟩
  · exact Graph.walk_closes hx hxz hz
  · exact Graph.walk_steps hz
  · rintro done x rest rfl hx
    exact Graph.start_mem_walk_iff hx

end

/-! ### A start next to a start -/

/-- A marker below an operator. -/
def besideStart : Graph := Graph.reindexed
  { name := "besideStart"
    slots := [
      some { name := "a", kind := "Beacon"
             outputs := [{ name := "ao", connections := ["mi"] }] },
      some { name := "m", kind := "$Isolate$"
             inputs := [{ name := "mi", connections := ["ao"] }] }]
    order := (List.range 2).map Handle.mk }

/-- A visitor that marks what it is called on. -/
def flagAutonomous (x : Handle) : GraphM Unit :=
  GraphM.update x fun op => { op with autonomous := true }

theorem visitor_flagAutonomous (g : Graph) : Visitor id g flagAutonomous :=
  fun _ _ hx h => succeeds_update h hx fun _ => rfl

theorem visit_bounded_besideStart :
    besideStart.WellFormed ∧ Visitor id besideStart flagAutonomous ∧
      (∀ s ∈ besideStart.order, besideStart.contains s = true) ∧
      ∃ called t', Turns (.around [.isolate]) id flagAutonomous besideStart.order [] besideStart
        called t' := by
  have hof : Graph.ofDescription besideStart.toDescription = .ok besideStart := by decide
  have hg := Graph.WellFormed.ofDescription hof
  have hv := visitor_flagAutonomous besideStart
  have hlive : ∀ s ∈ besideStart.order, besideStart.contains s = true := by decide
  exact ⟨hg, hv, hlive, (visit_bounded (s := besideStart) hg hv hlive).1⟩

/-- **A start that is not visited.** The operator above the marker has the first turn, and by the
time that the marker has its own, it has been passed around. -/
theorem besideStart_unvisited :
    besideStart.WellFormed ∧ Visitor id besideStart flagAutonomous ∧
      (∀ s ∈ besideStart.order, besideStart.contains s = true) ∧
      ∀ called t', Turns (.around [.isolate]) id flagAutonomous besideStart.order [] besideStart
        called t' → ⟨1⟩ ∈ besideStart.order ∧ ⟨1⟩ ∉ called := by
  have hof : Graph.ofDescription besideStart.toDescription = .ok besideStart := by decide
  have hg := Graph.WellFormed.ofDescription hof
  have hv := visitor_flagAutonomous besideStart
  have hlive : ∀ s ∈ besideStart.order, besideStart.contains s = true := by decide
  have hwalk : besideStart.walk (.around [.isolate]) besideStart.order = [⟨0⟩] :=
    Graph.walkFrom_of_within (n := 4) (by decide)
  refine ⟨hg, hv, hlive, fun called t' hturns => ⟨by decide, ?_⟩⟩
  obtain ⟨rfl, -⟩ := hturns.walks hg hv hlive (.refl _)
  rw [show besideStart.walkFrom _ _ [] = [⟨0⟩] from hwalk]
  decide

end StreamTopology
