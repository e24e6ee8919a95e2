import StreamTopology.Proofs.Passes.Visits

/-!
# Boundaries on the way

A walk tests the neighbours of an operator for being boundaries. It does not test what it finds
behind a boundary, so a boundary next to a boundary joins the queue like any other operator, and has
its turn unless an operator next to it has had one by then.

To say what a loop calls its visitor on, it need not come to an end, nor need the visitor succeed,
nor leave streams and kinds alone. So the subject here is a single call: everything that the loop
has done up to it, and the state in which the visitor is called.

## Main definitions

* `Calls`: a loop that is about to call its visitor.

## Main results

* `Calls.walks`: the calls of a visitor that only annotates are the walk.
* `Calls.mem_starts`: where no two boundaries are next to each other, none but starts are visited.
* `visit_boundaries`: which boundaries the visitor is called on.
* `twinGates_visited`: a boundary that is visited and is no start.
-/

namespace StreamTopology

/-! ### Calls of a loop -/

section

variable {σ : Type}

/-- From a queue, the operators seen so far and a state, the loop comes to call the visitor on an
operator in a state. The list has the operators that it has called the visitor on before, in order,
each with the state that the call has left behind. -/
inductive Calls (b : Bounds) (graphOf : σ → Graph)
    (visitor : Handle → ExceptT Error (StateM σ) Unit) :
    List Handle → List Handle → σ → List (Handle × σ) → Handle → σ → Prop
  | here {x : Handle} {queue seen : List Handle} {s : σ} (hx : x ∉ seen) :
      Calls b graphOf visitor (x :: queue) seen s [] x s
  | skip {x z : Handle} {queue seen : List Handle} {s s' : σ} {done : List (Handle × σ)}
      (hx : x ∈ seen) (rest : Calls b graphOf visitor queue seen s done z s') :
      Calls b graphOf visitor (x :: queue) seen s done z s'
  | call {x z : Handle} {queue seen : List Handle} {s t s' : σ} {done : List (Handle × σ)}
      (hx : x ∉ seen) (call : Yields (visitor x) s () t)
      (rest : Calls b graphOf visitor (queue ++ ((graphOf t).reachAll b x (x :: seen)).1)
        ((graphOf t).reachAll b x (x :: seen)).2 t done z s') :
      Calls b graphOf visitor (x :: queue) seen s ((x, t) :: done) z s'

variable {graphOf : σ → Graph} {g : Graph} {s s' : σ} {b : Bounds} {z : Handle}
  {visitor : Handle → ExceptT Error (StateM σ) Unit} {queue seen starts : List Handle}
  {done : List (Handle × σ)}

/-- The operator waits in the queue, or an operator visited before leads to it. -/
theorem Calls.origin (h : Calls b graphOf visitor queue seen s done z s') :
    z ∈ queue ∨ ∃ c ∈ done, (graphOf c.2).Step b c.1 z := by
  induction h with
  | here _ => exact Or.inl List.mem_cons_self
  | skip _ _ ih => exact ih.imp_left (List.mem_cons_of_mem _)
  | @call x _ _ _ _ t _ _ _ _ _ ih =>
    rcases ih with hz | ⟨c, hc, hstep⟩
    · rcases List.mem_append.mp hz with hz | hz
      · exact Or.inl (List.mem_cons_of_mem _ hz)
      · exact Or.inr ⟨(x, t), List.mem_cons_self, Graph.step_of_mem_reachAll hz⟩
    · exact Or.inr ⟨c, List.mem_cons_of_mem _ hc, hstep⟩

theorem Calls.not_seen (h : Calls b graphOf visitor queue seen s done z s') : z ∉ seen := by
  induction h with
  | here hx => exact hx
  | skip _ _ ih => exact ih
  | call _ _ _ ih =>
    exact fun hz => ih (Graph.reachAll_seen_subset _ _ _ _ (List.mem_cons_of_mem _ hz))

/-- A boundary next to an operator visited before has been marked as seen, and is not visited. -/
theorem Calls.not_nextTo (h : Calls b graphOf visitor queue seen s done z s') :
    ∀ c ∈ done, (graphOf c.2).isGate b z = true → ¬ (graphOf c.2).NextTo b c.1 z := by
  induction h with
  | here _ => exact fun c hc => absurd hc List.not_mem_nil
  | skip _ _ ih => exact ih
  | call _ _ hrest ih =>
    intro c hc hgate hnext
    rcases List.mem_cons.mp hc with rfl | hc
    · exact hrest.not_seen (Graph.mem_reachAll_seen.mpr (Or.inr ⟨hgate, hnext⟩))
    · exact ih c hc hgate hnext

/-- **The calls are the walk.** What the visitor has been called on, and what it is called on now,
is what the walk visits first. -/
theorem Calls.walks (hv : ∀ x, Annotating graphOf (visitor x)) (hs : g.Annotates (graphOf s))
    (h : Calls b graphOf visitor queue seen s done z s') :
    ∃ rest, g.walkFrom b queue seen = done.map Prod.fst ++ z :: rest := by
  induction h with
  | here hx => exact ⟨_, Graph.walkFrom_cons hx⟩
  | skip hx _ ih =>
    rw [Graph.walkFrom_seen hx]
    exact ih hs
  | @call x _ queue seen _ _ _ _ hx hcall _ ih =>
    have hann := hs.trans (hv _ _ _ _ hcall)
    rw [hann.reachAll] at ih
    obtain ⟨rest, hwalk⟩ := ih hann
    exact ⟨rest, by rw [Graph.walkFrom_cons hx, hwalk, List.map_cons, List.cons_append]⟩

/-- A boundary that is visited without being a start is reached around another one. -/
theorem Calls.pastGate (h : Calls b graphOf visitor starts [] s done z s')
    (hgate : ∀ c ∈ done, (graphOf c.2).isGate b z = true) :
    z ∈ starts ∨ ∃ c ∈ done, (graphOf c.2).PastGate b c.1 z := by
  rcases h.origin with hz | ⟨c, hc, ⟨hopen, _⟩ | hpast⟩
  · exact Or.inl hz
  · rw [hgate c hc] at hopen
    cases hopen
  · exact Or.inr ⟨c, hc, hpast⟩

/-- Where no boundary follows another, a boundary that is visited is a start. -/
theorem Calls.mem_starts (h : Calls b graphOf visitor starts [] s done z s')
    (hgate : ∀ c ∈ done, (graphOf c.2).isGate b z = true)
    (hapart : ∀ c ∈ done, (graphOf c.2).Mirrored ∧ (graphOf c.2).GatesApart b) : z ∈ starts := by
  refine (h.pastGate hgate).resolve_right ?_
  rintro ⟨c, hc, k, hk, ⟨_, hz⟩ | ⟨_, hz⟩⟩
  · have hopen := (hapart c hc).2.children (hapart c hc).1 hk hz
    rw [hgate c hc] at hopen
    cases hopen
  · have hopen := (hapart c hc).2 k hk z hz
    rw [hgate c hc] at hopen
    cases hopen

/-- **Boundaries that are visited.** When the visitor, whatever it does, is called on an operator
that has been a boundary all along, that operator is no neighbour of one visited before, in the
directions of the walk. It is a start, or stands behind another boundary that is a neighbour of one;
so it is a start where no boundary follows another. What a visitor that only annotates is called on
is what the walk visits. -/
theorem visit_boundaries (h : Calls b graphOf visitor starts [] s done z s')
    (hgate : ∀ c ∈ done, (graphOf c.2).isGate b z = true) :
    (∀ c ∈ done, ¬ (graphOf c.2).NextTo b c.1 z) ∧
      (z ∈ starts ∨ ∃ c ∈ done, (graphOf c.2).PastGate b c.1 z) ∧
      ((∀ c ∈ done, (graphOf c.2).Mirrored ∧ (graphOf c.2).GatesApart b) → z ∈ starts) ∧
      ((∀ x, Annotating graphOf (visitor x)) →
        ∃ rest, (graphOf s).walk b starts = done.map Prod.fst ++ z :: rest) :=
  ⟨fun c hc => h.not_nextTo c hc (hgate c hc), h.pastGate hgate, h.mem_starts hgate,
    fun hv => h.walks hv (.refl _)⟩

end

/-! ### A boundary beside a boundary -/

/-- A marker above an operator and another marker. -/
def twinGates : Graph := Graph.reindexed
  { name := "twinGates"
    slots := [
      some { name := "k", kind := "$Isolate$"
             outputs := [{ name := "ko", connections := ["ci", "zi"] }] },
      some { name := "c", kind := "Custom"
             inputs := [{ name := "ci", connections := ["ko"] }] },
      some { name := "z", kind := "$Isolate$"
             inputs := [{ name := "zi", connections := ["ko"] }] }]
    order := (List.range 3).map Handle.mk }

/-- What is left when the operator below the first marker has been visited. -/
def twinGatesFlagged : Graph :=
  twinGates.mapAt [⟨1⟩] fun op => { op with autonomous := true }

theorem annotating_flagAutonomous (x : Handle) : Annotating id (flagAutonomous x) :=
  confined_update (annotates_of_skeleton fun _ => rfl)

/-- From the operator below the first marker the loop comes to the other one. -/
theorem twinGates_calls : Calls (.around [.isolate]) id flagAutonomous [⟨1⟩] [] twinGates
    [(⟨1⟩, twinGatesFlagged)] ⟨2⟩ twinGatesFlagged :=
  .call List.not_mem_nil (by decide) (.here (by decide))

theorem visit_boundaries_twinGates :
    Calls (.around [.isolate]) id flagAutonomous [⟨1⟩] [] twinGates
        [(⟨1⟩, twinGatesFlagged)] ⟨2⟩ twinGatesFlagged ∧
      (∀ c ∈ [((⟨1⟩ : Handle), twinGatesFlagged)],
        c.2.isGate (.around [.isolate]) ⟨2⟩ = true) ∧
      ((⟨2⟩ : Handle) ∈ [(⟨1⟩ : Handle)] ∨ ∃ c ∈ [((⟨1⟩ : Handle), twinGatesFlagged)],
        c.2.PastGate (.around [.isolate]) c.1 ⟨2⟩) := by
  have hgate : ∀ c ∈ [((⟨1⟩ : Handle), twinGatesFlagged)],
      c.2.isGate (.around [.isolate]) ⟨2⟩ = true := by decide
  exact ⟨twinGates_calls, hgate, (visit_boundaries twinGates_calls hgate).2.1⟩

/-- **A boundary that is visited.** It is no start: the walk goes around the first marker and takes
what it finds below for operators that are no boundaries. -/
theorem twinGates_visited :
    Graph.ofDescription twinGates.toDescription = .ok twinGates ∧
      (∀ x, Annotating id (flagAutonomous x)) ∧
      twinGates.isGate (.around [.isolate]) ⟨2⟩ = true ∧ (⟨2⟩ : Handle) ∉ [(⟨1⟩ : Handle)] ∧
      twinGates.walk (.around [.isolate]) [⟨1⟩] = [⟨1⟩, ⟨2⟩] ∧
      Calls (.around [.isolate]) id flagAutonomous [⟨1⟩] [] twinGates
        [(⟨1⟩, twinGatesFlagged)] ⟨2⟩ twinGatesFlagged :=
  ⟨by decide, annotating_flagAutonomous, by decide, by decide,
    Graph.walkFrom_of_within (n := 4) (by decide), twinGates_calls⟩

end StreamTopology
