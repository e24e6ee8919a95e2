import StreamTopology.Graph.Basic

/-!
# Bounded walks

A breadth-first walk over the streams of a graph that does not pass through certain markers, its
*boundaries*. A boundary is never visited. Reached from below it leads to its other children, and
reached from above to its other parents, so that a walk in both directions covers what is connected
to its starts on this side of every boundary.

## Main definitions

* `Bounds`: the directions and the boundaries of a walk.
* `Graph.walk`: the visited operators, in order, each once.

## Implementation notes

A visitor may change annotations but neither ports nor kinds, so the walk does not depend on it: it
is computed first, and visited afterwards by `Graph.visit`.
-/

namespace StreamTopology

/-- The directions of a walk. -/
inductive Direction where
  | up
  | down
  | both
  deriving DecidableEq, Repr, Inhabited

/-- Where a walk goes and what it does not pass. -/
structure Bounds where
  direction : Direction := .down
  boundaries : List Marker := []
  deriving DecidableEq, Repr, Inhabited

/-- A walk in both directions with these boundaries. -/
def Bounds.around (boundaries : List Marker) : Bounds := ⟨.both, boundaries⟩

namespace Graph

/-- The operator is a boundary of the walk. -/
def isGate (g : Graph) (b : Bounds) (id : Handle) : Bool :=
  match (g.get? id).bind Operator.marker? with
  | some m => b.boundaries.contains m
  | none => false

/-- What a walk reaches from an operator on one side: the neighbours that are no boundaries, then
what lies beyond the boundaries among them. `seen` grows by these boundaries. -/
def reach (g : Graph) (b : Bounds) (neighbours beyond : Handle → List Handle) (id : Handle)
    (seen : List Handle) : List Handle × List Handle :=
  let fresh := (neighbours id).filter fun x => !seen.contains x
  let gates := fresh.filter (g.isGate b)
  let seen := gates ++ seen
  ((fresh.filter fun x => !g.isGate b x)
    ++ (gates.flatMap beyond).filter (fun x => !seen.contains x), seen)

/-- What a walk reaches above an operator. -/
def reachUp (g : Graph) (b : Bounds) (id : Handle) (seen : List Handle) :
    List Handle × List Handle :=
  if b.direction = .down then ([], seen) else g.reach b g.parents g.children id seen

/-- What a walk reaches below an operator. -/
def reachDown (g : Graph) (b : Bounds) (id : Handle) (seen : List Handle) :
    List Handle × List Handle :=
  if b.direction = .up then ([], seen) else g.reach b g.children g.parents id seen

/-- What a walk reaches from an operator: above first, then below. -/
def reachAll (g : Graph) (b : Bounds) (id : Handle) (seen : List Handle) :
    List Handle × List Handle :=
  let up := g.reachUp b id seen
  let down := g.reachDown b id up.2
  (up.1 ++ down.1, down.2)

/-- The operators that are not among those seen. -/
def unseen (g : Graph) (seen : List Handle) : List Handle :=
  g.order.filter fun x => !seen.contains x

theorem reach_seen_subset (g : Graph) (b : Bounds) (neighbours beyond : Handle → List Handle)
    (id : Handle) (seen : List Handle) : seen ⊆ (g.reach b neighbours beyond id seen).2 := by
  intro x hx
  simp [reach, hx]

theorem reachAll_seen_subset (g : Graph) (b : Bounds) (id : Handle) (seen : List Handle) :
    seen ⊆ (g.reachAll b id seen).2 := by
  have up : seen ⊆ (g.reachUp b id seen).2 := by
    unfold reachUp
    split
    · exact fun _ h => h
    · exact reach_seen_subset ..
  have down : ∀ s, s ⊆ (g.reachDown b id s).2 := by
    intro s
    unfold reachDown
    split
    · exact fun _ h => h
    · exact reach_seen_subset ..
  exact fun x hx => down _ (up hx)

theorem children_eq_nil (g : Graph) {id : Handle} (h : id ∉ g.order) : g.children id = [] := by
  simp [children, h]

theorem parents_eq_nil (g : Graph) {id : Handle} (h : id ∉ g.order) : g.parents id = [] := by
  simp [parents, h]

/-- Nothing is reached from an operator that is not in the graph. -/
theorem reachAll_eq_nil (g : Graph) (b : Bounds) {id : Handle} (seen : List Handle)
    (h : id ∉ g.order) : (g.reachAll b id seen).1 = [] := by
  simp only [reachAll, reachUp, reachDown]
  split <;> split <;> simp [reach, children_eq_nil g h, parents_eq_nil g h]

theorem length_unseen_le (g : Graph) {s t : List Handle} (h : s ⊆ t) :
    (g.unseen t).length ≤ (g.unseen s).length := by
  simp only [unseen, ← List.countP_eq_length_filter]
  apply List.countP_mono_left
  intro x _ hx
  simp only [List.contains_eq_mem, Bool.not_eq_eq_eq_not, Bool.not_true, decide_eq_false_iff_not]
    at hx ⊢
  exact fun hs => hx (h hs)

private theorem countP_lt_of_mem {α : Type} {p q : α → Bool} {x : α} :
    ∀ {l : List α}, (∀ y ∈ l, q y = true → p y = true) → x ∈ l → p x = true → q x = false →
      l.countP q < l.countP p
  | y :: l, himp, hx, hp, hq => by
    have mono : l.countP q ≤ l.countP p :=
      List.countP_mono_left fun z hz => himp z (List.mem_cons_of_mem _ hz)
    rcases List.mem_cons.1 hx with rfl | hx
    · simp only [List.countP_cons, hp, hq]
      simp
      omega
    · have ih := countP_lt_of_mem (fun z hz => himp z (List.mem_cons_of_mem _ hz)) hx hp hq
      have hy := himp y List.mem_cons_self
      have step : (if q y = true then 1 else 0) ≤ (if p y = true then 1 else 0) := by
        by_cases h : q y = true
        · simp [h, hy h]
        · simp [h]
      rw [List.countP_cons, List.countP_cons]
      omega

/-- Seeing an operator of the graph for the first time leaves fewer to see. -/
theorem length_unseen_lt (g : Graph) {s t : List Handle} {x : Handle} (hst : s ⊆ t)
    (hx : x ∈ g.order) (hs : x ∉ s) (ht : x ∈ t) :
    (g.unseen t).length < (g.unseen s).length := by
  simp only [unseen, ← List.countP_eq_length_filter]
  apply countP_lt_of_mem (x := x) _ hx
  · simpa using hs
  · simpa using ht
  · intro y _ hy
    simp only [List.contains_eq_mem, Bool.not_eq_eq_eq_not, Bool.not_true,
      decide_eq_false_iff_not] at hy ⊢
    exact fun h => hy (hst h)

/-- The operators that a walk visits, in order, from those waiting in a queue. -/
def walkFrom (g : Graph) (b : Bounds) : List Handle → List Handle → List Handle
  | [], _ => []
  | x :: queue, seen =>
    if x ∈ seen then walkFrom g b queue seen
    else
      let reached := g.reachAll b x (x :: seen)
      x :: walkFrom g b (queue ++ reached.1) reached.2
termination_by queue seen => ((g.unseen seen).length, queue.length)
decreasing_by
  · exact Prod.Lex.right _ (by simp)
  · rename_i hx
    have sub : x :: seen ⊆ (g.reachAll b x (x :: seen)).2 := reachAll_seen_subset ..
    by_cases hord : x ∈ g.order
    · exact Prod.Lex.left _ _ (length_unseen_lt g (fun _ h => sub (List.mem_cons_of_mem _ h)) hord
        hx (sub List.mem_cons_self))
    · have hnil : (g.reachAll b x (x :: seen)).1 = [] := reachAll_eq_nil g b _ hord
      have hle := length_unseen_le g (s := seen) (t := (g.reachAll b x (x :: seen)).2)
        fun _ h => sub (List.mem_cons_of_mem _ h)
      rcases Nat.lt_or_eq_of_le hle with hlt | heq
      · exact Prod.Lex.left _ _ hlt
      · simp only [hnil, heq, List.append_nil]
        exact Prod.Lex.right _ (by simp)

/-- The operators that a walk visits from its starts, in order, each once. -/
def walk (g : Graph) (b : Bounds) (starts : List Handle) : List Handle := g.walkFrom b starts []

end Graph

/-- Walks from the starts and calls the visitor on every operator, until it fails. -/
def GraphM.visit (b : Bounds) (starts : List Handle) (visitor : Handle → GraphM Unit) :
    GraphM Unit := do
  ((← get).walk b starts).forM visitor

end StreamTopology
