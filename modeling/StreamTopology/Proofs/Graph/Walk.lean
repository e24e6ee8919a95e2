import StreamTopology.Proofs.Graph.Streams
import StreamTopology.Graph.Walk
import Mathlib.Logic.Relation

/-!
# What a walk visits

A walk never passes a boundary. Where it comes to one, it goes on around it, at the other operators
on the side it came from, and it does so only once: when the walk comes to the boundary again from
the other side, nothing more is reached. So what is visited is closed under streams but not under
steps around a boundary, and `Graph.walk_around` says what is left of that for walks in both
directions: all parents are visited, or all children.

A start that is a boundary is visited, unless a start before it was next to it: then it has been
passed around when its turn comes. `Graph.start_mem_walk_iff` says so.

Everything is proved of `Graph.walkFrom` along its own recursion, for any queue and any operators
seen before, and then read off for a whole walk.

## Main definitions

* `Graph.walkWithin`: a walk that can be computed.
* `Graph.NextTo`, `Graph.Step`: one step of a walk.
* `Graph.Beside`: one step of a walk in both directions.
* `Graph.GatesApart`: no boundary follows another.

## Main results

* `Graph.walk_nodup`: every operator is visited once.
* `Graph.walk_steps`: what is visited is reached from a start.
* `Graph.walk_closes`: the neighbours of what is visited are visited.
* `Graph.start_mem_walk_iff`: which starts are visited.
* `Graph.walk_around`: what is visited around a boundary.
* `Graph.walk_congr`: what a walk depends on.
-/

namespace StreamTopology

theorem Marker.ofKind?_eq_some {kind : String} {m : Marker} :
    Marker.ofKind? kind = some m ↔ m.kind = kind := by
  constructor
  · intro h
    unfold Marker.ofKind? at h
    simpa using List.find?_some h
  · rintro rfl
    cases m <;> rfl

namespace Graph

open Relation

variable {g g' : Graph} {b : Bounds} {bs : List Marker} {id x y z k : Handle}
  {queue seen starts : List Handle} {neighbours beyond : Handle → List Handle}

/-! ### One step -/

/-- An operator is a boundary if it is a marker of a listed kind. -/
theorem isGate_iff : g.isGate b x = true ↔
    ∃ op, g.get? x = some op ∧ ∃ m ∈ b.boundaries, op.isMarker m = true := by
  unfold isGate
  rcases g.get? x with _ | op
  · simp
  · have hmarker : ∀ {m}, op.marker? = some m ↔ op.isMarker m = true := by
      intro m
      rw [Operator.marker?, Marker.ofKind?_eq_some, Operator.isMarker, beq_iff_eq, eq_comm]
    simp only [Option.bind_some, Option.some.injEq, exists_eq_left']
    rcases hm : op.marker? with _ | m
    · simp only [Bool.false_eq_true, false_iff]
      rintro ⟨m, _, h⟩
      rw [hmarker.mpr h] at hm
      cases hm
    · simp only [List.contains_iff_mem]
      refine ⟨fun h => ⟨m, h, hmarker.mp hm⟩, ?_⟩
      rintro ⟨m', hm', h⟩
      obtain rfl := Option.some.inj (hm.symm.trans (hmarker.mpr h))
      exact hm'

/-- The neighbours above, if the walk goes up. -/
def above (g : Graph) (b : Bounds) (x : Handle) : List Handle :=
  if b.direction = .down then [] else g.parents x

/-- The neighbours below, if the walk goes down. -/
def below (g : Graph) (b : Bounds) (x : Handle) : List Handle :=
  if b.direction = .up then [] else g.children x

@[simp] theorem above_around : g.above (.around bs) x = g.parents x := rfl

@[simp] theorem below_around : g.below (.around bs) x = g.children x := rfl

/-- `y` is a neighbour of `x` in a direction of the walk. -/
def NextTo (g : Graph) (b : Bounds) (x y : Handle) : Prop := y ∈ g.above b x ∨ y ∈ g.below b x

instance : Decidable (g.NextTo b x y) := inferInstanceAs (Decidable (_ ∨ _))

/-- Above `x` there is a boundary, and `y` is a child of it, or below `x` there is one, and `y` is a
parent of it. -/
def PastGate (g : Graph) (b : Bounds) (x y : Handle) : Prop :=
  ∃ k, g.isGate b k = true ∧
    (k ∈ g.above b x ∧ y ∈ g.children k ∨ k ∈ g.below b x ∧ y ∈ g.parents k)

/-- One step of a walk: to a neighbour that is no boundary, or around one. -/
def Step (g : Graph) (b : Bounds) (x y : Handle) : Prop :=
  g.isGate b y = false ∧ g.NextTo b x y ∨ g.PastGate b x y

/-- There is a stream between the two, in either direction. -/
def Adjacent (g : Graph) (x y : Handle) : Prop := y ∈ g.parents x ∨ y ∈ g.children x

/-- The two are parents of one boundary, or children of one. -/
def AcrossGate (g : Graph) (b : Bounds) (x y : Handle) : Prop :=
  ∃ k, g.isGate b k = true ∧
    (k ∈ g.parents x ∧ y ∈ g.children k ∨ k ∈ g.children x ∧ y ∈ g.parents k)

/-- One step of a walk in both directions: along a stream, but not to a boundary, or around one. -/
def Beside (g : Graph) (b : Bounds) (x y : Handle) : Prop :=
  g.isGate b y = false ∧ g.Adjacent x y ∨ g.AcrossGate b x y

theorem mem_reach_seen : z ∈ (g.reach b neighbours beyond id seen).2 ↔
    z ∈ seen ∨ z ∈ neighbours id ∧ g.isGate b z = true := by
  simp only [reach, List.mem_append, List.mem_filter, List.contains_eq_mem,
    Bool.not_eq_eq_eq_not, Bool.not_true, decide_eq_false_iff_not]
  constructor
  · rintro (⟨⟨h, _⟩, hk⟩ | h)
    · exact Or.inr ⟨h, hk⟩
    · exact Or.inl h
  · rintro (h | ⟨h, hk⟩)
    · exact Or.inr h
    · by_cases hz : z ∈ seen
      · exact Or.inr hz
      · exact Or.inl ⟨⟨h, hz⟩, hk⟩

theorem mem_reach : z ∈ (g.reach b neighbours beyond id seen).1 ↔
    z ∈ neighbours id ∧ z ∉ seen ∧ g.isGate b z = false ∨
      (∃ k ∈ neighbours id, k ∉ seen ∧ g.isGate b k = true ∧ z ∈ beyond k) ∧
        z ∉ (g.reach b neighbours beyond id seen).2 := by
  have happ : (g.reach b neighbours beyond id seen).1 =
      (((neighbours id).filter fun x => !seen.contains x).filter fun x => !g.isGate b x) ++
      ((((neighbours id).filter fun x => !seen.contains x).filter (g.isGate b)).flatMap
        beyond).filter fun x => !(g.reach b neighbours beyond id seen).2.contains x := rfl
  rw [happ]
  simp only [List.mem_append, List.mem_filter, List.mem_flatMap, List.contains_eq_mem,
    Bool.not_eq_eq_eq_not, Bool.not_true, decide_eq_false_iff_not, and_assoc]

/-- A direction that the walk does not take has no neighbours. -/
theorem reachAll_eq : g.reachAll b id seen =
    ((g.reach b (g.above b) g.children id seen).1 ++
      (g.reach b (g.below b) g.parents id (g.reach b (g.above b) g.children id seen).2).1,
      (g.reach b (g.below b) g.parents id (g.reach b (g.above b) g.children id seen).2).2) := by
  have hup : g.reachUp b id seen = g.reach b (g.above b) g.children id seen := by
    unfold reachUp reach above
    split <;> simp
  have hdown : ∀ s, g.reachDown b id s = g.reach b (g.below b) g.parents id s := by
    intro s
    unfold reachDown reach below
    split <;> simp
  rw [reachAll, hup, hdown]

/-- What a step adds to the operators seen are the boundaries next to the one visited. -/
theorem mem_reachAll_seen : z ∈ (g.reachAll b id seen).2 ↔
    z ∈ seen ∨ g.isGate b z = true ∧ g.NextTo b id z := by
  rw [reachAll_eq, mem_reach_seen, mem_reach_seen, NextTo]
  tauto

theorem seen_of_mem_reachAll_seen (hz : g.isGate b z = false)
    (h : z ∈ (g.reachAll b id seen).2) : z ∈ seen := by
  rcases mem_reachAll_seen.mp h with h | ⟨hk, _⟩
  · exact h
  · rw [hz] at hk
    cases hk

/-- What is reached from an operator is one step away. -/
theorem step_of_mem_reachAll (h : z ∈ (g.reachAll b id seen).1) : g.Step b id z := by
  rw [reachAll_eq, List.mem_append, mem_reach, mem_reach] at h
  rcases h with (⟨h, _, hz⟩ | ⟨⟨k, hk, _, hgate, hz⟩, _⟩) |
    ⟨h, _, hz⟩ | ⟨⟨k, hk, _, hgate, hz⟩, _⟩
  · exact Or.inl ⟨hz, Or.inl h⟩
  · exact Or.inr ⟨k, hgate, Or.inl ⟨hk, hz⟩⟩
  · exact Or.inl ⟨hz, Or.inr h⟩
  · exact Or.inr ⟨k, hgate, Or.inr ⟨hk, hz⟩⟩

theorem reached_of_nextTo (hz : g.isGate b z = false) (h : g.NextTo b id z) :
    z ∈ seen ∨ z ∈ (g.reachAll b id seen).1 := by
  by_cases hseen : z ∈ seen
  · exact Or.inl hseen
  · right
    rw [reachAll_eq, List.mem_append, mem_reach, mem_reach, mem_reach_seen]
    rcases h with h | h
    · exact Or.inl (Or.inl ⟨h, hseen, hz⟩)
    · refine Or.inr (Or.inl ⟨h, ?_, hz⟩)
      rintro (h' | ⟨_, hk⟩)
      · exact hseen h'
      · rw [hz] at hk
        cases hk

/-- A boundary above that was not seen before leads to its other children. -/
theorem reached_past_above (hgate : g.isGate b k = true) (hk : k ∈ g.above b id)
    (hseen : k ∉ seen) (hz : g.isGate b z = false) (h : z ∈ g.children k) :
    z ∈ seen ∨ z ∈ (g.reachAll b id seen).1 := by
  by_cases hzs : z ∈ seen
  · exact Or.inl hzs
  · right
    rw [reachAll_eq, List.mem_append, mem_reach, mem_reach_seen]
    refine Or.inl (Or.inr ⟨⟨k, hk, hseen, hgate, h⟩, ?_⟩)
    rintro (h' | ⟨_, hk'⟩)
    · exact hzs h'
    · rw [hz] at hk'
      cases hk'

/-- A boundary below that was not seen before, and is not above as well, leads to its other
parents. -/
theorem reached_past_below (hgate : g.isGate b k = true) (hk : k ∈ g.below b id)
    (hseen : k ∉ seen) (habove : k ∉ g.above b id) (hz : g.isGate b z = false)
    (h : z ∈ g.parents k) : z ∈ seen ∨ z ∈ (g.reachAll b id seen).1 := by
  by_cases hzs : z ∈ seen
  · exact Or.inl hzs
  · right
    rw [reachAll_eq, List.mem_append, mem_reach, mem_reach]
    simp only [mem_reach_seen]
    refine Or.inr (Or.inr ⟨⟨k, hk, ?_, hgate, h⟩, ?_⟩)
    · rintro (h' | ⟨h', _⟩)
      · exact hseen h'
      · exact habove h'
    · rintro ((h' | ⟨_, hk'⟩) | ⟨_, hk'⟩)
      · exact hzs h'
      · rw [hz] at hk'
        cases hk'
      · rw [hz] at hk'
        cases hk'

/-! ### Whole walks -/

theorem walkFrom_nil : g.walkFrom b [] seen = [] := by
  rw [walkFrom]

theorem walkFrom_seen (h : x ∈ seen) :
    g.walkFrom b (x :: queue) seen = g.walkFrom b queue seen := by
  rw [walkFrom, if_pos h]

theorem walkFrom_cons (h : x ∉ seen) : g.walkFrom b (x :: queue) seen =
    x :: g.walkFrom b (queue ++ (g.reachAll b x (x :: seen)).1) (g.reachAll b x (x :: seen)).2 := by
  rw [walkFrom, if_neg h]

/-- A walk that is given up after a number of steps. Its recursion is on that number, so unlike
`walkFrom`, which recurses along a measure, it can be computed in a proof. -/
def walkWithin (g : Graph) (b : Bounds) :
    Nat → List Handle → List Handle → Option (List Handle)
  | _, [], _ => some []
  | 0, _ :: _, _ => none
  | n + 1, x :: queue, seen =>
    if x ∈ seen then walkWithin g b n queue seen
    else
      let reached := g.reachAll b x (x :: seen)
      (walkWithin g b n (queue ++ reached.1) reached.2).map (x :: ·)

/-- A walk that is not given up is the walk. -/
theorem walkFrom_of_within {n : Nat} {xs : List Handle}
    (h : g.walkWithin b n queue seen = some xs) : g.walkFrom b queue seen = xs := by
  induction n generalizing queue seen xs with
  | zero =>
    cases queue with
    | nil => exact walkFrom_nil.trans (Option.some.inj h)
    | cons x queue => cases h
  | succ n ih =>
    cases queue with
    | nil => exact walkFrom_nil.trans (Option.some.inj h)
    | cons x queue =>
      rw [walkWithin] at h
      by_cases hx : x ∈ seen
      · rw [if_pos hx] at h
        rw [walkFrom_seen hx]
        exact ih h
      · rw [if_neg hx] at h
        obtain ⟨rest, hrest, rfl⟩ := Option.map_eq_some_iff.mp h
        rw [walkFrom_cons hx, ih hrest]

/-- **Every operator is visited once,** and none that was seen before. -/
theorem walkFrom_nodup :
    (g.walkFrom b queue seen).Nodup ∧ ∀ y ∈ g.walkFrom b queue seen, y ∉ seen := by
  induction queue, seen using walkFrom.induct g b with
  | case1 seen => simp [walkFrom_nil]
  | case2 x queue seen hx ih => rwa [walkFrom_seen hx]
  | case3 x queue seen hx reached ih =>
    obtain ⟨hnd, hnew⟩ := ih
    have hsub : x :: seen ⊆ reached.2 := reachAll_seen_subset ..
    rw [walkFrom_cons hx]
    refine ⟨List.nodup_cons.mpr ⟨fun h => hnew x h (hsub List.mem_cons_self), hnd⟩, ?_⟩
    intro y hy hseen
    rcases List.mem_cons.mp hy with rfl | hy
    · exact hx hseen
    · exact hnew y hy (hsub (List.mem_cons_of_mem _ hseen))

theorem walk_nodup : (g.walk b starts).Nodup := walkFrom_nodup.1

/-- What waits in the queue is visited, boundaries excepted: one that waits may be passed around
before its turn comes. -/
theorem mem_walkFrom_of_mem_queue (hz : g.isGate b z = false) (h : z ∈ queue) :
    z ∈ seen ∨ z ∈ g.walkFrom b queue seen := by
  induction queue, seen using walkFrom.induct g b with
  | case1 seen => cases h
  | case2 x queue seen hx ih =>
    rw [walkFrom_seen hx]
    rcases List.mem_cons.mp h with rfl | h
    · exact Or.inl hx
    · exact ih h
  | case3 x queue seen hx reached ih =>
    rw [walkFrom_cons hx, List.mem_cons]
    rcases List.mem_cons.mp h with rfl | h
    · exact Or.inr (Or.inl rfl)
    · rcases ih (List.mem_append_left _ h) with h | h
      · rcases List.mem_cons.mp (seen_of_mem_reachAll_seen hz h) with rfl | h
        · exact Or.inr (Or.inl rfl)
        · exact Or.inl h
      · exact Or.inr (Or.inr h)

theorem walkFrom_steps (h : z ∈ g.walkFrom b queue seen) :
    ∃ x ∈ queue, ReflTransGen (g.Step b) x z := by
  induction queue, seen using walkFrom.induct g b with
  | case1 seen => rw [walkFrom_nil] at h; cases h
  | case2 x queue seen hx ih =>
    rw [walkFrom_seen hx] at h
    obtain ⟨y, hy, hyz⟩ := ih h
    exact ⟨y, List.mem_cons_of_mem _ hy, hyz⟩
  | case3 x queue seen hx reached ih =>
    rw [walkFrom_cons hx] at h
    rcases List.mem_cons.mp h with rfl | h
    · exact ⟨z, List.mem_cons_self, .refl⟩
    · obtain ⟨y, hy, hyz⟩ := ih h
      rcases List.mem_append.mp hy with hy | hy
      · exact ⟨y, List.mem_cons_of_mem _ hy, hyz⟩
      · exact ⟨x, List.mem_cons_self, .head (step_of_mem_reachAll hy) hyz⟩

/-- **Soundness.** What a walk visits is reached from one of its starts. -/
theorem walk_steps (h : z ∈ g.walk b starts) : ∃ x ∈ starts, ReflTransGen (g.Step b) x z :=
  walkFrom_steps h

/-- What the rest of a walk has seen or visits, the walk has seen or visits, boundaries excepted. -/
theorem covered_of_rest (hy : y ∉ seen) (hz : g.isGate b z = false)
    (h : z ∈ (g.reachAll b y (y :: seen)).2 ∨
      z ∈ g.walkFrom b (queue ++ (g.reachAll b y (y :: seen)).1)
        (g.reachAll b y (y :: seen)).2) :
    z ∈ seen ∨ z ∈ g.walkFrom b (y :: queue) seen := by
  rw [walkFrom_cons hy, List.mem_cons]
  rcases h with h | h
  · rcases List.mem_cons.mp (seen_of_mem_reachAll_seen hz h) with h | h
    · exact Or.inr (Or.inl h)
    · exact Or.inl h
  · exact Or.inr (Or.inr h)

/-- What is reached from the operator at the front of the queue is visited. -/
theorem covered_of_reached (hy : y ∉ seen) (hz : g.isGate b z = false)
    (h : z ∈ y :: seen ∨ z ∈ (g.reachAll b y (y :: seen)).1) :
    z ∈ seen ∨ z ∈ g.walkFrom b (y :: queue) seen := by
  refine covered_of_rest hy hz ?_
  rcases h with h | h
  · exact Or.inl (reachAll_seen_subset _ _ _ _ h)
  · exact mem_walkFrom_of_mem_queue hz (List.mem_append_right _ h)

theorem walkFrom_closes (hx : x ∈ g.walkFrom b queue seen) (hxz : g.NextTo b x z)
    (hz : g.isGate b z = false) : z ∈ seen ∨ z ∈ g.walkFrom b queue seen := by
  induction queue, seen using walkFrom.induct g b with
  | case1 seen => rw [walkFrom_nil] at hx; cases hx
  | case2 y queue seen hy ih =>
    rw [walkFrom_seen hy] at hx ⊢
    exact ih hx
  | case3 y queue seen hy reached ih =>
    rw [walkFrom_cons hy, List.mem_cons] at hx
    rcases hx with rfl | hx
    · exact covered_of_reached hy hz (reached_of_nextTo hz hxz)
    · exact covered_of_rest hy hz (ih hx)

/-- **Closure.** The neighbours of what a walk visits are visited, boundaries excepted. -/
theorem walk_closes (hx : x ∈ g.walk b starts) (hxz : g.NextTo b x z)
    (hz : g.isGate b z = false) : z ∈ g.walk b starts := by
  rcases walkFrom_closes hx hxz hz with h | h
  · cases h
  · exact h

theorem start_mem_walk (hz : g.isGate b z = false) (h : z ∈ starts) : z ∈ g.walk b starts := by
  have hvisited : z ∈ [] ∨ z ∈ g.walk b starts := mem_walkFrom_of_mem_queue hz h
  exact hvisited.resolve_left List.not_mem_nil

theorem mem_walk_self : x ∈ g.walk b (x :: starts) := by
  rw [walk, walkFrom_cons List.not_mem_nil]
  exact List.mem_cons_self

theorem mem_parents_of_above (h : y ∈ g.above b x) : y ∈ g.parents x := by
  unfold above at h
  split at h
  · cases h
  · exact h

theorem mem_children_of_below (h : y ∈ g.below b x) : y ∈ g.children x := by
  unfold below at h
  split at h
  · cases h
  · exact h

theorem contains_of_step (hg : g.WellFormed) (h : g.Step b x z) : g.contains z = true := by
  rcases h with ⟨_, h | h⟩ | ⟨k, _, ⟨_, h⟩ | ⟨_, h⟩⟩
  · exact contains_of_mem_parents hg (mem_parents_of_above h)
  · exact contains_of_mem_children hg (mem_children_of_below h)
  · exact contains_of_mem_children hg h
  · exact contains_of_mem_parents hg h

/-- What is visited from live operators is live. -/
theorem walk_live (hg : g.WellFormed) (hstarts : ∀ s ∈ starts, g.contains s = true)
    (h : z ∈ g.walk b starts) : g.contains z = true := by
  obtain ⟨x, hx, hxz⟩ := walk_steps h
  rcases hxz.cases_tail with rfl | ⟨y, _, hstep⟩
  · exact hstarts _ hx
  · exact contains_of_step hg hstep

/-! ### Starts -/

/-- What a walk has done when the first operators of its queue have had their turn: those that it
called are among them, the others were seen, and what it has seen in addition are the boundaries
next to those that it called. -/
theorem walkFrom_append (done rest seen : List Handle) :
    ∃ called more seen', g.walkFrom b (done ++ rest) seen =
        called ++ g.walkFrom b (rest ++ more) seen' ∧
      called ⊆ done ∧ done ⊆ seen' ∧
      ∀ z, z ∈ seen' ↔
        z ∈ seen ∨ z ∈ called ∨ g.isGate b z = true ∧ ∃ x ∈ called, g.NextTo b x z := by
  induction done generalizing rest seen with
  | nil => exact ⟨[], [], seen, by simp, List.nil_subset _, List.nil_subset _, by simp⟩
  | cons x done ih =>
    by_cases hx : x ∈ seen
    · obtain ⟨called, more, seen', hwalk, hcalled, hdone, hseen⟩ := ih rest seen
      refine ⟨called, more, seen', ?_, fun z hz => List.mem_cons_of_mem x (hcalled hz), ?_, hseen⟩
      · rw [List.cons_append, walkFrom_seen hx, hwalk]
      · exact List.cons_subset.mpr ⟨(hseen x).mpr (Or.inl hx), hdone⟩
    · obtain ⟨called, more, seen', hwalk, hcalled, hdone, hseen⟩ :=
        ih (rest ++ (g.reachAll b x (x :: seen)).1) (g.reachAll b x (x :: seen)).2
      refine ⟨x :: called, (g.reachAll b x (x :: seen)).1 ++ more, seen', ?_, ?_, ?_, fun z => ?_⟩
      · rw [List.cons_append, walkFrom_cons hx, List.append_assoc, hwalk, List.cons_append,
          List.append_assoc]
      · exact List.cons_subset_cons x hcalled
      · refine List.cons_subset.mpr ⟨(hseen x).mpr (Or.inl ?_), hdone⟩
        exact reachAll_seen_subset _ _ _ _ List.mem_cons_self
      · rw [hseen, mem_reachAll_seen, List.mem_cons, List.mem_cons, List.exists_mem_cons_iff]
        tauto

/-- **Which starts are visited.** A start is visited, unless it is a boundary next to a start that
was visited before it. -/
theorem start_mem_walk_iff {done rest : List Handle} (hx : x ∉ done) :
    x ∈ g.walk b (done ++ x :: rest) ↔ ¬ (g.isGate b x = true ∧
      ∃ y ∈ done, y ∈ g.walk b (done ++ x :: rest) ∧ g.NextTo b y x) := by
  obtain ⟨called, more, seen, hwalk, hcalled, hdone, hseen⟩ :=
    walkFrom_append (g := g) (b := b) done (x :: rest) []
  have hnew : ∀ y ∈ g.walkFrom b (x :: rest ++ more) seen, y ∉ seen := walkFrom_nodup.2
  -- what had its turn before `x` and is visited was called by then
  have hbefore : ∀ y ∈ done, y ∈ g.walk b (done ++ x :: rest) ↔ y ∈ called := by
    intro y hy
    rw [walk, hwalk, List.mem_append]
    exact ⟨fun h => h.resolve_right fun h => hnew y h (hdone hy), Or.inl⟩
  have hpassed : x ∈ seen ↔ g.isGate b x = true ∧
      ∃ y ∈ done, y ∈ g.walk b (done ++ x :: rest) ∧ g.NextTo b y x := by
    rw [hseen, or_iff_right List.not_mem_nil, or_iff_right fun h => hx (hcalled h)]
    refine and_congr_right fun _ => exists_congr fun y => ?_
    constructor
    · rintro ⟨hy, hnext⟩
      exact ⟨hcalled hy, (hbefore y (hcalled hy)).mpr hy, hnext⟩
    · rintro ⟨hy, hvisited, hnext⟩
      exact ⟨(hbefore y hy).mp hvisited, hnext⟩
  rw [← hpassed, walk, hwalk, List.mem_append, or_iff_right fun h => hx (hcalled h)]
  constructor
  · exact hnew x
  · intro h
    rw [List.cons_append, walkFrom_cons h]
    exact List.mem_cons_self

/-! ### Walks in both directions -/

theorem nextTo_around : g.NextTo (.around bs) x y ↔ g.Adjacent x y := Iff.rfl

/-- **Soundness** of a walk in both directions. -/
theorem walk_sound (h : z ∈ g.walk (.around bs) starts) :
    ∃ x ∈ starts, ReflTransGen (g.Beside (.around bs)) x z :=
  walk_steps h

/-- **Closure** of a walk in both directions. -/
theorem walk_closed (hx : x ∈ g.walk (.around bs) starts) (hxz : g.Adjacent x z)
    (hz : g.isGate (.around bs) z = false) : z ∈ g.walk (.around bs) starts :=
  walk_closes hx (nextTo_around.mpr hxz) hz

/-! ### Around a boundary -/

/-- Parents and children are two sides of one relation. -/
def Mirrored (g : Graph) : Prop := ∀ x y, x ∈ g.parents y ↔ y ∈ g.children x

theorem Agrees.mirrored (hg : g.WellFormed) (hi : g.Indexed) (ha : g.Agrees) : g.Mirrored :=
  fun _ _ => (mem_parents hg hi ha).trans (mem_children hg hi).symm

/-- No boundary follows another. -/
def GatesApart (g : Graph) (b : Bounds) : Prop :=
  ∀ k, g.isGate b k = true → ∀ p ∈ g.parents k, g.isGate b p = false

theorem GatesApart.children (hm : g.Mirrored) (h : g.GatesApart b) (hk : g.isGate b k = true)
    (hz : z ∈ g.children k) : g.isGate b z = false := by
  rcases hgate : g.isGate b z with _ | _
  · rfl
  · have := h z hgate k ((hm k z).mpr hz)
    rw [hk] at this
    cases this

/-- The walk has come to a boundary from one side: an operator on that side is visited, and every
one was seen before or is visited. -/
def MetFrom (side : List Handle) (seen visited : List Handle) : Prop :=
  (∃ c ∈ side, c ∈ visited) ∧ ∀ c ∈ side, c ∈ seen ∨ c ∈ visited

theorem walkFrom_around (hm : g.Mirrored) (hgap : g.GatesApart (.around bs))
    (hx : x ∈ g.walkFrom (.around bs) queue seen) (hgate : g.isGate (.around bs) k = true)
    (hk : g.Adjacent x k) :
    k ∈ seen ∨ k ∈ g.walkFrom (.around bs) queue seen ∨
      MetFrom (g.parents k) seen (g.walkFrom (.around bs) queue seen) ∨
      MetFrom (g.children k) seen (g.walkFrom (.around bs) queue seen) := by
  induction queue, seen using walkFrom.induct g (.around bs) with
  | case1 seen => rw [walkFrom_nil] at hx; cases hx
  | case2 y queue seen hy ih =>
    rw [walkFrom_seen hy] at hx ⊢
    exact ih hx
  | case3 y queue seen hy reached ih =>
    have hvisit : y ∈ g.walkFrom (.around bs) (y :: queue) seen := by
      rw [walkFrom_cons hy]
      exact List.mem_cons_self
    have hrest : ∀ c, c ∈ g.walkFrom (.around bs) (queue ++ reached.1) reached.2 →
        c ∈ g.walkFrom (.around bs) (y :: queue) seen := by
      intro c hc
      rw [walkFrom_cons hy]
      exact List.mem_cons_of_mem _ hc
    have hold : k ∈ y :: seen → k ∈ seen ∨ k ∈ g.walkFrom (.around bs) (y :: queue) seen := by
      intro h
      rcases List.mem_cons.mp h with rfl | h
      · exact Or.inr hvisit
      · exact Or.inl h
    -- a boundary next to `y` is passed around now, if it was not before
    have hnow : g.Adjacent y k → k ∈ seen ∨ k ∈ g.walkFrom (.around bs) (y :: queue) seen ∨
        MetFrom (g.parents k) seen (g.walkFrom (.around bs) (y :: queue) seen) ∨
        MetFrom (g.children k) seen (g.walkFrom (.around bs) (y :: queue) seen) := by
      intro hadj
      by_cases hseen : k ∈ y :: seen
      · exact (hold hseen).imp_right Or.inl
      by_cases habove : k ∈ g.parents y
      · refine Or.inr (Or.inr (Or.inr ⟨⟨y, (hm k y).mp habove, hvisit⟩, fun c hc => ?_⟩))
        have hz := hgap.children hm hgate hc
        exact covered_of_reached hy hz (reached_past_above hgate habove hseen hz hc)
      · have hbelow : k ∈ g.children y := hadj.resolve_left habove
        refine Or.inr (Or.inr (Or.inl ⟨⟨y, (hm y k).mpr hbelow, hvisit⟩, fun p hp => ?_⟩))
        have hz := hgap k hgate p hp
        exact covered_of_reached hy hz (reached_past_below hgate hbelow hseen habove hz hp)
    rw [walkFrom_cons hy, List.mem_cons] at hx
    rcases hx with rfl | hx
    · exact hnow hk
    · rcases ih hx with h | h | ⟨⟨p, hp, hpv⟩, hall⟩ | ⟨⟨c, hc, hcv⟩, hall⟩
      · rcases mem_reachAll_seen.mp h with h | ⟨_, h⟩
        · exact (hold h).imp_right Or.inl
        · exact hnow h
      · exact Or.inr (Or.inl (hrest k h))
      · exact Or.inr (Or.inr (Or.inl ⟨⟨p, hp, hrest p hpv⟩, fun q hq =>
          covered_of_rest hy (hgap k hgate q hq) (hall q hq)⟩))
      · exact Or.inr (Or.inr (Or.inr ⟨⟨c, hc, hrest c hcv⟩, fun q hq =>
          covered_of_rest hy (hgap.children hm hgate hq) (hall q hq)⟩))

/-- **Around a boundary.** Where a walk comes to a boundary that it does not start at, it visits all
its parents or all its children, and at least one. -/
theorem walk_around (hm : g.Mirrored) (hgap : g.GatesApart (.around bs))
    (hx : x ∈ g.walk (.around bs) starts) (hgate : g.isGate (.around bs) k = true)
    (hk : g.Adjacent x k) :
    k ∈ g.walk (.around bs) starts ∨
      MetFrom (g.parents k) [] (g.walk (.around bs) starts) ∨
      MetFrom (g.children k) [] (g.walk (.around bs) starts) :=
  (walkFrom_around hm hgap hx hgate hk).resolve_left List.not_mem_nil

/-- A walk that does not start at a boundary visits none. -/
theorem walk_gates (hm : g.Mirrored) (hgap : g.GatesApart (.around bs))
    (hstarts : ∀ s ∈ starts, g.isGate (.around bs) s = false)
    (h : z ∈ g.walk (.around bs) starts) : g.isGate (.around bs) z = false := by
  obtain ⟨x, hx, hxz⟩ := walk_sound h
  rcases hxz.cases_tail with rfl | ⟨y, _, ⟨hz, _⟩ | ⟨k, hk, ⟨_, hz⟩ | ⟨_, hz⟩⟩⟩
  · exact hstarts _ hx
  · exact hz
  · exact hgap.children hm hk hz
  · exact hgap k hk z hz

/-! ### What a walk depends on -/

section

variable (hparents : ∀ x, g'.parents x = g.parents x)
  (hchildren : ∀ x, g'.children x = g.children x) (hgate : ∀ x, g'.isGate b x = g.isGate b x)

include hparents hchildren hgate

theorem reachAll_congr : g'.reachAll b x seen = g.reachAll b x seen := by
  have hgate' : g'.isGate b = g.isGate b := funext hgate
  have hparents' : g'.parents = g.parents := funext hparents
  have hchildren' : g'.children = g.children := funext hchildren
  simp only [reachAll, reachUp, reachDown, reach, hgate', hparents', hchildren']

/-- A walk depends on the neighbours and on which operators are boundaries, and on nothing else. -/
theorem walk_congr : g'.walk b starts = g.walk b starts := by
  suffices ∀ queue seen, g'.walkFrom b queue seen = g.walkFrom b queue seen from this starts []
  intro queue seen
  induction queue, seen using walkFrom.induct g b with
  | case1 seen => rw [walkFrom_nil, walkFrom_nil]
  | case2 x queue seen hx ih => rw [walkFrom_seen hx, walkFrom_seen hx, ih]
  | case3 x queue seen hx reached ih =>
    rw [walkFrom_cons hx, walkFrom_cons hx, reachAll_congr hparents hchildren hgate, ih]

end

end Graph

end StreamTopology
