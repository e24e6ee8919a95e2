import StreamTopology.Proofs.Passes.Annotations

/-!
# Passes that revise operators one by one

Some passes go through a list of operators and may overwrite each when it has its turn. What they
write depends on the neighbours, and these may have had their turns before, or have them later. As
long as no turn changes what another one reads, the order does not matter: the graph afterwards is
the graph before with one function applied to every operator of the list.

## Main definitions

* `Graph.Revised`: a graph of which some operators have had their turn.
* `Graph.Revises`: a turn reads the same, whichever operators have had theirs before.

## Main results

* `Graph.Revises.run`: the pass succeeds, and what it leaves.
-/

namespace StreamTopology

namespace Graph

variable {g t t' : Graph} {f : Handle → Operator → Operator} {r : Handle → Operator → Bool}
  {turn : Handle → GraphM Bool} {done : List Handle} {x : Handle} {op : Operator}

/-- `t` is `g` after the operators of a list have had their turn, in which `f` is applied to
each. -/
structure Revised (g : Graph) (f : Handle → Operator → Operator) (done : List Handle) (t : Graph) :
    Prop where
  annotates : g.Annotates t
  turned : ∀ x ∈ done, t.get? x = (g.get? x).map (f x)
  waiting : ∀ x, x ∉ done → t.get? x = g.get? x

/-- Starting from `g`, the turn of an operator succeeds with the result `r`, and overwrites it by
`f` if that changes it, whichever operators have had their turn before. -/
def Revises (g : Graph) (turn : Handle → GraphM Bool) (f : Handle → Operator → Operator)
    (r : Handle → Operator → Bool) : Prop :=
  ∀ done t x op, g.Revised f done t → t.get? x = some op →
    (f x op).skeleton = op.skeleton ∧
      ∃ t', Yields (turn x) t (r x op) t' ∧ (t' = t ∧ f x op = op ∨ t' = t.set x (f x op))

theorem Revised.init (g : Graph) (f : Handle → Operator → Operator) : g.Revised f [] g :=
  ⟨.refl g, fun _ hx => (List.not_mem_nil hx).elim, fun _ _ => rfl⟩

/-- What the function keeps of every operator has stayed. -/
theorem Revised.keeps {α : Type} {view : Operator → α} (h : g.Revised f done t)
    (hview : ∀ x op, view (f x op) = view op) (x : Handle) :
    (t.get? x).map view = (g.get? x).map view := by
  by_cases hx : x ∈ done
  · rw [h.turned x hx, Option.map_map]
    exact congrFun (congrArg Option.map (funext (hview x))) _
  · rw [h.waiting x hx]

/-- An operator is as it was, or has had its turn. -/
theorem Revised.exists_before {a' : Operator} (h : g.Revised f done t) (ha' : t.get? x = some a') :
    ∃ a, g.get? x = some a ∧ (x ∈ done ∧ a' = f x a ∨ x ∉ done ∧ a' = a) := by
  by_cases hx : x ∈ done
  · rw [h.turned x hx, Option.map_eq_some_iff] at ha'
    obtain ⟨a, ha, rfl⟩ := ha'
    exact ⟨a, ha, Or.inl ⟨hx, rfl⟩⟩
  · rw [h.waiting x hx] at ha'
    exact ⟨a', ha', Or.inr ⟨hx, rfl⟩⟩

/-- One turn more. -/
theorem Revises.step (hr : g.Revises turn f r) (h : g.Revised f done t) (hx : x ∉ done)
    (hop : g.get? x = some op) :
    ∃ t', Yields (turn x) t (r x op) t' ∧ g.Revised f (done ++ [x]) t' := by
  have hopt : t.get? x = some op := (h.waiting x hx).trans hop
  obtain ⟨hskeleton, t', hrun, hnothing | rfl⟩ := hr done t x op h hopt
  · obtain ⟨rfl, hsame⟩ := hnothing
    refine ⟨t', hrun, h.annotates, fun y hy => ?_, fun y hy => ?_⟩
    · rcases List.mem_append.mp hy with hy | hy
      · exact h.turned y hy
      · rw [List.mem_singleton.mp hy, hopt, hop, Option.map_some, hsame]
    · exact h.waiting y fun hd => hy (List.mem_append_left _ hd)
  · have hc : t.contains x = true := contains_iff.mpr ⟨op, hopt⟩
    refine ⟨_, hrun, h.annotates.trans (annotates_set hopt hskeleton), fun y hy => ?_,
      fun y hy => ?_⟩
    · rw [get?_set hc]
      split
      next heq => rw [heq, hop, Option.map_some]
      next hne => exact h.turned y ((List.mem_append.mp hy).resolve_right (by simpa using hne))
    · rw [List.mem_append, List.mem_singleton, not_or] at hy
      rw [get?_set hc, if_neg hy.2]
      exact h.waiting y hy.1

/-- The turns of different operators, and the result of each. -/
theorem Revises.steps (hr : g.Revises turn f r) (xs : List Handle) (h : g.Revised f done t)
    (hnd : (done ++ xs).Nodup) (hlive : ∀ x ∈ xs, g.contains x = true) :
    ∃ t', Yields (xs.mapM turn) t (xs.map fun x => (g.get? x).any (r x)) t' ∧
      g.Revised f (done ++ xs) t' := by
  induction xs generalizing done t with
  | nil => exact ⟨t, yields_mapM_nil.mpr ⟨rfl, rfl⟩, by rwa [List.append_nil]⟩
  | cons x xs ih =>
    obtain ⟨op, hop⟩ := contains_iff.mp (hlive x List.mem_cons_self)
    have hx : x ∉ done := fun hd =>
      (List.disjoint_of_nodup_append hnd) hd List.mem_cons_self
    obtain ⟨t₁, hrun₁, h₁⟩ := hr.step h hx hop
    rw [List.append_cons] at hnd ⊢
    obtain ⟨t₂, hrun₂, h₂⟩ := ih h₁ hnd fun y hy => hlive y (List.mem_cons_of_mem x hy)
    refine ⟨t₂, yields_mapM_cons.mpr ⟨_, t₁, _, hrun₁, hrun₂, ?_⟩, h₂⟩
    rw [List.map_cons, hop, Option.any_some]

/-- **The pass succeeds.** It counts the turns with the result `true`, and every operator of the
list has had its turn afterwards. -/
theorem Revises.run (hr : g.Revises turn f r) {xs : List Handle} (hnd : xs.Nodup)
    (hlive : ∀ x ∈ xs, g.contains x = true) :
    ∃ g', Yields (do let results ← xs.mapM turn; pure (results.countP id)) g
      (xs.countP fun x => (g.get? x).any (r x)) g' ∧ g.Revised f xs g' := by
  obtain ⟨g', hrun, h⟩ := hr.steps xs (Revised.init g f) hnd hlive
  refine ⟨g', yields_bind.mpr ⟨_, g', hrun, yields_pure.mpr ⟨?_, rfl⟩⟩, h⟩
  rw [List.countP_map]
  rfl

end Graph

end StreamTopology
