import StreamTopology.Composite.Plan
import Mathlib.Data.List.Nodup

/-!
# Plans as trees

What is said about a plan alone, without the graph that it was made from. A plan is a composite with
the regions that are members of it inside, and these have composites of their own. There are two
lists of them: one names each region by its marker, the other each composite by the markers of all
regions around it. The second tells composites apart whatever the markers are: if no composite has a
member twice, then no two composites have the same stack of markers.

## Main definitions

* `Plan.nodes`, `Plan.regions`: the members of one composite.
* `Plan.inner`: all regions, inner ones first.
* `Plan.composites`: the composites of a plan with their stacks.
* `Plan.Distinct`: no composite has a member twice.
* `Plan.All`: everything that a plan names has a property.

## Main results

* `Plan.parent_of_mem_inner`: every region is a member of some composite.
* `Plan.Distinct.composites_nodup`: no two composites of a plan have the same stack.
-/

namespace StreamTopology

/-! ### Members of a plan -/

namespace Plan

/-- The operators that are members of the composite. -/
def nodes : Plan → List Handle
  | .done _ => []
  | .node id rest => id :: rest.nodes
  | .region _ _ rest => rest.nodes

/-- The regions that are members of the composite, with what is inside. -/
def regions : Plan → List (Handle × Plan)
  | .done _ => []
  | .node _ rest => rest.regions
  | .region marker inside rest => (marker, inside) :: rest.regions

/-- All regions in the order in which their composites are finished. -/
def inner : Plan → List (Handle × Plan)
  | .done _ => []
  | .node _ rest => rest.inner
  | .region marker inside rest => inside.inner ++ (marker, inside) :: rest.inner

/-- No composite has a member twice. -/
def Distinct : Plan → Prop
  | .done _ => True
  | .node id rest => id ∉ rest.nodes ∧ rest.Distinct
  | .region marker inside rest =>
    (∀ J, (marker, J) ∉ rest.regions) ∧ inside.Distinct ∧ rest.Distinct

variable {P I J : Plan} {p q : Handle}

theorem Distinct.nodes_nodup (h : P.Distinct) : P.nodes.Nodup := by
  induction P with
  | done _ => exact List.nodup_nil
  | node _ rest ih => exact List.nodup_cons.mpr ⟨h.1, ih h.2⟩
  | region _ _ rest _ ih => exact ih h.2.2

theorem Distinct.regions_nodup (h : P.Distinct) : (P.regions.map Prod.fst).Nodup := by
  induction P with
  | done _ => exact List.nodup_nil
  | node _ rest ih => exact ih h.2
  | region p _ rest _ ih =>
    refine List.nodup_cons.mpr ⟨fun hp => ?_, ih h.2.2⟩
    obtain ⟨⟨q, J⟩, hJ, rfl⟩ := List.mem_map.mp hp
    exact h.1 J hJ

theorem Distinct.of_inner (h : P.Distinct) (hp : (p, I) ∈ P.inner) : I.Distinct := by
  induction P with
  | done _ => cases hp
  | node _ rest ih => exact ih h.2 hp
  | region q inside rest ihInside ihRest =>
    rcases List.mem_append.mp hp with hp | hp
    · exact ihInside h.2.1 hp
    · rcases List.mem_cons.mp hp with hp | hp
      · obtain ⟨rfl, rfl⟩ := Prod.mk.inj hp
        exact h.2.1
      · exact ihRest h.2.2 hp

theorem mem_inner_of_mem_regions (h : (p, I) ∈ P.regions) : (p, I) ∈ P.inner := by
  induction P with
  | done _ => cases h
  | node _ rest ih => exact ih h
  | region marker inside rest _ ih =>
    refine List.mem_append_right _ ?_
    rcases List.mem_cons.mp h with h | h
    · exact h ▸ List.mem_cons_self
    · exact List.mem_cons_of_mem _ (ih h)

theorem inner_subset (h : (p, I) ∈ P.inner) : I.inner ⊆ P.inner := by
  induction P with
  | done _ => cases h
  | node _ rest ih => exact ih h
  | region marker inside rest ihInside ihRest =>
    intro x hx
    rcases List.mem_append.mp h with h | h
    · exact List.mem_append_left _ (ihInside h hx)
    · rcases List.mem_cons.mp h with h | h
      · obtain ⟨rfl, rfl⟩ := Prod.mk.inj h
        exact List.mem_append_left _ hx
      · exact List.mem_append_right _ (List.mem_cons_of_mem _ (ihRest h hx))

/-- A region is a member of the composite or of that of another region. -/
theorem parent_of_mem_inner (h : (q, J) ∈ P.inner) :
    (q, J) ∈ P.regions ∨ ∃ p I, (p, I) ∈ P.inner ∧ (q, J) ∈ I.regions := by
  induction P with
  | done _ => cases h
  | node _ rest ih => exact ih h
  | region marker inside rest ihInside ihRest =>
    rcases List.mem_append.mp h with h | h
    · rcases ihInside h with h | ⟨p, I, hI, h⟩
      · exact Or.inr ⟨marker, inside, List.mem_append_right _ List.mem_cons_self, h⟩
      · exact Or.inr ⟨p, I, List.mem_append_left _ hI, h⟩
    · rcases List.mem_cons.mp h with h | h
      · exact Or.inl (h ▸ List.mem_cons_self)
      · rcases ihRest h with h | ⟨p, I, hI, h⟩
        · exact Or.inl (List.mem_cons_of_mem _ h)
        · exact Or.inr ⟨p, I, List.mem_append_right _ (List.mem_cons_of_mem _ hI), h⟩

/-! ### Composites of a plan -/

/-- The composites of all regions of a plan, in the order in which they are finished, each with the
markers of the regions around its members. -/
def stacked : List Handle → Plan → List (List Handle × Plan)
  | _, .done _ => []
  | σ, .node _ rest => stacked σ rest
  | σ, .region marker inside rest =>
    stacked (marker :: σ) inside ++ (marker :: σ, inside) :: stacked σ rest

/-- All composites of a plan with their stacks of markers, the main one last. -/
def composites (P : Plan) : List (List Handle × Plan) := stacked [] P ++ [([], P)]

variable {σ τ : List Handle}

theorem map_snd_stacked : (stacked σ P).map Prod.snd = P.inner.map Prod.snd := by
  induction P generalizing σ with
  | done _ => rfl
  | node _ rest ih => exact ih
  | region p inside rest ihInside ihRest =>
    simp only [stacked, inner, List.map_append, List.map_cons, ihInside, ihRest]

theorem mem_stacked_of_mem_regions (h : (p, I) ∈ P.regions) : (p :: σ, I) ∈ stacked σ P := by
  induction P with
  | done _ => cases h
  | node _ rest ih => exact ih h
  | region q inside rest _ ih =>
    refine List.mem_append_right _ ?_
    rcases List.mem_cons.mp h with h | h
    · obtain ⟨rfl, rfl⟩ := Prod.mk.inj h
      exact List.mem_cons_self
    · exact List.mem_cons_of_mem _ (ih h)

theorem stacked_subset (h : (τ, I) ∈ stacked σ P) : stacked τ I ⊆ stacked σ P := by
  induction P generalizing σ with
  | done _ => cases h
  | node _ rest ih => exact ih h
  | region q inside rest ihInside ihRest =>
    intro x hx
    rcases List.mem_append.mp h with h | h
    · exact List.mem_append_left _ (ihInside h hx)
    · rcases List.mem_cons.mp h with h | h
      · obtain ⟨rfl, rfl⟩ := Prod.mk.inj h
        exact List.mem_append_left _ hx
      · exact List.mem_append_right _ (List.mem_cons_of_mem _ (ihRest h hx))

/-- The region of a member is a composite with one marker more on its stack. -/
theorem mem_composites_of_mem_regions (h : (σ, P) ∈ J.composites) (hp : (p, I) ∈ P.regions) :
    (p :: σ, I) ∈ J.composites := by
  have hmem : (p :: σ, I) ∈ stacked σ P := mem_stacked_of_mem_regions hp
  refine List.mem_append_left _ ?_
  rcases List.mem_append.mp h with h | h
  · exact stacked_subset h hmem
  · obtain ⟨rfl, rfl⟩ := Prod.mk.inj (List.mem_singleton.mp h)
    exact hmem

/-- The stack of an inner composite ends with the marker of a member, and what was there before. -/
theorem suffix_of_mem_stacked (h : (τ, I) ∈ stacked σ P) :
    ∃ q J, (q, J) ∈ P.regions ∧ (q :: σ) <:+ τ := by
  induction P generalizing σ with
  | done _ => cases h
  | node _ rest ih => exact ih h
  | region p inside rest ihInside ihRest =>
    rcases List.mem_append.mp h with h | h
    · obtain ⟨_, _, _, hsuffix⟩ := ihInside h
      exact ⟨p, inside, List.mem_cons_self, (List.suffix_cons _ _).trans hsuffix⟩
    · rcases List.mem_cons.mp h with h | h
      · obtain ⟨rfl, _⟩ := Prod.mk.inj h
        exact ⟨p, inside, List.mem_cons_self, List.suffix_rfl⟩
      · obtain ⟨q, J, hq, hsuffix⟩ := ihRest h
        exact ⟨q, J, List.mem_cons_of_mem _ hq, hsuffix⟩

/-- The stack of an inner composite is longer than that of the composite around. -/
theorem length_lt_of_mem_stacked (h : (τ, I) ∈ stacked σ P) : σ.length < τ.length := by
  obtain ⟨_, _, _, hsuffix⟩ := suffix_of_mem_stacked h
  have hlen := hsuffix.length_le
  rwa [List.length_cons] at hlen

/-- Where no composite has a member twice, different regions have different stacks: two that are
members of one composite differ in their markers, and one that is inside another has a longer
stack. -/
theorem Distinct.stacked_nodup (h : P.Distinct) : ((stacked σ P).map Prod.fst).Nodup := by
  induction P generalizing σ with
  | done _ => exact List.nodup_nil
  | node _ rest ih => exact ih h.2
  | region p inside rest ihInside ihRest =>
    have hinside : ∀ τ ∈ (stacked (p :: σ) inside).map Prod.fst, τ ≠ p :: σ ∧ (p :: σ) <:+ τ := by
      intro τ hτ
      obtain ⟨⟨τ, I⟩, hI, rfl⟩ := List.mem_map.mp hτ
      obtain ⟨_, _, _, hsuffix⟩ := suffix_of_mem_stacked hI
      refine ⟨?_, (List.suffix_cons _ _).trans hsuffix⟩
      rintro rfl
      exact Nat.lt_irrefl _ (length_lt_of_mem_stacked hI)
    have hrest : ∀ τ ∈ (stacked σ rest).map Prod.fst, ¬ (p :: σ) <:+ τ := by
      intro τ hτ hp
      obtain ⟨⟨τ, I⟩, hI, rfl⟩ := List.mem_map.mp hτ
      obtain ⟨q, J, hq, hsuffix⟩ := suffix_of_mem_stacked hI
      have heq := (List.suffix_of_suffix_length_le hp hsuffix (by simp)).eq_of_length (by simp)
      exact h.1 J ((List.cons.inj heq).1 ▸ hq)
    rw [stacked, List.map_append, List.map_cons, List.nodup_append']
    refine ⟨ihInside h.2.1, List.nodup_cons.mpr ⟨fun hp => hrest _ hp List.suffix_rfl,
      ihRest h.2.2⟩, ?_⟩
    intro τ hτ hτ'
    rcases List.mem_cons.mp hτ' with rfl | hτ'
    · exact (hinside _ hτ).1 rfl
    · exact hrest τ hτ' (hinside τ hτ).2

theorem Distinct.composites_nodup (h : P.Distinct) : (P.composites.map Prod.fst).Nodup := by
  rw [composites, List.map_append, List.nodup_append']
  refine ⟨h.stacked_nodup, List.nodup_singleton _, ?_⟩
  intro τ hτ hnil
  obtain ⟨⟨τ, I⟩, hI, rfl⟩ := List.mem_map.mp hτ
  obtain rfl : τ = [] := List.mem_singleton.mp hnil
  exact Nat.lt_irrefl _ (length_lt_of_mem_stacked hI)

theorem Distinct.of_composites (h : J.Distinct) (hP : (σ, P) ∈ J.composites) : P.Distinct := by
  rcases List.mem_append.mp hP with hP | hP
  · have hmem : P ∈ J.inner.map Prod.snd := map_snd_stacked (σ := []) ▸ List.mem_map_of_mem hP
    obtain ⟨⟨p, P⟩, hp, rfl⟩ := List.mem_map.mp hmem
    exact h.of_inner hp
  · obtain ⟨_, rfl⟩ := Prod.mk.inj (List.mem_singleton.mp hP)
    exact h

/-! ### Everything that a plan names -/

/-- Every member, every marker and every end that the plan names has the property. -/
def All (Q : Handle → Prop) : Plan → Prop
  | .done exit => ∀ e, exit = some e → Q e
  | .node x rest => Q x ∧ rest.All Q
  | .region p inside rest => Q p ∧ inside.All Q ∧ rest.All Q

variable {Q : Handle → Prop} {e x : Handle}

theorem All.exit (h : P.All Q) (he : P.exit? = some e) : Q e := by
  induction P with
  | done _ => exact h e he
  | node _ rest ih => exact ih h.2 he
  | region _ _ rest _ ih => exact ih h.2.2 he

theorem All.node (h : P.All Q) (hx : x ∈ P.nodes) : Q x := by
  induction P with
  | done _ => cases hx
  | node y rest ih =>
    rcases List.mem_cons.mp hx with rfl | hx
    · exact h.1
    · exact ih h.2 hx
  | region _ _ rest _ ih => exact ih h.2.2 hx

theorem All.stacked (h : P.All Q) (hI : (τ, I) ∈ stacked σ P) : I.All Q := by
  induction P generalizing σ with
  | done _ => cases hI
  | node _ rest ih => exact ih h.2 hI
  | region p inside rest ihInside ihRest =>
    rcases List.mem_append.mp hI with hI | hI
    · exact ihInside h.2.1 hI
    · rcases List.mem_cons.mp hI with hI | hI
      · obtain ⟨_, rfl⟩ := Prod.mk.inj hI
        exact h.2.1
      · exact ihRest h.2.2 hI

theorem All.composite (h : J.All Q) (hP : (σ, P) ∈ J.composites) : P.All Q := by
  rcases List.mem_append.mp hP with hP | hP
  · exact h.stacked hP
  · obtain ⟨_, rfl⟩ := Prod.mk.inj (List.mem_singleton.mp hP)
    exact h

end Plan

end StreamTopology
