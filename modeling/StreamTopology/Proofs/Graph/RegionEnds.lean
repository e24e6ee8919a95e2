import StreamTopology.Composite.Plan
import StreamTopology.Graph.RegionEnds
import StreamTopology.Proofs.Graph.Elimination
import StreamTopology.Proofs.Graph.Walk

/-!
# The shape of the end of a region

The end of a parallel region has one parent, and that parent has no other child, so that the region
has one output stream. `Graph.Sealed` says so, and `Graph.checkRegionEnds` checks it.

When operators are taken out, what decides is which of those that stay lead to the end through
those that go (`Graph.SealedThrough`).

## Main results

* `Graph.checkRegionEnds_eq_ok_iff`: what the check establishes.
* `Graph.Eliminates.sealed_iff`: which ends keep their shape when operators are taken out.
-/

namespace StreamTopology

namespace Graph

variable {g g' : Graph} {gone : Handle → Prop} {c e p x y : Handle} {m : Marker}

/-! ### Markers -/

theorem marker?_congr (h : (g'.get? x).map Operator.kind = (g.get? x).map Operator.kind) :
    g'.marker? x = g.marker? x := by
  have hkind : ∀ o : Option Operator,
      o.bind Operator.marker? = (o.map Operator.kind).bind Marker.ofKind? := by
    intro o
    cases o <;> rfl
  rw [marker?, marker?, hkind, hkind, h]

theorem marker?_eq_some : g.marker? x = some m ↔ ∃ op, g.get? x = some op ∧ op.kind = m.kind := by
  rw [marker?, Option.bind_eq_some_iff]
  exact exists_congr fun op => and_congr_right fun _ => Marker.ofKind?_eq_some.trans eq_comm

theorem mem_markers (hg : g.WellFormed) : x ∈ g.markers m ↔ g.marker? x = some m := by
  rw [markers, mem_findAll hg, marker?_eq_some]
  simp only [Operator.isMarker, beq_iff_eq]

/-! ### Ends -/

/-- The operator has one parent, which has no other child. -/
def Sealed (g : Graph) (e : Handle) : Prop := ∃ p, g.parents e = [p] ∧ g.children p = [e]

instance (g : Graph) (e : Handle) : Decidable (g.Sealed e) :=
  decidable_of_iff (∃ p ∈ g.parents e, g.parents e = [p] ∧ g.children p = [e]) <| by
    refine exists_congr fun p => ⟨fun h => h.2, fun h => ⟨?_, h⟩⟩
    rw [h.1]
    exact List.mem_singleton_self p

/-- Of the operators outside of `gone`, one leads to `e` through operators that are gone, and leads
to no other. -/
def SealedThrough (g : Graph) (gone : Handle → Prop) (e : Handle) : Prop :=
  ∃ p, ¬ gone p ∧ (∀ x, ¬ gone x → (Bridged g.Feeds gone x e ↔ x = p)) ∧
    ∀ y, ¬ gone y → (Bridged g.Feeds gone p y ↔ y = e)

theorem eq_singleton_iff_of_nodup {l : List Handle} (h : l.Nodup) :
    l = [x] ↔ ∀ y, y ∈ l ↔ y = x := by
  rw [← List.perm_singleton, List.perm_ext_iff_of_nodup h (List.nodup_singleton x)]
  simp only [List.mem_singleton]

theorem children_eq_singleton (hg : g.WellFormed) (hi : g.Indexed) :
    g.children x = [c] ↔ ∀ y, g.Feeds x y ↔ y = c := by
  rw [eq_singleton_iff_of_nodup (children_nodup hg)]
  simp only [mem_children hg hi]

theorem parents_eq_singleton (hg : g.WellFormed) (hi : g.Indexed) (ha : g.Agrees) :
    g.parents x = [p] ↔ ∀ y, g.Feeds y x ↔ y = p := by
  rw [eq_singleton_iff_of_nodup (parents_nodup hg)]
  simp only [mem_parents hg hi ha]

theorem sealed_iff (hg : g.WellFormed) (hi : g.Indexed) (ha : g.Agrees) :
    g.Sealed e ↔ ∃ p, (∀ x, g.Feeds x e ↔ x = p) ∧ ∀ y, g.Feeds p y ↔ y = e := by
  simp only [Sealed, parents_eq_singleton hg hi ha, children_eq_singleton hg hi]

/-- Where the parent stays, the shape is the same through what is gone. -/
theorem Sealed.sealedThrough (hg : g.WellFormed) (hi : g.Indexed) (ha : g.Agrees) (h : g.Sealed e)
    (he : ¬ gone e) (hparents : ∀ p ∈ g.parents e, ¬ gone p) : g.SealedThrough gone e := by
  obtain ⟨p, hparent, hchild⟩ := (sealed_iff hg hi ha).mp h
  have hp : ¬ gone p := hparents p ((mem_parents hg hi ha).mpr ((hparent p).mpr rfl))
  refine ⟨p, hp, fun x _ => ⟨fun hchain => ?_, ?_⟩, fun y _ => ⟨fun hchain => ?_, ?_⟩⟩
  · rcases hchain.last with hlast | ⟨z, _, hz, hlast⟩
    · exact (hparent x).mp hlast
    · exact absurd ((hparent z).mp hlast ▸ hz) hp
  · rintro rfl
    exact .direct ((hparent x).mpr rfl)
  · rcases hchain.first with hfirst | ⟨z, hz, hfirst⟩
    · exact (hchild y).mp hfirst
    · exact absurd ((hchild z).mp hfirst ▸ hz) he
  · rintro rfl
    exact .direct ((hchild y).mpr rfl)

/-- A loop over checks succeeds if and only if all of them do. -/
theorem forM_eq_ok_iff {α : Type} {f : α → Except Error PUnit} {xs : List α} :
    xs.forM f = .ok ⟨⟩ ↔ ∀ x ∈ xs, f x = .ok ⟨⟩ := by
  induction xs with
  | nil => exact iff_of_true rfl (List.forall_mem_nil _)
  | cons x xs ih =>
    show (f x >>= fun _ => xs.forM f) = .ok ⟨⟩ ↔ _
    rw [List.forall_mem_cons, ← ih]
    rcases hx : f x with err | ⟨⟩ <;> simp [bind, Except.bind]

theorem checkEnd_eq_ok_iff (hg : g.WellFormed) (hi : g.Indexed) (ha : g.Agrees) :
    g.checkEnd e = .ok () ↔ g.Sealed e := by
  have hfails : ∀ (x : Except Error String) (f : String → Error),
      (do throw (f (← x)) : Except Error Unit) ≠ .ok () := by
    intro x f
    rcases x with err | title <;> exact nofun
  unfold checkEnd
  rcases hparents : g.parents e with _ | ⟨p, _ | ⟨p', ps⟩⟩
  · refine iff_of_false (hfails _ _) ?_
    rintro ⟨p, hp, _⟩
    simp [hparents] at hp
  · have hmem : e ∈ g.children p := by
      rw [mem_children hg hi, ← mem_parents hg hi ha, hparents]
      exact List.mem_singleton_self p
    simp only [Sealed, hparents, List.cons.injEq, and_true, exists_eq_left']
    by_cases hlen : (g.children p).length = 1
    · obtain ⟨c, hc⟩ := List.length_eq_one_iff.mp hlen
      rw [hc, List.mem_singleton] at hmem
      simp [hc, hmem]
    · rw [if_neg hlen]
      refine iff_of_false (hfails _ _) fun hchildren => hlen ?_
      rw [hchildren]
      rfl
  · refine iff_of_false (hfails _ _) ?_
    rintro ⟨p, hp, _⟩
    simp [hparents] at hp

/-- **What the check establishes.** -/
theorem checkRegionEnds_eq_ok_iff (hg : g.WellFormed) (hi : g.Indexed) (ha : g.Agrees) :
    g.checkRegionEnds = .ok () ↔ ∀ e, g.marker? e = some .endParallel → g.Sealed e := by
  rw [checkRegionEnds, forM_eq_ok_iff]
  simp only [mem_markers hg, checkEnd_eq_ok_iff hg hi ha]

/-- **Which ends keep their shape** when operators are taken out. -/
theorem Eliminates.sealed_iff (h : g.Eliminates gone g') (he : ¬ gone e) :
    g'.Sealed e ↔ g.SealedThrough gone e := by
  rw [Graph.sealed_iff h.wellFormed h.indexed h.coherent.agrees]
  refine exists_congr fun p => ?_
  simp only [h.feeds]
  constructor
  · rintro ⟨hparent, hchild⟩
    have hp : ¬ gone p := ((hparent p).mpr rfl).1
    refine ⟨hp, fun x hx => ?_, fun y hy => ?_⟩
    · rw [← hparent x, and_iff_right hx, and_iff_right he]
    · rw [← hchild y, and_iff_right hp, and_iff_right hy]
  · rintro ⟨hp, hparent, hchild⟩
    refine ⟨fun x => ⟨fun h => (hparent x h.1).mp h.2.2, ?_⟩,
      fun y => ⟨fun h => (hchild y h.2.1).mp h.2.2, ?_⟩⟩
    · rintro rfl
      exact ⟨hp, he, (hparent x hp).mpr rfl⟩
    · rintro rfl
      exact ⟨hp, he, (hchild y he).mpr rfl⟩

end Graph

end StreamTopology
