import StreamTopology.Proofs.Regions.Isolation

/-!
# What an isolation region consists of

Two operators are in one *component* if streams lead from one to the other that touch no marker, and
they are *linked* if one can also go around markers, from a parent to a parent or from a child to a
child. A region never splits a component and never joins operators that are not linked; in between
it is the order of the batches that decides, since a walk goes around a marker only once.

The union of all batches around markers is closed under steps around a marker, because the operators
on both sides of every marker start a batch of their own. That is what makes a source that is itself
a marker harmless: what lies behind it has been claimed before.

## Main definitions

* `Graph.Component`, `Graph.Linked`
* `Graph.regionOf`: the region of an operator.

## Main results

* `isolation_regions`: components have one region, regions are linked, and which operators have one.
-/

namespace StreamTopology

open Relation

namespace Graph

variable {g : Graph} {x y : Handle}

/-- A stream, in either direction, between operators that are no isolation markers. -/
def Joined (g : Graph) (x y : Handle) : Prop :=
  x ∉ g.markers .isolate ∧ y ∉ g.markers .isolate ∧ (g.Feeds x y ∨ g.Feeds y x)

/-- A chain of streams leads from one operator to the other and touches no isolation marker. -/
def Component (g : Graph) : Handle → Handle → Prop := ReflTransGen g.Joined

/-- The operators are joined, or they are two parents or two children of one isolation marker. -/
def LinkStep (g : Graph) (x y : Handle) : Prop :=
  g.Joined x y ∨ ∃ m ∈ g.markers .isolate, g.Feeds x m ∧ g.Feeds y m ∨ g.Feeds m x ∧ g.Feeds m y

/-- A chain of such steps leads from one operator to the other. -/
def Linked (g : Graph) : Handle → Handle → Prop := ReflTransGen g.LinkStep

/-- The operator stands directly above or below an isolation marker. -/
def Borders (g : Graph) (x : Handle) : Prop :=
  ∃ m ∈ g.markers .isolate, g.Feeds x m ∨ g.Feeds m x

/-- The isolation region of the operator at a handle. -/
def regionOf (g : Graph) (x : Handle) : Option String := (g.get? x).bind Operator.region?

theorem Joined.symm (h : g.Joined x y) : g.Joined y x := ⟨h.2.1, h.1, h.2.2.symm⟩

theorem LinkStep.symm (h : g.LinkStep x y) : g.LinkStep y x := by
  rcases h with h | ⟨m, hm, ⟨hx, hy⟩ | ⟨hx, hy⟩⟩
  · exact Or.inl h.symm
  · exact Or.inr ⟨m, hm, Or.inl ⟨hy, hx⟩⟩
  · exact Or.inr ⟨m, hm, Or.inr ⟨hy, hx⟩⟩

theorem Component.symm (h : g.Component x y) : g.Component y x :=
  have : Std.Symm g.Joined := ⟨fun _ _ => Joined.symm⟩
  ReflTransGen.stdSymm.symm _ _ h

theorem Linked.symm (h : g.Linked x y) : g.Linked y x :=
  have : Std.Symm g.LinkStep := ⟨fun _ _ => LinkStep.symm⟩
  ReflTransGen.stdSymm.symm _ _ h

end Graph

namespace Isolation

open StreamTopology.Graph

variable {g g' : Graph} {w w' : Workspace} {n k i : Nat} {m x y z s : Handle}
  {starts islands : List Handle} {bs : List (List Handle)} {op : Operator}

/-! ### Walks by the ports -/

/-- What all of the following assumes of the graph before the run. -/
structure Checked (g : Graph) : Prop where
  wellFormed : g.WellFormed
  indexed : g.Indexed
  agrees : g.Agrees
  passable : ∀ m ∈ g.markers .isolate, Passable g m

section

variable (hc : Checked g)

include hc

theorem Checked.mirrored : g.Mirrored := hc.agrees.mirrored hc.wellFormed hc.indexed

theorem Checked.isGate : g.isGate bounds x = true ↔ x ∈ g.markers .isolate :=
  isGate_iff_mem_markers hc.wellFormed

theorem Checked.isGate_false : g.isGate bounds x = false ↔ x ∉ g.markers .isolate := by
  rw [← hc.isGate, Bool.not_eq_true]

theorem Checked.mem_children : y ∈ g.children x ↔ g.Feeds x y :=
  Graph.mem_children hc.wellFormed hc.indexed

theorem Checked.mem_parents : x ∈ g.parents y ↔ g.Feeds x y :=
  Graph.mem_parents hc.wellFormed hc.indexed hc.agrees

theorem Checked.adjacent : g.Adjacent x y ↔ g.Feeds x y ∨ g.Feeds y x := by
  rw [Adjacent, hc.mem_parents, hc.mem_children, or_comm]

/-- The checks see to it that no marker follows another. -/
theorem Checked.apart : g.GatesApart bounds :=
  fun m hm => (hc.passable m (hc.isGate.mp hm)).apart

theorem Checked.not_marker_of_borders (hx : g.Borders x) : x ∉ g.markers .isolate := by
  obtain ⟨m, hm, h | h⟩ := hx
  · exact hc.isGate_false.mp (hc.apart m (hc.isGate.mpr hm) x (hc.mem_parents.mpr h))
  · exact hc.isGate_false.mp
      (hc.apart.children hc.mirrored (hc.isGate.mpr hm) (hc.mem_children.mpr h))

theorem Checked.acrossGate : g.AcrossGate bounds x y ↔
    ∃ m ∈ g.markers .isolate, g.Feeds x m ∧ g.Feeds y m ∨ g.Feeds m x ∧ g.Feeds m y := by
  simp only [AcrossGate, hc.isGate, hc.mem_parents, hc.mem_children]
  constructor
  · rintro ⟨m, hm, h⟩
    exact ⟨m, hm, h.symm⟩
  · rintro ⟨m, hm, h⟩
    exact ⟨m, hm, h.symm⟩

/-- From an operator that is no marker, a step of a walk is a step between linked operators. -/
theorem Checked.linkStep (hx : x ∉ g.markers .isolate) (h : g.Beside bounds x y) :
    g.LinkStep x y ∧ y ∉ g.markers .isolate := by
  rcases h with ⟨hy, hadj⟩ | hacross
  · have hy := hc.isGate_false.mp hy
    exact ⟨Or.inl ⟨hx, hy, hc.adjacent.mp hadj⟩, hy⟩
  · obtain ⟨m, hm, h⟩ := hc.acrossGate.mp hacross
    exact ⟨Or.inr ⟨m, hm, h⟩,
      hc.not_marker_of_borders ⟨m, hm, h.imp (fun h => h.2) fun h => h.2⟩⟩

theorem Checked.linked_of_beside (hx : x ∉ g.markers .isolate)
    (h : ReflTransGen (g.Beside bounds) x y) : g.Linked x y ∧ y ∉ g.markers .isolate := by
  induction h with
  | refl => exact ⟨.refl, hx⟩
  | tail _ hstep ih =>
    obtain ⟨hlink, hz⟩ := hc.linkStep ih.2 hstep
    exact ⟨ih.1.tail hlink, hz⟩

/-- A walk visits components as a whole. -/
theorem Checked.walk_component (h : g.Component x y) (hx : x ∈ g.walk bounds starts) :
    y ∈ g.walk bounds starts := by
  induction h with
  | refl => exact hx
  | tail _ hstep ih =>
    exact walk_closed ih (hc.adjacent.mpr hstep.2.2) (hc.isGate_false.mpr hstep.2.1)

/-! ### Batches around markers -/

/-- What a batch around a marker starts from borders that marker. -/
theorem Checked.borders_of_start (hstarts : starts ∈ around g (g.markers .isolate))
    (hs : s ∈ starts) : g.Borders s := by
  obtain ⟨m, hm, hside⟩ := List.mem_flatMap.mp hstarts
  rcases List.mem_pair.mp hside with rfl | rfl
  · exact ⟨m, hm, Or.inl (hc.mem_parents.mp hs)⟩
  · exact ⟨m, hm, Or.inr (hc.mem_children.mp hs)⟩

theorem Checked.batch_no_marker (hstarts : starts ∈ around g (g.markers .isolate))
    (hx : x ∈ g.walk bounds starts) : x ∉ g.markers .isolate := by
  refine hc.isGate_false.mp (walk_gates hc.mirrored hc.apart (fun s hs => ?_) hx)
  exact hc.isGate_false.mpr (hc.not_marker_of_borders (hc.borders_of_start hstarts hs))

/-- The operators of a batch around a marker are linked with each other. -/
theorem Checked.batch_linked (hstarts : starts ∈ around g (g.markers .isolate))
    (hx : x ∈ g.walk bounds starts) (hy : y ∈ g.walk bounds starts) : g.Linked x y := by
  obtain ⟨m, hm, hside⟩ := List.mem_flatMap.mp hstarts
  obtain ⟨s, hs, hsx⟩ := walk_sound hx
  obtain ⟨t, ht, hty⟩ := walk_sound hy
  have hst : g.LinkStep s t := by
    rcases List.mem_pair.mp hside with rfl | rfl
    · exact Or.inr ⟨m, hm, Or.inl ⟨hc.mem_parents.mp hs, hc.mem_parents.mp ht⟩⟩
    · exact Or.inr ⟨m, hm, Or.inr ⟨hc.mem_children.mp hs, hc.mem_children.mp ht⟩⟩
  have hsx := hc.linked_of_beside (hc.not_marker_of_borders (hc.borders_of_start hstarts hs)) hsx
  have hty := hc.linked_of_beside (hc.not_marker_of_borders (hc.borders_of_start hstarts ht)) hty
  exact hsx.1.symm.trans (.head hst hty.1)

/-- What borders a marker is claimed by a batch around that marker. -/
theorem Checked.claimed_of_borders (h : g.Borders x) :
    ∃ starts ∈ around g (g.markers .isolate), x ∈ g.walk bounds starts := by
  have hgate := hc.isGate_false.mpr (hc.not_marker_of_borders h)
  obtain ⟨m, hm, h | h⟩ := h
  · exact ⟨g.parents m, List.mem_flatMap.mpr ⟨m, hm, List.mem_cons_self⟩,
      start_mem_walk hgate (hc.mem_parents.mpr h)⟩
  · exact ⟨g.children m, List.mem_flatMap.mpr ⟨m, hm, by simp⟩,
      start_mem_walk hgate (hc.mem_children.mpr h)⟩

/-- Beyond a source that is itself a marker, everything is claimed by the batches around markers. -/
theorem Checked.claimed_beyond (hs : s ∈ g.markers .isolate)
    (h : ReflTransGen (g.Beside bounds) s x) (hne : x ≠ s) :
    ∃ starts ∈ around g (g.markers .isolate), x ∈ g.walk bounds starts := by
  induction h with
  | refl => exact absurd rfl hne
  | @tail y z hsy hyz ih =>
    rcases hyz with ⟨hz, hadj⟩ | hacross
    · by_cases hy : y = s
      · exact hc.claimed_of_borders ⟨s, hs, ((hc.adjacent.mp (hy ▸ hadj)).symm)⟩
      · obtain ⟨starts, hstarts, hvisit⟩ := ih hy
        exact ⟨starts, hstarts, walk_closed hvisit hadj hz⟩
    · obtain ⟨m, hm, h⟩ := hc.acrossGate.mp hacross
      exact hc.claimed_of_borders ⟨m, hm, h.imp (fun h => h.2) fun h => h.2⟩

end

/-! ### First batches -/

theorem firstBatch_ne_none :
    firstBatch g bs x ≠ none ↔ ∃ starts ∈ bs, x ∈ g.walk bounds starts := by
  rw [firstBatch, ne_eq, List.findIdx?_eq_none_iff]
  simp

theorem mem_of_firstBatch (h : firstBatch g bs x = some i) :
    ∃ starts, bs[i]? = some starts ∧ x ∈ g.walk bounds starts := by
  obtain ⟨hlt, hmem, _⟩ := List.findIdx?_eq_some_iff_getElem.mp h
  exact ⟨bs[i], List.getElem?_eq_getElem hlt, by simpa using hmem⟩

theorem firstBatch_lt (h : firstBatch g bs x = some i) : i < bs.length := by
  obtain ⟨starts, hstarts, _⟩ := mem_of_firstBatch h
  exact (List.getElem?_eq_some_iff.mp hstarts).1

/-- The first of two lists of batches goes before the second. -/
theorem firstBatch_append {cs : List (List Handle)} (h : firstBatch g (bs ++ cs) x = some i) :
    firstBatch g bs x = some i ∨
      firstBatch g bs x = none ∧ ∃ j, firstBatch g cs x = some j ∧ i = bs.length + j := by
  have hor : firstBatch g (bs ++ cs) x =
      (firstBatch g bs x).or ((firstBatch g cs x).map fun j => j + bs.length) :=
    List.findIdx?_append
  rw [hor, Option.or_eq_some_iff] at h
  rcases h with h | ⟨hnone, h⟩
  · exact Or.inl h
  · obtain ⟨j, hj, hi⟩ := Option.map_eq_some_iff.mp h
    exact Or.inr ⟨hnone, j, hj, by omega⟩

section

variable (hc : Checked g)

include hc

theorem Checked.firstBatch_component (h : g.Component x y) :
    firstBatch g bs x = firstBatch g bs y := by
  have hsame : ∀ starts : List Handle,
      (g.walk bounds starts).contains x = (g.walk bounds starts).contains y := by
    intro starts
    rw [Bool.eq_iff_iff, List.contains_iff_mem, List.contains_iff_mem]
    exact ⟨hc.walk_component h, hc.walk_component h.symm⟩
  simp only [firstBatch, hsame]

/-- Operators with the same first batch are linked. -/
theorem Checked.firstBatch_linked (hx : x ∉ g.markers .isolate)
    (hxi : firstBatch g (batches g islands) x = some i)
    (hyi : firstBatch g (batches g islands) y = some i) : g.Linked x y := by
  rcases firstBatch_append hxi with hxa | ⟨hxa, j, hxj, hj⟩
  · have hlt := firstBatch_lt hxa
    rcases firstBatch_append hyi with hya | ⟨_, j, _, hj⟩
    · obtain ⟨starts, hstarts, hxw⟩ := mem_of_firstBatch hxa
      obtain ⟨starts', hstarts', hyw⟩ := mem_of_firstBatch hya
      obtain rfl := Option.some.inj (hstarts.symm.trans hstarts')
      exact hc.batch_linked (List.mem_of_getElem? hstarts) hxw hyw
    · omega
  · rcases firstBatch_append hyi with hya | ⟨_, j', hyj, hj'⟩
    · have hlt := firstBatch_lt hya
      omega
    · obtain rfl : j = j' := by omega
      obtain ⟨starts, hstarts, hxw⟩ := mem_of_firstBatch hxj
      obtain ⟨starts', hstarts', hyw⟩ := mem_of_firstBatch hyj
      obtain rfl := Option.some.inj (hstarts.symm.trans hstarts')
      obtain ⟨s, _, rfl⟩ := List.mem_map.mp (List.mem_of_getElem? hstarts)
      obtain ⟨s', hs', hsx⟩ := walk_sound hxw
      obtain rfl := List.mem_singleton.mp hs'
      obtain ⟨s'', hs'', hsy⟩ := walk_sound hyw
      obtain rfl := List.mem_singleton.mp hs''
      by_cases hs : s'' ∈ g.markers .isolate
      · -- what lies beyond such a source belongs to an earlier batch
        have hne : x ≠ s'' := fun he => hx (he ▸ hs)
        exact absurd hxa (firstBatch_ne_none.mpr (hc.claimed_beyond hs hsx hne))
      · exact (hc.linked_of_beside hs hsx).1.symm.trans (hc.linked_of_beside hs hsy).1

/-- What a batch claims is in a component with a source or with an operator next to a marker. -/
theorem Checked.anchored_of_walk (hstarts : ∀ s ∈ starts, s ∈ g.sources ∨ g.Borders s)
    (hx : x ∈ g.walk bounds starts) :
    ∃ s, g.Component x s ∧ (s ∈ g.sources ∨ g.Borders s) := by
  obtain ⟨s, hs, hsx⟩ := walk_sound hx
  clear hx
  induction hsx with
  | refl => exact ⟨s, .refl, hstarts s hs⟩
  | @tail y z _ hyz ih =>
    rcases hyz with ⟨hz, hadj⟩ | hacross
    · have hfeeds := hc.adjacent.mp hadj
      by_cases hy : y ∈ g.markers .isolate
      · exact ⟨z, .refl, Or.inr ⟨y, hy, hfeeds.symm⟩⟩
      · obtain ⟨t, hyt, hanchor⟩ := ih
        exact ⟨t, .head ⟨hc.isGate_false.mp hz, hy, hfeeds.symm⟩ hyt, hanchor⟩
    · obtain ⟨m, hm, h⟩ := hc.acrossGate.mp hacross
      exact ⟨z, .refl, Or.inr ⟨m, hm, h.imp (fun h => h.2) fun h => h.2⟩⟩

/-- **Which operators have a batch.** -/
theorem Checked.firstBatch_iff (ho : Outcome g n islands g') :
    firstBatch g (batches g islands) x ≠ none ↔
      ∃ s, g.Component x s ∧ (s ∈ g.sources ∨ g.Borders s) := by
  constructor
  · intro h
    obtain ⟨starts, hstarts, hx⟩ := firstBatch_ne_none.mp h
    refine hc.anchored_of_walk (fun s hs => ?_) hx
    rcases List.mem_append.mp hstarts with hstarts | hstarts
    · exact Or.inr (hc.borders_of_start hstarts hs)
    · obtain ⟨t, ht, rfl⟩ := List.mem_map.mp hstarts
      exact Or.inl (List.mem_singleton.mp hs ▸ ho.islands_sub ht)
  · rintro ⟨s, hxs, hs | hs⟩
    · rw [hc.firstBatch_component hxs]
      exact ho.covered s hs
    · rw [hc.firstBatch_component hxs]
      obtain ⟨starts, hstarts, hvisit⟩ := hc.claimed_of_borders hs
      exact firstBatch_ne_none.mpr ⟨starts, List.mem_append_left _ hstarts, hvisit⟩

end

/-- The region of an operator that is left is numbered by its first batch. -/
theorem Outcome.regionOf (ho : Outcome g n islands g') (hx : g'.contains x = true) :
    x ∉ g.markers .isolate ∧ g'.regionOf x =
      (firstBatch g (batches g islands) x).map fun i => isolateRegionName (n + i) := by
  obtain ⟨op, hop⟩ := contains_iff.mp hx
  refine ⟨fun hm => ?_, ?_⟩
  · rw [ho.gone x hm] at hop
    cases hop
  · rw [Graph.regionOf, hop, Option.bind_some]
    exact ho.region x op hop

theorem Outcome.contains (ho : Outcome g n islands g') (hx : x ∉ g.markers .isolate) :
    g'.contains x = g.contains x := by
  have hsome := congrArg Option.isSome (ho.kept x hx)
  simpa [Graph.contains] using hsome

theorem Outcome.region_inj (ho : Outcome g n islands g') (hx : g'.contains x = true)
    (hy : g'.contains y = true) : g'.regionOf x = g'.regionOf y ↔
      firstBatch g (batches g islands) x = firstBatch g (batches g islands) y := by
  rw [(ho.regionOf hx).2, (ho.regionOf hy).2]
  refine Option.map_injective (fun i j h => ?_) |>.eq_iff
  have := Decimal.numbered_injective _ h
  omega

end Isolation

open StreamTopology.Graph Isolation

/-- **Regions after the isolation pass.** Two operators in one component have the same region or
none. Two operators with the same region are linked. An operator has a region exactly when its
component contains a source or an operator directly above or below a marker. -/
theorem isolation_regions {w w' : Workspace} {k : Nat} {u v : Handle} (hg : w.graph.WellFormed)
    (hi : w.graph.Indexed) (ha : w.graph.Agrees)
    (hblank : ∀ x op, w.graph.get? x = some op → op.region? = none)
    (hrun : Yields Isolation.run w k w') (hu : w'.graph.contains u = true)
    (hv : w'.graph.contains v = true) :
    (w.graph.Component u v → w'.graph.regionOf u = w'.graph.regionOf v) ∧
      (∀ r, w'.graph.regionOf u = some r → w'.graph.regionOf v = some r → w.graph.Linked u v) ∧
      ((w'.graph.regionOf u).isSome = true ↔
        ∃ s, w.graph.Component u s ∧ (s ∈ w.graph.sources ∨ w.graph.Borders s)) := by
  obtain ⟨hpass, islands, ho⟩ := run_outcome hg hblank hrun
  have hc : Checked w.graph := ⟨hg, hi, ha, hpass⟩
  refine ⟨fun h => ?_, fun r hur hvr => ?_, ?_⟩
  · exact (ho.region_inj hu hv).mpr (hc.firstBatch_component h)
  · have hsame := (ho.region_inj hu hv).mp (hur.trans hvr.symm)
    rw [(ho.regionOf hu).2] at hur
    obtain ⟨i, hi, _⟩ := Option.map_eq_some_iff.mp hur
    exact hc.firstBatch_linked (ho.regionOf hu).1 hi (hsame ▸ hi)
  · rw [(ho.regionOf hu).2, Option.isSome_map, Option.isSome_iff_ne_none]
    exact hc.firstBatch_iff ho

/-- Two consumers of one source, one of them behind a marker, and a source by itself. -/
def oneMarker : Graph := Graph.reindexed
  { name := "oneMarker"
    slots := [
      some { name := "a", kind := "Beacon"
             outputs := [{ name := "ao", connections := ["mi", "ci"] }] },
      some { name := "m", kind := "$Isolate$"
             inputs := [{ name := "mi", connections := ["ao"] }]
             outputs := [{ name := "mo", connections := ["bi"] }] },
      some { name := "b", kind := "Custom"
             inputs := [{ name := "bi", connections := ["mo"] }] },
      some { name := "c", kind := "Custom"
             inputs := [{ name := "ci", connections := ["ao"] }] },
      some { name := "d", kind := "Beacon" }]
    order := (List.range 5).map Handle.mk }

theorem oneMarker_checked : Checked oneMarker := by
  have hof : Graph.ofDescription oneMarker.toDescription = .ok oneMarker := by decide
  refine ⟨WellFormed.ofDescription hof, Indexed.ofDescription hof, ?_, ?_⟩
  · show ∀ p ∈ oneMarker.outputPorts, ∀ q ∈ oneMarker.inputPorts, _
    decide
  · have hmarkers : oneMarker.markers .isolate = [⟨1⟩] := by decide
    have hparents : oneMarker.parents ⟨1⟩ = [⟨0⟩] := by decide
    have hwalk : oneMarker.walk bounds [⟨0⟩] = [⟨0⟩, ⟨3⟩] :=
      walkFrom_of_within (n := 4) (by decide)
    intro m hm
    obtain rfl := List.mem_singleton.mp (hmarkers ▸ hm)
    refine ⟨by decide, ?_⟩
    rw [hparents, hwalk]
    decide

theorem oneMarker_blank : ∀ x op, oneMarker.get? x = some op → op.region? = none := by
  intro x op hop
  have hall : ∀ x ∈ oneMarker.order, ∀ op ∈ oneMarker.get? x, op.region? = none := by decide
  exact hall x (oneMarker_checked.wellFormed.mem_order_iff.mpr ⟨op, hop⟩) op hop

theorem oneMarker_run : ∃ w', Yields Isolation.run { graph := oneMarker } 1 w' := by
  have hc := oneMarker_checked
  refine run_total (w := { graph := oneMarker }) hc.wellFormed oneMarker_blank hc.passable ?_
  intro m hm
  have hall : ∀ m ∈ oneMarker.markers .isolate,
      (oneMarker.get? m).any (fun op => decide (op.outputs.length ≤ 1)) = true := by decide
  simpa using (Option.any_eq_true _ _).mp (hall m hm)

theorem isolation_regions_oneMarker :
    oneMarker.WellFormed ∧ oneMarker.Indexed ∧ oneMarker.Agrees ∧
      (∀ x op, oneMarker.get? x = some op → op.region? = none) ∧
      ∃ w', Yields Isolation.run { graph := oneMarker } 1 w' ∧
        w'.graph.contains ⟨0⟩ = true ∧ w'.graph.contains ⟨3⟩ = true ∧
        (oneMarker.Component ⟨0⟩ ⟨3⟩ → w'.graph.regionOf ⟨0⟩ = w'.graph.regionOf ⟨3⟩) ∧
        (∀ r, w'.graph.regionOf ⟨0⟩ = some r → w'.graph.regionOf ⟨3⟩ = some r →
          oneMarker.Linked ⟨0⟩ ⟨3⟩) ∧
        ((w'.graph.regionOf ⟨0⟩).isSome = true ↔
          ∃ s, oneMarker.Component ⟨0⟩ s ∧ (s ∈ oneMarker.sources ∨ oneMarker.Borders s)) := by
  have hc := oneMarker_checked
  obtain ⟨w', hrun⟩ := oneMarker_run
  obtain ⟨_, islands, ho⟩ := run_outcome hc.wellFormed oneMarker_blank hrun
  have hu : w'.graph.contains ⟨0⟩ = true := (ho.contains (by decide)).trans (by decide)
  have hv : w'.graph.contains ⟨3⟩ = true := (ho.contains (by decide)).trans (by decide)
  exact ⟨hc.wellFormed, hc.indexed, hc.agrees, oneMarker_blank, w', hrun, hu, hv,
    isolation_regions hc.wellFormed hc.indexed hc.agrees oneMarker_blank hrun hu hv⟩

end StreamTopology
