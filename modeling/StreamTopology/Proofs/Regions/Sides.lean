import StreamTopology.Proofs.Regions.Linked

/-!
# The two sides of a marker

A run keeps the two sides of every marker in different regions exactly when no operator above a
marker is linked with one below it. The checks of a run ask for less: each looks at one marker with
a single walk, and that walk goes around every other marker on one side only. So there are graphs
that pass all checks and whose sides are joined nevertheless, and `crossing_rejoined` is one.

That sides which stay apart are not linked is shown along the batches. As long as the batches so far
have kept all sides apart, what they have claimed is closed under links: where a walk comes to a
marker from the far side, it claims an operator on each side of it, and both belong to that batch,
since the operators of a batch are linked and would otherwise have been claimed together before.

## Main definitions

* `Graph.Parted`: no operator above a marker is linked with one below it.

## Main results

* `isolation_separates_iff`: when a run keeps the sides of all markers apart.
* `crossing_rejoined`: a run that succeeds and does not.
-/

namespace StreamTopology

open Relation StreamTopology.Graph

/-- No operator directly above an isolation marker is linked with one directly below it. -/
def Graph.Parted (g : Graph) : Prop :=
  ∀ m ∈ g.markers .isolate, ∀ p c, g.Feeds p m → g.Feeds m c → ¬ g.Linked p c

namespace Isolation

variable {g g' : Graph} {n k i : Nat} {m p c x y z : Handle} {starts islands : List Handle}
  {bs cs : List (List Handle)}

theorem firstBatch_le (hs : bs[i]? = some starts) (hx : x ∈ g.walk bounds starts) :
    ∃ j ≤ i, firstBatch g bs x = some j := by
  obtain ⟨hlt, rfl⟩ := List.getElem?_eq_some_iff.mp hs
  have hne : firstBatch g bs x ≠ none :=
    firstBatch_ne_none.mpr ⟨bs[i], List.getElem_mem hlt, hx⟩
  obtain ⟨j, hj⟩ := Option.ne_none_iff_exists'.mp hne
  refine ⟨j, ?_, hj⟩
  obtain ⟨_, _, hbefore⟩ := List.findIdx?_eq_some_iff_getElem.mp hj
  by_contra hlt'
  exact hbefore i (by omega) (by simpa using hx)

theorem firstBatch_append_of_ne_none (h : firstBatch g bs x ≠ none) :
    firstBatch g (bs ++ cs) x = firstBatch g bs x := by
  obtain ⟨j, hj⟩ := Option.ne_none_iff_exists'.mp h
  rw [hj]
  rw [firstBatch] at hj ⊢
  rw [List.findIdx?_append, hj, Option.some_or]

/-- The batches around markers keep the sides of every marker apart. -/
def Apart (g : Graph) : Prop :=
  ∀ m ∈ g.markers .isolate, ∀ p c, g.Feeds p m → g.Feeds m c →
    firstBatch g (around g (g.markers .isolate)) p ≠
      firstBatch g (around g (g.markers .isolate)) c

section

variable (hc : Checked g)

include hc

/-- If what was claimed before a batch is closed under links, and the batch is the first to claim
one operator, then it is the first to claim everything that it visits. -/
theorem Checked.firstBatch_batch
    (hclosed : ∀ y z, g.Linked y z →
      (∃ j < i, firstBatch g (around g (g.markers .isolate)) y = some j) →
        ∃ j < i, firstBatch g (around g (g.markers .isolate)) z = some j)
    (hstarts : (around g (g.markers .isolate))[i]? = some starts)
    (hx : x ∈ g.walk bounds starts)
    (hxi : firstBatch g (around g (g.markers .isolate)) x = some i)
    (hz : z ∈ g.walk bounds starts) :
    firstBatch g (around g (g.markers .isolate)) z = some i := by
  obtain ⟨l, hl, hzl⟩ := firstBatch_le hstarts hz
  rcases Nat.lt_or_eq_of_le hl with hlt | rfl
  · have hlink := hc.batch_linked (List.mem_of_getElem? hstarts) hz hx
    obtain ⟨l', hl', hxl'⟩ := hclosed z x hlink ⟨l, hlt, hzl⟩
    rw [hxi, Option.some.injEq] at hxl'
    omega
  · exact hzl

/-- **One batch more.** If the sides are kept apart, and what was claimed before is closed under
links, then so is what is claimed with this batch. -/
theorem Checked.closed_before (hapart : Apart g) (i : Nat) : ∀ x y, g.LinkStep x y →
    (∃ j < i, firstBatch g (around g (g.markers .isolate)) x = some j) →
      ∃ j < i, firstBatch g (around g (g.markers .isolate)) y = some j := by
  induction i with
  | zero =>
    rintro x y _ ⟨j, hj, _⟩
    omega
  | succ i ih =>
    have hlinked : ∀ x y, g.Linked x y →
        (∃ j < i, firstBatch g (around g (g.markers .isolate)) x = some j) →
          ∃ j < i, firstBatch g (around g (g.markers .isolate)) y = some j := by
      intro x y hxy hx
      induction hxy with
      | refl => exact hx
      | tail _ hstep hy => exact ih _ _ hstep hy
    rintro x y hxy ⟨j, hj, hxj⟩
    by_cases hlt : j < i
    · obtain ⟨l, hl, hyl⟩ := ih x y hxy ⟨j, hlt, hxj⟩
      exact ⟨l, by omega, hyl⟩
    obtain rfl : j = i := by omega
    obtain ⟨starts, hstarts, hx⟩ := mem_of_firstBatch hxj
    have hside := List.mem_of_getElem? hstarts
    have hfirst : ∀ z ∈ g.walk bounds starts,
        firstBatch g (around g (g.markers .isolate)) z = some j :=
      fun z hz => hc.firstBatch_batch hlinked hstarts hx hxj hz
    have hgates : ∀ z ∈ g.walk bounds starts, z ∉ g.markers .isolate :=
      fun z hz => hc.batch_no_marker hside hz
    suffices hy : y ∈ g.walk bounds starts from ⟨j, Nat.lt_succ_self j, hfirst y hy⟩
    rcases hxy with hjoin | ⟨m, hm, ⟨hxm, hym⟩ | ⟨hmx, hmy⟩⟩
    · exact hc.walk_component (.single hjoin) hx
    · rcases walk_around hc.mirrored hc.apart hx (hc.isGate.mpr hm)
        (hc.adjacent.mpr (Or.inl hxm)) with hvisit | ⟨_, hall⟩ | ⟨⟨c, hmc, hcw⟩, _⟩
      · exact absurd hm (hgates m hvisit)
      · exact (hall y (hc.mem_parents.mpr hym)).resolve_left List.not_mem_nil
      · exact absurd (hxj.trans (hfirst c hcw).symm)
          (hapart m hm x c hxm (hc.mem_children.mp hmc))
    · rcases walk_around hc.mirrored hc.apart hx (hc.isGate.mpr hm)
        (hc.adjacent.mpr (Or.inr hmx)) with hvisit | ⟨⟨p, hpm, hpw⟩, _⟩ | ⟨_, hall⟩
      · exact absurd hm (hgates m hvisit)
      · exact absurd ((hfirst p hpw).trans hxj.symm)
          (hapart m hm p x (hc.mem_parents.mp hpm) hmx)
      · exact (hall y (hc.mem_children.mpr hmy)).resolve_left List.not_mem_nil

theorem Checked.linked_before (hapart : Apart g) (h : g.Linked x y)
    (hx : ∃ j < i, firstBatch g (around g (g.markers .isolate)) x = some j) :
    ∃ j < i, firstBatch g (around g (g.markers .isolate)) y = some j := by
  induction h with
  | refl => exact hx
  | tail _ hstep ih => exact hc.closed_before hapart i _ _ hstep ih

/-- **All batches.** They keep the sides of every marker apart exactly when the sides are not
linked. -/
theorem Checked.apart_iff : Apart g ↔ g.Parted := by
  have hclaimed : ∀ {x}, g.Borders x →
      ∃ i, firstBatch g (around g (g.markers .isolate)) x = some i :=
    fun hx => Option.ne_none_iff_exists'.mp (firstBatch_ne_none.mpr (hc.claimed_of_borders hx))
  constructor
  · intro hapart m hm p c hpm hmc hlink
    obtain ⟨i, hi⟩ := hclaimed ⟨m, hm, Or.inl hpm⟩
    obtain ⟨j, hj, hcj⟩ := hc.linked_before hapart hlink ⟨i, Nat.lt_succ_self i, hi⟩
    obtain ⟨l, hl, hpl⟩ := hc.linked_before hapart hlink.symm ⟨j, Nat.lt_succ_self j, hcj⟩
    rw [hi, Option.some.injEq] at hpl
    refine hapart m hm p c hpm hmc ?_
    rw [hi, hcj]
    congr 1
    omega
  · intro hparted m hm p c hpm hmc heq
    obtain ⟨i, hi⟩ := hclaimed ⟨m, hm, Or.inl hpm⟩
    obtain ⟨starts, hstarts, hp⟩ := mem_of_firstBatch hi
    obtain ⟨starts', hstarts', hcw⟩ := mem_of_firstBatch (heq ▸ hi)
    obtain rfl := Option.some.inj (hstarts.symm.trans hstarts')
    exact hparted m hm p c hpm hmc (hc.batch_linked (List.mem_of_getElem? hstarts) hp hcw)

end

/-- What borders a marker has a region, and it is that of a batch around a marker. -/
theorem Outcome.regionOf_border (hc : Checked g) (ho : Outcome g n islands g')
    (hx : g.Borders x) : g'.regionOf x =
      (firstBatch g (around g (g.markers .isolate)) x).map fun i => isolateRegionName (n + i) := by
  have hlive : g.contains x = true := by
    obtain ⟨m, _, ⟨a, _, ha, _, _⟩ | ⟨_, b, _, hb, _⟩⟩ := hx
    · exact contains_iff.mpr ⟨a, ha⟩
    · exact contains_iff.mpr ⟨b, hb⟩
  have hkept := (ho.contains (hc.not_marker_of_borders hx)).trans hlive
  rw [(ho.regionOf hkept).2, batches,
    firstBatch_append_of_ne_none (firstBatch_ne_none.mpr (hc.claimed_of_borders hx))]

end Isolation

open Isolation

/-- **When the sides of all markers are kept apart.** After a run that succeeds, no operator that
was directly above a marker has the same region as one that was directly below it, if and only if no
two such operators were linked. -/
theorem isolation_separates_iff {w w' : Workspace} {k : Nat} (hg : w.graph.WellFormed)
    (hi : w.graph.Indexed) (ha : w.graph.Agrees)
    (hblank : ∀ x op, w.graph.get? x = some op → op.region? = none)
    (hrun : Yields Isolation.run w k w') :
    (∀ m ∈ w.graph.markers .isolate, ∀ p c, w.graph.Feeds p m → w.graph.Feeds m c →
        w'.graph.regionOf p ≠ w'.graph.regionOf c) ↔ w.graph.Parted := by
  obtain ⟨hpass, islands, ho⟩ := run_outcome hg hblank hrun
  have hc : Checked w.graph := ⟨hg, hi, ha, hpass⟩
  rw [← hc.apart_iff]
  have hsame : ∀ {m p c}, m ∈ w.graph.markers .isolate → w.graph.Feeds p m → w.graph.Feeds m c →
      (w'.graph.regionOf p = w'.graph.regionOf c ↔
        firstBatch w.graph (around w.graph (w.graph.markers .isolate)) p =
          firstBatch w.graph (around w.graph (w.graph.markers .isolate)) c) := by
    intro m p c hm hp hcc
    rw [ho.regionOf_border hc ⟨m, hm, Or.inl hp⟩, ho.regionOf_border hc ⟨m, hm, Or.inr hcc⟩]
    refine Option.map_injective (fun i j h => ?_) |>.eq_iff
    have := Decimal.numbered_injective _ h
    omega
  constructor
  · exact fun h m hm p c hp hcc heq => h m hm p c hp hcc ((hsame hm hp hcc).mpr heq)
  · exact fun h m hm p c hp hcc heq => h m hm p c hp hcc ((hsame hm hp hcc).mp heq)

/-- In the graph with one marker the sides are kept apart, since nothing else joins them. -/
theorem isolation_separates_iff_oneMarker :
    oneMarker.WellFormed ∧ oneMarker.Indexed ∧ oneMarker.Agrees ∧
      (∀ x op, oneMarker.get? x = some op → op.region? = none) ∧
      ∃ w', Yields Isolation.run { graph := oneMarker } 1 w' ∧
        ((∀ m ∈ oneMarker.markers .isolate, ∀ p c, oneMarker.Feeds p m → oneMarker.Feeds m c →
          w'.graph.regionOf p ≠ w'.graph.regionOf c) ↔ oneMarker.Parted) := by
  have hc := oneMarker_checked
  obtain ⟨w', hrun⟩ := oneMarker_run
  exact ⟨hc.wellFormed, hc.indexed, hc.agrees, oneMarker_blank, w', hrun,
    isolation_separates_iff hc.wellFormed hc.indexed hc.agrees oneMarker_blank hrun⟩

/-- Two markers in a row, `m` and `n`, with a second way from above the one to above the other, and
a stream from above the first to below the second. The walk that checks `n` comes to `m` from below
before it comes to it from above. -/
def crossing : Graph := Graph.reindexed
  { name := "crossing"
    slots := [
      some { name := "p2", kind := "Beacon"
             outputs := [{ name := "p2o", connections := ["mi", "vi"] }] },
      some { name := "p1", kind := "Beacon"
             outputs := [{ name := "p1o", connections := ["mi", "ui"] }] },
      some { name := "m", kind := "$Isolate$"
             inputs := [{ name := "mi", connections := ["p2o", "p1o"] }]
             outputs := [{ name := "mo", connections := ["ci"] }] },
      some { name := "c", kind := "Custom"
             inputs := [{ name := "ci", connections := ["mo"] }]
             outputs := [{ name := "co", connections := ["u2i"] }] },
      some { name := "u2", kind := "Custom"
             inputs := [{ name := "u2i", connections := ["co"] }]
             outputs := [{ name := "u2o", connections := ["ni"] }] },
      some { name := "u", kind := "Custom"
             inputs := [{ name := "ui", connections := ["p1o"] }]
             outputs := [{ name := "uo", connections := ["ni"] }] },
      some { name := "n", kind := "$Isolate$"
             inputs := [{ name := "ni", connections := ["u2o", "uo"] }]
             outputs := [{ name := "no", connections := ["vi"] }] },
      some { name := "v", kind := "Custom"
             inputs := [{ name := "vi", connections := ["no", "p2o"] }] }]
    order := (List.range 8).map Handle.mk }

/-- **Sides that are joined again.** The checks pass, and `u` above the second marker and `v` below
it get the same region. -/
theorem crossing_rejoined :
    crossing.WellFormed ∧ crossing.Indexed ∧ crossing.Wired ∧
      (∀ x op, crossing.get? x = some op → op.region? = none) ∧
      ∃ w', Yields Isolation.run { graph := crossing } 2 w' ∧
        ⟨6⟩ ∈ crossing.markers .isolate ∧ crossing.Feeds ⟨5⟩ ⟨6⟩ ∧ crossing.Feeds ⟨6⟩ ⟨7⟩ ∧
        w'.graph.regionOf ⟨5⟩ = some (isolateRegionName 0) ∧
        w'.graph.regionOf ⟨7⟩ = some (isolateRegionName 0) := by
  have hof : Graph.ofDescription crossing.toDescription = .ok crossing := by decide
  have hg := WellFormed.ofDescription hof
  have hi := Indexed.ofDescription hof
  have hw : crossing.Wired := by
    refine ⟨by decide, by decide, by decide, by decide, ?_⟩
    show ∀ p ∈ crossing.outputPorts, ∀ q ∈ crossing.inputPorts, _
    decide
  have hblank : ∀ x op, crossing.get? x = some op → op.region? = none := by
    intro x op hop
    have hall : ∀ x ∈ crossing.order, ∀ op ∈ crossing.get? x, op.region? = none := by decide
    exact hall x (hg.mem_order_iff.mpr ⟨op, hop⟩) op hop
  have hmarkers : crossing.markers .isolate = [⟨2⟩, ⟨6⟩] := by decide
  have hwalk₂ : crossing.walk bounds (crossing.parents ⟨2⟩) = [⟨0⟩, ⟨1⟩, ⟨7⟩, ⟨5⟩] :=
    walkFrom_of_within (n := 8) (by decide)
  have hwalk₆ : crossing.walk bounds (crossing.parents ⟨6⟩) = [⟨4⟩, ⟨5⟩, ⟨3⟩, ⟨1⟩] :=
    walkFrom_of_within (n := 8) (by decide)
  have hpass : ∀ m ∈ crossing.markers .isolate, Passable crossing m := by
    intro m hm
    rw [hmarkers] at hm
    rcases List.mem_pair.mp hm with rfl | rfl
    · exact ⟨by decide, by rw [hwalk₂]; decide⟩
    · exact ⟨by decide, by rw [hwalk₆]; decide⟩
  obtain ⟨w', hrun⟩ := run_total (w := { graph := crossing }) hg hblank hpass fun m hm => by
    have hall : ∀ m ∈ crossing.markers .isolate,
        (crossing.get? m).any (fun op => decide (op.outputs.length ≤ 1)) = true := by decide
    simpa using Option.any_eq_true _ _ |>.mp (hall m hm)
  obtain ⟨_, islands, ho⟩ := run_outcome hg hblank hrun
  have hc : Checked crossing := ⟨hg, hi, hw.agrees, hpass⟩
  have hu : crossing.Feeds ⟨5⟩ ⟨6⟩ := hc.mem_children.mp (by decide)
  have hv : crossing.Feeds ⟨6⟩ ⟨7⟩ := hc.mem_children.mp (by decide)
  have hfirst : around crossing (crossing.markers .isolate) =
      crossing.parents ⟨2⟩ :: crossing.children ⟨2⟩ :: around crossing [⟨6⟩] := by
    rw [hmarkers]
    rfl
  have hn : (⟨6⟩ : Handle) ∈ crossing.markers .isolate := by simp [hmarkers]
  refine ⟨hg, hi, hw, hblank, w', hrun, hn, hu, hv, ?_, ?_⟩
  · rw [ho.regionOf_border hc ⟨⟨6⟩, hn, Or.inl hu⟩, hfirst, firstBatch, List.findIdx?_cons, hwalk₂]
    rfl
  · rw [ho.regionOf_border hc ⟨⟨6⟩, hn, Or.inr hv⟩, hfirst, firstBatch, List.findIdx?_cons, hwalk₂]
    rfl

end StreamTopology
