import StreamTopology.Proofs.Passes.Success
import StreamTopology.Proofs.Passes.Relocation
import StreamTopology.Proofs.Graph.Narrowing

/-!
# Operators that run on their own account

An `$Autonomous$` marker flags its children, and a child may be a marker that is taken out later:
the flag goes with it, and the operator further down has not got one. That no flag is lost this way
depends on the order of the passes. When flags are set, the markers of the other five kinds are
gone, so between a flagged child and the operator that was meant there can only be further
autonomous markers; and the last one of these has that operator for a child.

So a flag is not passed on along a chain of markers. It comes from the last autonomous marker of
the chain, and each chain has one.

## Main definitions

* `Graph.Flags`: a graph with flags on some more operators.
* `Marker.spliced`: the kinds that are gone when flags are set.

## Main results

* `autonomous_flags`: the flags after one pass.
* `Preparation.run_autonomous_iff`: the flags after a run.
-/

namespace StreamTopology

open StreamTopology.Graph

/-! ### One pass -/

namespace Graph

variable {g t : Graph} {P Q : Handle → Prop} {y : Handle} {op : Operator}

/-- `t` is `g` with other annotations, and the operators with the property have become
autonomous. -/
structure Flags (g : Graph) (P : Handle → Prop) (t : Graph) : Prop where
  annotates : g.Annotates t
  autonomous : ∀ x b, t.get? x = some b →
    ∃ a, g.get? x = some a ∧ (b.autonomous = true ↔ a.autonomous = true ∨ P x)

theorem Flags.congr (h : g.Flags P t) (hPQ : ∀ x, P x ↔ Q x) : g.Flags Q t := by
  obtain rfl : P = Q := funext fun x => propext (hPQ x)
  exact h

theorem Flags.none (g : Graph) : g.Flags (fun _ => False) g :=
  ⟨.refl g, fun _ b hb => ⟨b, hb, (or_iff_left id).symm⟩⟩

/-- One flag more. -/
theorem Flags.set (h : g.Flags P t) (hop : t.get? y = some op) :
    g.Flags (fun x => P x ∨ x = y) (t.set y { op with autonomous := true }) := by
  refine ⟨h.annotates.trans (annotates_set hop rfl), fun x b hb => ?_⟩
  rw [get?_set (contains_iff.mpr ⟨op, hop⟩)] at hb
  split at hb
  next hx =>
    obtain rfl := Option.some.inj hb
    obtain ⟨a, ha, _⟩ := h.autonomous y op hop
    exact ⟨a, hx ▸ ha, iff_of_true rfl (Or.inr (Or.inr hx))⟩
  next hx =>
    obtain ⟨a, ha, hflag⟩ := h.autonomous x b hb
    exact ⟨a, ha, by rw [hflag, or_iff_left hx]⟩

end Graph

section

variable {g g' t t' : Graph} {P : Handle → Prop} {n : Nat}

/-- A loop that sets flags. -/
theorem Graph.Flags.forM {xs : List Handle} (h : g.Flags P t)
    (hrun : Yields (xs.forM fun x => GraphM.update x fun op => { op with autonomous := true }) t ()
      t') : g.Flags (fun x => P x ∨ x ∈ xs) t' := by
  refine Yields.forM_induction (I := fun done s => g.Flags (fun x => P x ∨ x ∈ done) s)
    (fun done y s s' _ hI hstep => ?_) (h.congr fun x => by simp) hrun
  obtain ⟨op, hop, rfl⟩ := yields_update.mp hstep
  exact (hI.set hop).congr fun x => by rw [List.mem_append, List.mem_singleton, or_assoc]

/-- **One pass.** It leaves operators with the flag that they had, but for the children of
autonomous markers: those have it now. -/
theorem autonomous_flags (hg : g.Addressed) (hrun : Yields Autonomous.run g n g') :
    ∀ x b, g'.get? x = some b → ∃ a, g.get? x = some a ∧
      (b.autonomous = true ↔ a.autonomous = true ∨
        ∃ m, g.marker? m = some .autonomous ∧ g.Feeds m x) := by
  have hwf := hg.sound.wellFormed
  rw [Autonomous.run, yields_get_bind] at hrun
  simp only [yields_bind, yields_pure] at hrun
  obtain ⟨_, t, hloop, _, _, hremove, rfl, rfl⟩ := hrun
  -- annotating leaves children, so the loop sees those of `g` throughout
  have hflags : g.Flags (fun x => ∃ m ∈ g.markers .autonomous, x ∈ g.children m) t := by
    refine Yields.forM_induction
      (I := fun done s => g.Flags (fun x => ∃ m ∈ done, x ∈ g.children m) s)
      (fun done m s s' _ hI hstep => ?_) ((Flags.none g).congr fun x => by simp) hloop
    rw [yields_get_bind, hI.annotates.children] at hstep
    refine (hI.forM hstep).congr fun x => ?_
    simp only [List.mem_append, List.mem_singleton, or_and_right, exists_or, exists_eq_left]
  have hnarrowed : Narrowed Operator.autonomous t g' :=
    confined_removeAll (narrows_remove fun _ => rfl) _ _ _ hremove
      (hflags.annotates.addressed hg)
  intro x b hb
  obtain ⟨c, hc, hview, _⟩ := hnarrowed.kept x b hb
  obtain ⟨a, ha, hflag⟩ := hflags.autonomous x c hc
  refine ⟨a, ha, ?_⟩
  rw [← hview, hflag]
  simp only [mem_markers hwf, mem_children hwf hg.sound.indexed]

end

/-! ### The run -/

/-- The kinds of markers that are gone when flags are set. -/
def Marker.spliced : List Marker := [.isolate, .lowLatency, .endLowLatency, .union, .pending]

/-- Autonomous markers are the last that are taken out. -/
theorem Graph.marked_consumed_iff {g : Graph} {x : Handle} :
    g.Marked Marker.consumed x ↔ g.Marked Marker.spliced x ∨ g.marker? x = some .autonomous := by
  rw [show Marker.consumed = Marker.spliced ++ [.autonomous] from rfl]
  simp only [Marked, List.mem_append, List.mem_singleton, or_and_right, exists_or, exists_eq_left]

namespace Preparation

variable {w w' : Workspace} {stats : Stats} {g t : Graph} {x : Handle}

/-- **The children that are left.** After the other markers have been taken out, an operator has an
autonomous marker for a parent exactly if a chain of markers led to it from one. -/
theorem exists_autonomous_feeds_iff (h : g.Sheds Marker.spliced t)
    (hx : ¬ g.Marked Marker.spliced x) :
    (∃ m, t.marker? m = some .autonomous ∧ t.Feeds m x) ↔
      ∃ m, g.marker? m = some .autonomous ∧
        Bridged g.Feeds (g.Marked Marker.consumed) m x := by
  have hunspliced : ∀ m, g.marker? m = some .autonomous → ¬ g.Marked Marker.spliced m := by
    rintro m hm ⟨k, hk, hkind⟩
    obtain rfl := Option.some.inj (hm.symm.trans hkind)
    revert hk
    decide
  constructor
  · rintro ⟨m, hm, hfeeds⟩
    obtain ⟨hstays, _, hchain⟩ := (h.feeds m x).mp hfeeds
    exact ⟨m, marker?_congr (h.kind m hstays) ▸ hm,
      hchain.mono fun _ hz => marked_consumed_iff.mpr (Or.inl hz)⟩
  · rintro ⟨m, hm, hchain⟩
    obtain ⟨l, hl, hrest⟩ := (hchain.mono fun _ => marked_consumed_iff.mp).exists_last hm
    have hstays := hunspliced l hl
    exact ⟨l, (marker?_congr (h.kind l hstays)).trans hl,
      (h.feeds l x).mpr ⟨hstays, hx, hrest⟩⟩

/-- The stages of a run around the pass that sets flags. What comes before it takes out the markers
of the other kinds, and no other pass touches a flag. -/
theorem run_around_flags (hrun : Yields run w stats w') :
    ∃ g, Yields HashAdders.relocate w.graph stats.hashAddersRelocated g ∧
      (g.WellFormed → g.Indexed → g.Coherent → ∃ t t' n, g.Sheds Marker.spliced t ∧
        Narrowed Operator.autonomous g t ∧ Yields Autonomous.run t n t' ∧
        (t'.Addressed → Narrowed Operator.autonomous t' w'.graph)) := by
  obtain ⟨_, w₁, w₂, w₃, g₄, g₅, g₆, g₇, g₈, _, _, _, _, _, _, hrelocate, hisolation,
    hlowLatency, hthreaded, hunion, hpending, hautonomous, hcolocation, hreference, _⟩ :=
    run_passes hrun
  refine ⟨w₁.graph, hrelocate, fun hg hi hco => ?_⟩
  -- the markers that are taken out before
  have h₂ := isolation_sheds hg hi hco hisolation
  have h₃ := lowLatency_sheds h₂.wellFormed h₂.indexed h₂.coherent hlowLatency
  have h₄ := sheds_nil h₃.wellFormed h₃.indexed h₃.coherent
    (annotating_threadedPorts _ _ _ hthreaded)
  have h₅ := removeKind_sheds h₄.wellFormed h₄.indexed h₄.coherent hunion
  have h₆ := removeKind_sheds h₅.wellFormed h₅.indexed h₅.coherent hpending
  -- the flags on the way
  have hremove : ∀ x, Confined (Narrows Operator.autonomous) (Rewiring.remove x) :=
    narrows_remove fun _ => rfl
  have n₂ := confined_isolation hremove
    (fun _ => narrows_writes (fun _ => rfl) (fun _ => rfl) fun _ => rfl) _ _ _ hisolation
    ⟨⟨hg, hi⟩, hco.inputs_nodup⟩
  have n₃ := confined_lowLatency hremove
    (fun _ => narrows_writes (fun _ => rfl) (fun _ => rfl) fun _ => rfl) _ _ _ hlowLatency
    n₂.addressed
  have n₄ := confined_threadedPorts (R := Narrows Operator.autonomous)
    (fun _ => narrows_writes (fun _ => Operator.skeleton_drop) (fun _ => rfl) fun _ => rfl)
    (fun g x _ port hop _ => narrows_writes (f := ThreadedPorts.configure port) (fun _ => rfl)
      (fun _ => rfl) (fun _ => rfl) g x _ hop) _ _ _ hthreaded n₃.addressed
  have n₅ := confined_removeKind hremove _ _ _ _ hunion n₄.addressed
  have n₆ := confined_removeKind hremove _ _ _ _ hpending n₅.addressed
  refine ⟨g₆, g₇, _, h₂.trans (h₃.trans (h₄.trans (h₅.trans h₆))),
    n₂.trans (n₃.trans (n₄.trans (n₅.trans n₆))), hautonomous, fun haddressed => ?_⟩
  have n₈ := confined_colocation (R := Narrows Operator.autonomous)
    (narrows_writes (fun _ => rfl) (fun _ => rfl) fun _ => rfl) _ _ _ hcolocation haddressed
  have n₉ := confined_passByReference (R := Narrows Operator.autonomous)
    (fun _ => narrows_writes (fun _ => rfl) (fun _ => rfl) fun _ => rfl) _ _ _ hreference
    n₈.addressed
  exact n₈.trans n₉

/-- **What is autonomous in the end.** On a graph without hash adders, an operator that a run leaves
is autonomous exactly if it was before, or if an autonomous marker led to it through markers that
are taken out, or directly. The markers may have any number of ports and stand in cycles, and ports
may list a connection twice. -/
theorem run_autonomous_iff (hg : w.graph.WellFormed) (hi : w.graph.Indexed)
    (hco : w.graph.Coherent) (hadders : ∀ x op, w.graph.get? x = some op → op.isHashAdder = false)
    (hrun : Yields run w stats w') :
    ∀ x b, w'.graph.get? x = some b → ∃ a, w.graph.get? x = some a ∧
      (b.autonomous = true ↔ a.autonomous = true ∨
        ∃ m, w.graph.marker? m = some .autonomous ∧
          Bridged w.graph.Feeds (w.graph.Marked Marker.consumed) m x) := by
  obtain ⟨g, hrelocate, hstages⟩ := run_around_flags hrun
  obtain rfl := HashAdders.relocate_of_adderless hg hadders hrelocate
  obtain ⟨t, t', n, hsheds, hbefore, hflags, hafter⟩ := hstages hg hi hco
  have hkinds : Narrowed Operator.kind t t' :=
    confined_autonomous (narrows_remove fun _ => rfl)
      (narrows_writes (fun _ => rfl) (fun _ => rfl) fun _ => rfl) _ _ _ hflags hbefore.addressed
  intro x b hb
  obtain ⟨c, hc, hlast, _⟩ := (hafter hkinds.addressed).kept x b hb
  obtain ⟨d, hd, hflag⟩ := autonomous_flags hbefore.addressed hflags x c hc
  obtain ⟨a, ha, hfirst, _⟩ := hbefore.kept x d hd
  have hstays : ¬ w.graph.Marked Marker.spliced x := by
    intro hgone
    rw [hsheds.vacated x hgone] at hd
    cases hd
  refine ⟨a, ha, ?_⟩
  rw [← hlast, hflag, ← hfirst, exists_autonomous_feeds_iff hsheds hstays]

/-! ### Markers between a marker and its operator -/

/-- Two autonomous markers with an isolate between them, and a pending marker above `b`. -/
def markedAbove : Graph := Graph.reindexed
  { name := "markedAbove"
    slots := [
      some { name := "s", kind := "Beacon"
             outputs := [{ name := "so", connections := ["mi"] }] },
      some { name := "m", kind := "$Autonomous$"
             inputs := [{ name := "mi", connections := ["so"] }]
             outputs := [{ name := "mo", connections := ["ii"] }] },
      some { name := "i", kind := "$Isolate$"
             inputs := [{ name := "ii", connections := ["mo"] }]
             outputs := [{ name := "io", connections := ["ni"] }] },
      some { name := "n", kind := "$Autonomous$"
             inputs := [{ name := "ni", connections := ["io"] }]
             outputs := [{ name := "no", connections := ["pi"] }] },
      some { name := "p", kind := "$Pending$"
             inputs := [{ name := "pi", connections := ["no"] }]
             outputs := [{ name := "po", connections := ["bi"] }] },
      some { name := "b", kind := "Custom"
             inputs := [{ name := "bi", connections := ["po"] }]
             outputs := [{ name := "bo", connections := ["ci"] }] },
      some { name := "c", kind := "Custom"
             inputs := [{ name := "ci", connections := ["bo"] }] }]
    order := (List.range 7).map Handle.mk }

theorem markedAbove_ofDescription :
    Graph.ofDescription markedAbove.toDescription = .ok markedAbove := by decide

theorem markedAbove_run : ∃ stats w', Yields run { graph := markedAbove } stats w' := by
  have hg := Graph.WellFormed.ofDescription markedAbove_ofDescription
  have hw : markedAbove.Wired := by decide
  have hall : ∀ op ∈ markedAbove.operators, op.region? = none ∧ op.outputs.length ≤ 1 := by decide
  have hop : ∀ x op, markedAbove.get? x = some op → op.region? = none ∧ op.outputs.length ≤ 1 :=
    fun x op hop => hall op ((Graph.mem_operators hg).mpr ⟨x, hop⟩)
  have hmarkers : markedAbove.markers .isolate = [⟨2⟩] := by decide
  have hparents : markedAbove.parents ⟨2⟩ = [⟨1⟩] := by decide
  have hwalk : markedAbove.walk Isolation.bounds [⟨1⟩] = [⟨1⟩, ⟨0⟩] :=
    Graph.walkFrom_of_within (n := 4) (by decide)
  refine run_total (w := { graph := markedAbove }) (by decide)
    (show Yields HashAdders.relocate markedAbove 0 markedAbove from rfl) hg
    (.ofDescription markedAbove_ofDescription) hw.coherent (fun x op hx => (hop x op hx).1)
    (fun m hm => ?_) fun x op _ hx => (hop x op hx).2
  obtain rfl := List.mem_singleton.mp (hmarkers ▸ hm)
  refine ⟨by decide, ?_⟩
  rw [hparents, hwalk]
  decide

/-- The operator below the markers gets the flag, and the one below that operator does not. -/
theorem run_autonomous_iff_markedAbove :
    markedAbove.WellFormed ∧ markedAbove.Indexed ∧ markedAbove.Coherent ∧
      (∀ x op, markedAbove.get? x = some op → op.isHashAdder = false) ∧
      ∃ stats w', Yields run { graph := markedAbove } stats w' ∧
        (∃ b, w'.graph.get? ⟨5⟩ = some b ∧ b.autonomous = true) ∧
        ∃ c, w'.graph.get? ⟨6⟩ = some c ∧ c.autonomous = false := by
  have hg := Graph.WellFormed.ofDescription markedAbove_ofDescription
  have hi := Graph.Indexed.ofDescription markedAbove_ofDescription
  have hco : markedAbove.Coherent := Wired.coherent (by decide)
  have hall : ∀ op ∈ markedAbove.operators, op.isHashAdder = false ∧ op.autonomous = false := by
    decide
  have hop : ∀ x op, markedAbove.get? x = some op →
      op.isHashAdder = false ∧ op.autonomous = false :=
    fun x op hop => hall op ((Graph.mem_operators hg).mpr ⟨x, hop⟩)
  have hadders := fun x op hx => (hop x op hx).1
  obtain ⟨stats, w', hrun⟩ := markedAbove_run
  have hflags := run_autonomous_iff (w := { graph := markedAbove }) hg hi hco hadders hrun
  obtain ⟨_, g, hrelocate, hsheds⟩ := run_sheds hrun
  obtain rfl := HashAdders.relocate_of_adderless hg hadders hrelocate
  have hkind := (hsheds hg hi hco).kind
  have hstep : ∀ {x y : Handle}, y ∈ markedAbove.children x → markedAbove.Feeds x y :=
    (Graph.mem_children hg hi).mp
  refine ⟨hg, hi, hco, hadders, stats, w', hrun, ?_, ?_⟩
  · obtain ⟨b, hb, _⟩ := Option.map_eq_some_iff.mp (hkind ⟨5⟩ (by decide))
    obtain ⟨_, _, hflag⟩ := hflags _ b hb
    refine ⟨b, hb, hflag.mpr (Or.inr ⟨⟨1⟩, by decide, ?_⟩)⟩
    exact .through (hstep (y := ⟨2⟩) (by decide)) (by decide)
      (.through (hstep (y := ⟨3⟩) (by decide)) (by decide)
        (.through (hstep (y := ⟨4⟩) (by decide)) (by decide) (.direct (hstep (by decide)))))
  · obtain ⟨c, hc, _⟩ := Option.map_eq_some_iff.mp (hkind ⟨6⟩ (by decide))
    obtain ⟨a, ha, hflag⟩ := hflags _ c hc
    refine ⟨c, hc, ?_⟩
    rw [← Bool.not_eq_true, hflag, (hop _ a ha).2]
    rintro (h | ⟨m, hm, hchain⟩)
    · cases h
    have hparent : ∀ z, markedAbove.Feeds z ⟨6⟩ → z = ⟨5⟩ := by
      intro z hz
      have hmem := (Graph.mem_parents hg hi hco.agrees).mpr hz
      rw [show markedAbove.parents ⟨6⟩ = [⟨5⟩] by decide] at hmem
      exact List.mem_singleton.mp hmem
    rcases hchain.last with hdirect | ⟨z, _, hz, hlast⟩
    · obtain rfl := hparent m hdirect
      cases hm
    · obtain rfl := hparent z hlast
      revert hz
      decide

end Preparation

end StreamTopology
