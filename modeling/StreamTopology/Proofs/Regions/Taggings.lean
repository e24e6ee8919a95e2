import StreamTopology.Proofs.Passes.Relocation
import StreamTopology.Proofs.Passes.Success
import StreamTopology.Proofs.Trace

/-!
# The taggings of a preparation

A preparation gives out regions in walks: each takes a new number, and puts what it visits into the
region of that number, where an operator is in none of the kind. Everything else a preparation does
leaves the regions of operators and the numbers alone, so a run of it is told by its taggings, and
that is so where it fails as well: the check of the ends and the moves of hash adders may fail
before any number is taken, a removal of markers may fail after that.

Nothing is said about what a walk visits. That the regions of two walks are different is a matter of
the numbers alone, and that an operator stays in the region it was given, of what comes later
leaving it there.

## Main definitions

* `RegionKind`: isolation regions and low latency regions.
* `Graph.Each`: operators at their handles, before and after.
* `Tagging`, with `Tagging.Gives`: a walk that gives out a region, and to whom.
* `Workspace.Course`: a run by its taggings.

## Main results

* `RegionKind.Tags.joins`: what one tagging does.
* `Preparation.leaves_course`: every run of a preparation has a course.
* `Workspace.Course.apart`: different taggings have different numbers.
* `Workspace.Course.given`: an operator stays in the region it was given.
* `Workspace.Course.origin`: an operator in a region was in it before, or it was given it.
-/

namespace StreamTopology

/-! ### Kinds of regions -/

/-- The kinds of regions. -/
inductive RegionKind where
  | isolate
  | lowLatency
  deriving DecidableEq

namespace RegionKind

/-- The number of the next region. -/
def next : RegionKind → RegionCounters → Nat
  | isolate, c => c.isolate
  | lowLatency, c => c.lowLatency

/-- The identifier of a region. -/
def name : RegionKind → Nat → String
  | isolate => isolateRegionName
  | lowLatency => lowLatencyRegionName

/-- The region of an operator. -/
def region? : RegionKind → Operator → Option String
  | isolate, op => op.placement.isolateRegion?
  | lowLatency, op => op.placement.lowLatencyRegion?

/-- Puts an operator into a region, unless it is in one of the kind already. -/
def join : RegionKind → String → Operator → Operator
  | isolate, region => Operator.mapPlacement fun p => p.joinIsolateRegion region
  | lowLatency, region => Operator.mapPlacement fun p => p.joinLowLatencyRegion region

theorem name_injective {k : RegionKind} {m n : Nat} (h : k.name m = k.name n) : m = n := by
  cases k with
  | isolate => exact Decimal.numbered_injective _ h
  | lowLatency => exact Decimal.numbered_injective _ h

theorem nonEmpty?_name (k : RegionKind) (n : Nat) :
    nonEmpty? (some (k.name n)) = some (k.name n) := by
  cases k with
  | isolate => exact nonEmpty?_append (by decide)
  | lowLatency => exact nonEmpty?_append (by decide)

/-- `b` is `a`, but it may have been put into the region of the kind, if `a` was in none. -/
structure Joins (k : RegionKind) (region : String) (a b : Operator) : Prop where
  own : k.region? b = k.region? a ∨ k.region? a = none ∧ k.region? b = some region
  other : ∀ k', k' ≠ k → k'.region? b = k'.region? a

instance (k : RegionKind) (region : String) : Std.Refl (k.Joins region) :=
  ⟨fun _ => ⟨Or.inl rfl, fun _ _ => rfl⟩⟩

instance (k : RegionKind) (region : String) : IsTrans Operator (k.Joins region) := by
  refine ⟨fun a b c h h' => ⟨?_, fun k' hk => (h'.other k' hk).trans (h.other k' hk)⟩⟩
  rcases h.own with hb | ⟨ha, hb⟩
  · rw [← hb]
    exact h'.own
  · rcases h'.own with hc | ⟨hnone, _⟩
    · exact Or.inr ⟨ha, hc.trans hb⟩
    · rw [hb] at hnone
      cases hnone

theorem joins_join (k : RegionKind) (n : Nat) (op : Operator) :
    k.Joins (k.name n) op (k.join (k.name n) op) := by
  cases k with
  | isolate =>
    simp only [join, Operator.mapPlacement, Placement.joinIsolateRegion]
    rcases h : op.config.placement.isolateRegion? with _ | region
    · refine ⟨Or.inr ⟨h, nonEmpty?_name isolate n⟩, fun k hk => ?_⟩
      cases k with
      | isolate => exact absurd rfl hk
      | lowLatency => rfl
    · exact ⟨Or.inl rfl, fun _ _ => rfl⟩
  | lowLatency =>
    simp only [join, Operator.mapPlacement, Placement.joinLowLatencyRegion]
    rcases h : op.config.placement.lowLatencyRegion? with _ | region
    · refine ⟨Or.inr ⟨h, nonEmpty?_name lowLatency n⟩, fun k hk => ?_⟩
      cases k with
      | isolate => rfl
      | lowLatency => exact absurd rfl hk
    · exact ⟨Or.inl rfl, fun _ _ => rfl⟩

end RegionKind

/-- `b` is in the regions that `a` is in. -/
def Operator.SameRegions (a b : Operator) : Prop := ∀ k : RegionKind, k.region? b = k.region? a

instance : Std.Refl Operator.SameRegions := ⟨fun _ _ => rfl⟩

instance : IsTrans Operator Operator.SameRegions :=
  ⟨fun _ _ _ h h' k => (h' k).trans (h k)⟩

/-! ### Operators at their handles -/

namespace Graph

/-- Every operator of `g'` was in `g` at the same handle, and is related to what it was. -/
def Each (r : Operator → Operator → Prop) (g g' : Graph) : Prop :=
  ∀ x b, g'.get? x = some b → ∃ a, g.get? x = some a ∧ r a b

section

variable {r : Operator → Operator → Prop} {f : Operator → Operator} {g : Graph} {x e : Handle}
  {op : Operator}

instance [Std.Refl r] : Std.Refl (Each r) := ⟨fun _ _ b hb => ⟨b, hb, Std.Refl.refl b⟩⟩

instance [IsTrans Operator r] : IsTrans Graph (Each r) := by
  refine ⟨fun g t g' h h' x c hc => ?_⟩
  obtain ⟨b, hb, hbc⟩ := h' x c hc
  obtain ⟨a, ha, hab⟩ := h x b hb
  exact ⟨a, ha, IsTrans.trans a b c hab hbc⟩

theorem each_set [Std.Refl r] {op' : Operator} (hop : g.get? x = some op) (h : r op op') :
    g.Each r (g.set x op') := by
  intro y b hb
  rw [get?_set (contains_iff.mpr ⟨op, hop⟩)] at hb
  split at hb
  · rename_i hy
    obtain rfl := Option.some.inj hb
    exact ⟨op, hy ▸ hop, h⟩
  · exact ⟨b, hb, Std.Refl.refl b⟩

theorem each_writes [Std.Refl r] (hf : ∀ op, r op (f op)) : Writes (Each r) f :=
  fun _ _ op hop => each_set hop (hf op)

theorem guarded_writes {R : Graph → Graph → Prop} (hf : Writes R f) : Writes (Guarded R) f :=
  fun g x op hop hg => ⟨set_eq_mapAt hop ▸ hg.mapAt _ _, hf g x op hop⟩

theorem sameRegions_without : g.Each Operator.SameRegions (g.without x op) := by
  intro y a ha
  have hy : y ≠ x := by
    rintro rfl
    rw [get?_without_self] at ha
    cases ha
  obtain ⟨b, hb, heq⟩ := exists_of_disconnected (disconnected_without hy) ha
  refine ⟨b, hb, fun k => ?_⟩
  have hk : ∀ c : Operator, k.region? c.disconnected = k.region? c := fun c => by cases k <;> rfl
  rw [← hk, ← heq, hk]

/-- A copy in place of its original is in the regions of the original. -/
theorem sameRegions_copied (hg : g.WellFormed) (hop : g.get? x = some op) :
    g.Each Operator.SameRegions (g.copied e x op) := by
  intro y a ha
  rw [get?_copied hg hop] at ha
  split at ha
  · rename_i hy
    obtain rfl := Option.some.inj ha
    exact ⟨op, hy ▸ hop, fun k => by cases k <;> rfl⟩
  · exact sameRegions_without y a ha

end

end Graph

/-! ### What leaves the regions alone -/

section

open StreamTopology.Graph

/-- The action leaves operators in their regions. -/
abbrev Unregioned {α : Type} (action : GraphM α) : Prop :=
  Leaves (Guarded (Each Operator.SameRegions)) action

theorem leaves_of_succeeds {α : Type} {R : Graph → Graph → Prop} {action : GraphM α}
    (hs : ∀ g, g.WellFormed → Succeeds g.Annotates action g) (hc : Confined R action) :
    Leaves (Guarded R) action := by
  intro g hg
  obtain ⟨a, g', hrun, hann⟩ := hs g hg
  rw [show action.run.run g = (.ok a, g') from hrun]
  exact ⟨hann.wellFormed hg, hc g a g' hrun⟩

variable {x : Handle}

theorem unregioned_relocate : Unregioned HashAdders.relocate := by
  refine HashAdders.leaves_relocate (fun g x op op' _ hop hconfig _ => each_set hop fun k => ?_)
    (fun g x b hb => ⟨b, hb, Std.Refl.refl b⟩) fun g e x op hg hop => sameRegions_copied hg hop
  cases k with
  | isolate => exact congrArg (fun c => c.placement.isolateRegion?) hconfig
  | lowLatency => exact congrArg (fun c => c.placement.lowLatencyRegion?) hconfig

theorem unregioned_remove : Unregioned (Rewiring.remove x) := by
  intro g hg
  refine (remove_ends hg).after (P := fun t => t.WellFormed ∧ g.Each Operator.SameRegions t) ?_ ?_
  · rintro _ _ ⟨op, hop, rfl⟩
    exact ⟨hg.without x op, sameRegions_without⟩
  · rintro _ _ ⟨rfl, _⟩
    exact ⟨hg, Std.Refl.refl _⟩

theorem unregioned_removeAll {xs : List Handle} : Unregioned (Rewiring.removeAll xs) :=
  leaves_forM fun _ _ => unregioned_remove

theorem unregioned_removeKind {m : Marker} : Unregioned (Preparation.removeKind m) :=
  leaves_get_bind fun _ => leaves_bind unregioned_removeAll fun _ => leaves_pure _

theorem unregioned_threadedPorts : Unregioned ThreadedPorts.run :=
  leaves_of_succeeds (fun _ hg => succeeds_threadedPorts hg) <| confined_threadedPorts
    (fun _ => each_writes fun _ k => by cases k <;> rfl)
    fun _ _ _ _ hop _ => each_set hop fun k => by cases k <;> rfl

theorem unregioned_autonomous : Unregioned Autonomous.run :=
  leaves_get_bind fun _ => leaves_bind
    (leaves_of_succeeds (fun _ hg => succeeds_autonomous hg _)
      (confined_flags (each_writes fun _ k => by cases k <;> rfl) _))
    fun _ => leaves_bind unregioned_removeAll fun _ => leaves_pure _

theorem unregioned_colocation : Unregioned Colocation.run :=
  leaves_of_succeeds (fun _ hg => succeeds_colocation hg)
    (confined_colocation (each_writes fun _ k => by cases k <;> rfl))

theorem unregioned_passByReference : Unregioned PassByReference.run :=
  leaves_of_succeeds (fun _ hg => succeeds_passByReference hg)
    (confined_passByReference fun _ => each_writes fun _ k => by cases k <;> rfl)

end

/-! ### Taggings -/

/-- From the one state to the other, a walk gives out a region of the kind. It may end early. -/
def RegionKind.Tags (k : RegionKind) (w w' : Workspace) : Prop :=
  match k with
  | .isolate => ∃ starts, w' = ((Isolation.assign starts).run.run w).2
  | .lowLatency => ∃ marker, w' = ((LowLatency.assign marker).run.run w).2

/-- A walk that gives out a region. -/
structure Tagging where
  kind : RegionKind
  before : Workspace
  after : Workspace
  made : kind.Tags before after

namespace Tagging

/-- The number of the region. -/
def number (τ : Tagging) : Nat := τ.kind.next τ.before.counters

/-- The region that is given out. -/
def region (τ : Tagging) : String := τ.kind.name τ.number

/-- The operator at the handle gets the region. -/
def Gives (τ : Tagging) (x : Handle) (id : String) : Prop :=
  (τ.before.graph.get? x).bind τ.kind.region? = none ∧
    (τ.after.graph.get? x).bind τ.kind.region? = some id

end Tagging

namespace RegionKind.Tags

open StreamTopology.Graph

variable {k k' : RegionKind} {w w' : Workspace}

/-- A tagging takes the next number of its kind. -/
theorem next (h : k.Tags w w') :
    k'.next w'.counters = k'.next w.counters + if k' = k then 1 else 0 := by
  cases k with
  | isolate =>
    obtain ⟨_, rfl⟩ := h
    cases k' <;> rfl
  | lowLatency =>
    obtain ⟨_, rfl⟩ := h
    cases k' <;> rfl

/-- All that a tagging does to operators is to put them into the region of its number. -/
theorem writes {R : Graph → Graph → Prop} [Std.Refl R] [IsTrans Graph R] (h : k.Tags w w')
    (hjoin : Writes R (k.join (k.name (k.next w.counters)))) : R w.graph w'.graph := by
  cases k with
  | isolate =>
    obtain ⟨_, rfl⟩ := h
    exact leaves_visit (fun _ => leaves_update hjoin) w.graph
  | lowLatency =>
    obtain ⟨_, rfl⟩ := h
    exact leaves_visit (fun _ => leaves_update hjoin) w.graph

theorem joins (h : k.Tags w w') :
    w.graph.Each (k.Joins (k.name (k.next w.counters))) w'.graph :=
  h.writes (each_writes (joins_join k _))

theorem wellFormed (h : k.Tags w w') (hg : w.graph.WellFormed) : w'.graph.WellFormed :=
  (h.writes (guarded_writes (each_writes (joins_join k _))) hg).1

end RegionKind.Tags

/-! ### The course of a run -/

namespace Workspace

/-- No number is taken, and operators stay in their regions. -/
def Quiet (w w' : Workspace) : Prop :=
  w'.counters = w.counters ∧ w.graph.Each Operator.SameRegions w'.graph

/-- A run by its taggings. -/
abbrev Course : Workspace → List Tagging → Workspace → Prop :=
  Trace Quiet fun τ w w' => τ.before = w ∧ τ.after = w'

variable {w w' : Workspace} {ts : List Tagging} {τ : Tagging} {k : RegionKind} {x : Handle}
  {op : Operator} {id : String}

/-- The number that a tagging takes from the counter of the kind. -/
def numberOf? (k : RegionKind) (τ : Tagging) : Option Nat :=
  if τ.kind = k then some τ.number else none

theorem counts (k : RegionKind) :
    Counts Quiet (fun τ w w' => τ.before = w ∧ τ.after = w') (fun w => k.next w.counters)
      (numberOf? k) := by
  refine ⟨fun h => congrArg k.next h.1, ?_⟩
  rintro τ _ _ ⟨rfl, rfl⟩
  have hnext : k.next τ.after.counters = k.next τ.before.counters + if k = τ.kind then 1 else 0 :=
    τ.made.next
  by_cases hk : τ.kind = k
  · subst hk
    exact Or.inr ⟨if_pos rfl, by simpa using hnext⟩
  · exact Or.inl ⟨if_neg hk, by simpa [Ne.symm hk] using hnext⟩

/-- Different taggings of one kind have different numbers. -/
theorem Course.apart (h : w.Course ts w') :
    ts.Pairwise fun τ τ' => τ.kind = τ'.kind → τ.number ≠ τ'.number := by
  have hapart := fun k => (counts k).pairwise h
  refine ((hapart .isolate).and (hapart .lowLatency)).imp ?_
  rintro τ τ' ⟨hisolate, hlowLatency⟩ hkind
  cases hk : τ.kind with
  | isolate => exact hisolate _ (if_pos hk) _ (if_pos (hkind.symm.trans hk))
  | lowLatency => exact hlowLatency _ (if_pos hk) _ (if_pos (hkind.symm.trans hk))

/-- `b` is in the regions that `a` is in, and may be in others. -/
def StaysIn (a b : Operator) : Prop :=
  ∀ (k : RegionKind) (id : String), k.region? a = some id → k.region? b = some id

instance : Std.Refl StaysIn := ⟨fun _ _ _ hid => hid⟩

instance : IsTrans Operator StaysIn := ⟨fun _ _ _ h h' k id hid => h' k id (h k id hid)⟩

/-- **Operators stay in their regions** along a run. -/
theorem Course.stays (h : w.Course ts w') : w.graph.Each StaysIn w'.graph := by
  refine h.preserves (R := Order.Preimage Workspace.graph (Graph.Each StaysIn)) ?_ ?_
  · rintro t t' ⟨_, hsame⟩ x b hb
    obtain ⟨a, ha, hab⟩ := hsame x b hb
    exact ⟨a, ha, fun k id hid => (hab k).trans hid⟩
  · rintro τ _ _ ⟨rfl, rfl⟩ x b hb
    obtain ⟨a, ha, hab⟩ := τ.made.joins x b hb
    refine ⟨a, ha, fun k id hid => ?_⟩
    by_cases hk : k = τ.kind
    · subst hk
      rcases hab.own with hb | ⟨hnone, _⟩
      · exact hb.trans hid
      · rw [hid] at hnone
        cases hnone
    · exact (hab.other k hk).trans hid

/-- What a tagging gives out is its own region. -/
theorem region_of_gives (hgives : τ.Gives x id) : id = τ.region := by
  obtain ⟨hnone, hsome⟩ := hgives
  obtain ⟨b, hb, hregion⟩ := Option.bind_eq_some_iff.mp hsome
  obtain ⟨a, ha, hjoins⟩ := τ.made.joins x b hb
  rw [ha, Option.bind_some] at hnone
  rcases hjoins.own with hsame | ⟨_, hown⟩
  · rw [hsame, hnone] at hregion
    cases hregion
  · exact Option.some.inj (hregion.symm.trans hown)

/-- **An operator stays in the region it was given.** -/
theorem Course.given (h : w.Course ts w') (hτ : τ ∈ ts) (hgives : τ.Gives x id)
    (hop : w'.graph.get? x = some op) : τ.kind.region? op = some id := by
  obtain ⟨_, _, rest, ⟨rfl, rfl⟩, hrest⟩ := h.after hτ
  obtain ⟨b, hb, hstays⟩ := Course.stays hrest x op hop
  have hgiven := hgives.2
  rw [hb] at hgiven
  exact hstays _ _ hgiven

/-- **Where a region comes from**: an operator that is in one at the end of a run was in it before,
or it was given it. -/
theorem Course.origin (h : w.Course ts w') (hop : w'.graph.get? x = some op)
    (hid : k.region? op = some id) :
    (w.graph.get? x).bind k.region? = some id ∨ ∃ τ ∈ ts, τ.kind = k ∧ τ.Gives x id := by
  induction h generalizing op with
  | start =>
    rw [hop]
    exact Or.inl hid
  | quiet _ hquiet ih =>
    obtain ⟨a, ha, hsame⟩ := hquiet.2 x op hop
    exact ih ha ((hsame k).symm.trans hid)
  | @event _ _ _ τ _ hevent ih =>
    obtain ⟨rfl, rfl⟩ := hevent
    have hmore : ∀ {ts : List Tagging}, (∃ τ ∈ ts, τ.kind = k ∧ τ.Gives x id) →
        ∃ τ' ∈ ts ++ [τ], τ'.kind = k ∧ τ'.Gives x id :=
      fun ⟨τ', hτ', h⟩ => ⟨τ', List.mem_append_left _ hτ', h⟩
    obtain ⟨a, ha, hjoins⟩ := τ.made.joins x op hop
    by_cases hk : k = τ.kind
    · subst hk
      rcases hjoins.own with hsame | ⟨hnone, _⟩
      · exact (ih ha (hsame.symm.trans hid)).imp_right hmore
      · refine Or.inr ⟨τ, by simp, rfl, ?_, ?_⟩
        · rw [ha]
          exact hnone
        · rw [hop]
          exact hid
    · exact (ih ha ((hjoins.other k hk).symm.trans hid)).imp_right hmore

/-- From a well-formed graph a run has a course, and ends with a well-formed graph. -/
def Runs (w w' : Workspace) : Prop :=
  w.graph.WellFormed → w'.graph.WellFormed ∧ ∃ ts, w.Course ts w'

instance : Std.Refl Runs := ⟨fun _ hg => ⟨hg, [], .start⟩⟩

instance : IsTrans Workspace Runs := by
  refine ⟨fun w t w' h h' hg => ?_⟩
  obtain ⟨ht, ts, hts⟩ := h hg
  obtain ⟨hg', ts', hts'⟩ := h' ht
  exact ⟨hg', ts ++ ts', hts.append hts'⟩

end Workspace

/-! ### Preparation -/

section

open Workspace

theorem leaves_onGraph {α : Type} {action : GraphM α} (h : Unregioned action) :
    Leaves Runs (RegionM.onGraph action) := by
  intro w hg
  obtain ⟨hg', hsame⟩ := h w.graph hg
  exact ⟨hg', [], .of_quiet ⟨rfl, hsame⟩⟩

theorem leaves_tags {action : RegionM Unit} (k : RegionKind)
    (h : ∀ w, k.Tags w (action.run.run w).2) : Leaves Runs action :=
  fun w hg => ⟨(h w).wellFormed hg, [⟨k, w, _, h w⟩], .of_event ⟨rfl, rfl⟩⟩

theorem leaves_isolation_assign (starts : List Handle) : Leaves Runs (Isolation.assign starts) :=
  leaves_tags .isolate fun _ => ⟨starts, rfl⟩

theorem leaves_islands : Leaves Runs Isolation.assignIslands := by
  refine leaves_get_bind fun w => leaves_forM fun start _ =>
    leaves_bind (leaves_onGraph leaves_lookup) fun op => ?_
  split
  · exact leaves_isolation_assign _
  · exact leaves_pure _

theorem leaves_isolation : Leaves Runs Isolation.run := by
  refine leaves_get_bind fun w => leaves_bind
    (leaves_forM fun marker _ => leaves_onGraph (leaves_isolation_check marker)) fun _ => ?_
  refine leaves_bind (leaves_forM fun marker _ => leaves_get_bind fun _ =>
    leaves_bind (leaves_isolation_assign _) fun _ => leaves_get_bind fun _ =>
      leaves_isolation_assign _) fun _ => ?_
  exact leaves_bind leaves_islands fun _ =>
    leaves_bind (leaves_onGraph unregioned_removeAll) fun _ => leaves_pure _

theorem leaves_lowLatency : Leaves Runs LowLatency.run := by
  refine leaves_get_bind fun w => leaves_bind
    (leaves_forM fun marker _ => leaves_tags .lowLatency fun _ => ⟨marker, rfl⟩) fun _ => ?_
  exact leaves_bind (leaves_onGraph unregioned_removeAll) fun _ => leaves_pure _

/-- **Every run of a preparation has a course**, from beginning to end, also where it fails. -/
theorem Preparation.leaves_course : Leaves Runs Preparation.run := by
  refine leaves_get_bind fun w => leaves_bind (leaves_liftM _) fun _ => ?_
  refine leaves_bind (leaves_onGraph unregioned_relocate) fun _ => ?_
  refine leaves_bind leaves_isolation fun _ => leaves_bind leaves_lowLatency fun _ => ?_
  refine leaves_bind (leaves_onGraph unregioned_threadedPorts) fun _ => ?_
  refine leaves_bind (leaves_onGraph unregioned_removeKind) fun _ => ?_
  refine leaves_bind (leaves_onGraph unregioned_removeKind) fun _ => ?_
  refine leaves_bind (leaves_onGraph unregioned_autonomous) fun _ => ?_
  refine leaves_bind (leaves_onGraph unregioned_colocation) fun _ => ?_
  exact leaves_bind (leaves_onGraph unregioned_passByReference) fun _ => leaves_pure _

end

end StreamTopology
