import StreamTopology.Proofs.Passes.RegionShape
import StreamTopology.Proofs.Passes.Revisions
import StreamTopology.Proofs.Placement

/-!
# Threads that stay

A request for a thread is to be dropped where a process boundary separates the threads already. So
what a request that stays should say is that its operator runs in one process with everything that
feeds it. But requests are settled in the middle of preparation, on the parents that an operator has
by then, and markers among these do not count. The markers that are still there are taken out
afterwards, which gives the operator parents that it has never been compared with.

What is decided on each request can nevertheless be said exactly, and in terms of the keys at the
end: what a key depends on is final when requests are settled, and settling one request does not
change what another one is settled by.

## Main definitions

* `Operator.request?`: the request of an operator.
* `ThreadedPorts.settled`: an operator after its turn.
* `Graph.Connected`: streams connect an operator with a source.
* `Preparation.Midway`: the graph on which requests are settled.

## Main results

* `ThreadedPorts.run_settled`: what the pass leaves.
* `Preparation.run_requests_iff`: which requests stay.
* `maskedParent_keeps`: a request that stays at a process boundary.
-/

namespace StreamTopology

open Relation

/-- The request for a thread behind the only input port. -/
def Operator.request? (op : Operator) : Option ThreadedPort :=
  match op.inputs with
  | [port] => port.queue
  | _ => none

theorem Operator.request?_eq_some {op : Operator} {request : ThreadedPort} :
    op.request? = some request ↔ ∃ port, op.inputs = [port] ∧ port.queue = some request := by
  unfold Operator.request?
  split
  next port hport =>
    refine ⟨fun h => ⟨port, hport, h⟩, ?_⟩
    rintro ⟨port', hport', h⟩
    rwa [List.singleton_inj.mp (hport.symm.trans hport')]
  next hports =>
    refine iff_of_false (fun h => by cases h) ?_
    rintro ⟨port, hport, _⟩
    exact hports port hport

theorem Operator.request?_disconnected (op : Operator) :
    op.disconnected.request? = op.request? := by
  rcases hins : op.inputs with _ | ⟨port, _ | ⟨_, _⟩⟩ <;> simp [request?, disconnected, hins]

/-! ### One request -/

namespace ThreadedPorts

open StreamTopology.Graph

variable {g t : Graph} {x p : Handle} {op a : Operator} {done : List Handle} {port : InputPort}

/-- The operator is in a low latency region, or in another process than one of its parents. -/
def separates (g : Graph) (x : Handle) (op : Operator) : Bool :=
  op.placement.lowLatencyRegion?.isSome ||
    crossesProcess op.placement.colocation? ((g.parents x).filterMap g.get?)

/-- The request of the operator is dropped. -/
def drops (g : Graph) (x : Handle) (op : Operator) : Bool :=
  op.request?.isSome && separates g x op

/-- The operator after its turn. -/
def settled (g : Graph) (x : Handle) (op : Operator) : Operator :=
  match op.inputs with
  | [port] =>
    match port.queue with
    | none => op
    | some request =>
      if separates g x op then drop request.functional op
      else if !request.functional then configure port op
      else op
  | _ => op

theorem settled_of_none (h : op.request? = none) : settled g x op = op := by
  unfold settled
  split
  next port hport =>
    rw [Operator.request?, hport] at h
    rw [show port.queue = none from h]
  next => rfl

theorem settled_cases (g : Graph) (x : Handle) (op : Operator) : settled g x op = op ∨
    (∃ functional, settled g x op = drop functional op) ∨
      ∃ port, settled g x op = configure port op := by
  unfold settled
  split
  · split
    · exact Or.inl rfl
    · split
      · exact Or.inr (Or.inl ⟨_, rfl⟩)
      · split
        · exact Or.inr (Or.inr ⟨_, rfl⟩)
        · exact Or.inl rfl
  · exact Or.inl rfl

theorem skeleton_settled : (settled g x op).skeleton = op.skeleton := by
  rcases settled_cases g x op with h | ⟨_, h⟩ | ⟨_, h⟩ <;> rw [h]
  · exact Operator.skeleton_drop
  · rfl

theorem kind_settled : (settled g x op).kind = op.kind :=
  show (settled g x op).skeleton.kind = op.skeleton.kind by rw [skeleton_settled]

theorem name_settled : (settled g x op).name = op.name := by
  rcases settled_cases g x op with h | ⟨_, h⟩ | ⟨_, h⟩ <;> rw [h] <;> rfl

theorem placement_settled : (settled g x op).placement = op.placement := by
  rcases settled_cases g x op with h | ⟨_, h⟩ | ⟨_, h⟩ <;> rw [h] <;> rfl

/-- A request stays where nothing separates the threads. -/
theorem request?_settled :
    (settled g x op).request? = if separates g x op then none else op.request? := by
  rcases hins : op.inputs with _ | ⟨port, _ | ⟨_, _⟩⟩
  · simp [settled, Operator.request?, hins]
  · rcases hqueue : port.queue with _ | request
    · simp [settled, Operator.request?, hins, hqueue]
    · simp only [settled, hins, hqueue]
      split
      · simp [drop, Operator.request?, hins]
      · split <;> simp [configure, Operator.request?, hins]
  · simp [settled, Operator.request?, hins]

/-- **When threads are not separated**: outside of low latency regions, where all parents have the
same colocation. -/
theorem separates_eq_false_iff : separates g x op = false ↔
    op.placement.lowLatencyRegion? = none ∧ ∀ p ∈ g.parents x, ∀ a, g.get? p = some a →
      a.marker? = none → a.placement.colocation? = op.placement.colocation? := by
  simp only [separates, crossesProcess, Bool.or_eq_false_iff, Option.isSome_eq_false_iff,
    Option.isNone_iff_eq_none, List.any_eq_false, List.mem_filterMap, Bool.and_eq_true, bne_iff_ne,
    not_and, ne_eq, not_not]
  exact and_congr_right fun _ => ⟨fun h p hp a ha => h a ⟨p, hp, ha⟩,
    fun h a ⟨p, hp, ha⟩ => h p hp a ha⟩

/-- Whether threads are separated is a matter of kinds and placements. -/
theorem separates_congr (hparents : t.parents x = g.parents x)
    (hview : ∀ y, (t.get? y).map (fun op => (op.kind, op.placement)) =
      (g.get? y).map fun op => (op.kind, op.placement)) :
    separates t x op = separates g x op := by
  have hcrosses : ∀ h : Graph, crossesProcess op.placement.colocation?
      ((h.parents x).filterMap h.get?) =
        ((h.parents x).filterMap fun y => (h.get? y).map fun op => (op.kind, op.placement)).any
          fun v => (Marker.ofKind? v.1).isNone && v.2.colocation? != op.placement.colocation? := by
    intro h
    rw [crossesProcess, ← List.map_filterMap, List.any_map]
    rfl
  rw [separates, separates, hcrosses, hcrosses, hparents]
  simp only [hview]

/-- **The turn of one operator** succeeds, and says whether the request was dropped. -/
theorem exists_settle (hg : g.WellFormed) (hop : g.get? x = some op) :
    ∃ g', Yields (settle x) g (drops g x op) g' ∧
      (g' = g ∧ settled g x op = op ∨ g' = g.set x (settled g x op)) := by
  have hlive : ∀ y ∈ g.parents x, g.contains y = true := fun _ => contains_of_mem_parents hg
  have hseparates : (op.placement.lowLatencyRegion?.isSome || crossesProcess
      op.placement.colocation? ((g.parents x).filterMap g.get?)) = separates g x op := rfl
  have hwrites : ∀ (f : Operator → Operator) (b : Bool),
      Yields (do GraphM.update x f; pure b) g b (g.set x (f op)) := fun f b =>
    yields_bind.mpr ⟨⟨⟩, _, yields_update.mpr ⟨op, hop, rfl⟩, yields_pure.mpr ⟨rfl, rfl⟩⟩
  rcases hrequest : op.request? with _ | request
  · have hnothing : Yields (settle x) g false g := by
      rw [settle, yields_lookup_bind hop]
      unfold Operator.request? at hrequest
      split
      next port hport =>
        simp only [hport] at hrequest
        simp only [hrequest]
        exact yields_pure.mpr ⟨rfl, rfl⟩
      next => exact yields_pure.mpr ⟨rfl, rfl⟩
    rw [drops, hrequest]
    exact ⟨g, hnothing, Or.inl ⟨rfl, settled_of_none hrequest⟩⟩
  · obtain ⟨port, hport, hqueue⟩ := Operator.request?_eq_some.mp hrequest
    rw [drops, hrequest, Option.isSome_some, Bool.true_and]
    simp only [settle, yields_lookup_bind hop, hport, hqueue, yields_get_bind,
      yields_lookups_bind hlive, hseparates, settled]
    rcases hsep : separates g x op with _ | _
    · rcases hfunctional : request.functional with _ | _
      · exact ⟨_, hwrites (configure port) false, Or.inr rfl⟩
      · exact ⟨g, yields_pure.mpr ⟨rfl, rfl⟩, Or.inl ⟨rfl, rfl⟩⟩
    · exact ⟨_, hwrites (drop request.functional) true, Or.inr rfl⟩

/-- A turn reads the graph as it was. -/
theorem revises_settle (hg : g.WellFormed) : g.Revises settle (settled g) (drops g) := by
  intro done t x op h hop
  have hseparates : separates t x op = separates g x op :=
    separates_congr h.annotates.parents (h.keeps fun y a =>
      Prod.ext kind_settled placement_settled)
  have hdrops : drops t x op = drops g x op := by rw [drops, drops, hseparates]
  have hsettled : settled t x op = settled g x op := by rw [settled, settled, hseparates]
  have hrun := exists_settle (h.annotates.wellFormed hg) hop
  rw [hdrops, hsettled] at hrun
  exact ⟨skeleton_settled, hrun⟩

/-- **The pass succeeds**, and every operator that is connected to a source has had its turn
afterwards. -/
theorem run_settled (hg : g.WellFormed) :
    ∃ n g', Yields run g n g' ∧ g.Revised (settled g) (g.walk (.around []) g.sources) g' := by
  have hnodup : (g.walk (.around []) g.sources).Nodup := walk_nodup
  obtain ⟨g', hrun, h⟩ := (revises_settle hg).run hnodup
    fun x hx => walk_live hg (live_of_mem_findAll hg (.refl g)) hx
  exact ⟨_, g', yields_get_bind.mpr hrun, h⟩

end ThreadedPorts

/-! ### Connected operators -/

theorem Bridged.eqvGen {α : Type} {R : α → α → Prop} {S : α → Prop} {x y : α}
    (h : Bridged R S x y) : EqvGen R x y := by
  induction h with
  | direct h => exact .rel _ _ h
  | through into _ _ ih => exact .trans _ _ _ (.rel _ _ into) ih

namespace Graph

variable {g g' : Graph} {gone : Handle → Prop} {ms : List Marker} {s x y : Handle}

/-- Streams connect the operator with a source, whatever their directions. -/
def Connected (g : Graph) (x : Handle) : Prop := ∃ s ∈ g.sources, EqvGen g.Feeds s x

/-- Taking out operators connects nothing that was not connected. -/
theorem Eliminates.eqvGen (h : g.Eliminates gone g') (hxy : EqvGen g'.Feeds x y) :
    EqvGen g.Feeds x y := by
  induction hxy with
  | rel x y hfeeds => exact ((h.feeds x y).mp hfeeds).2.2.eqvGen
  | refl x => exact .refl x
  | symm x y _ ih => exact .symm x y ih
  | trans x y z _ _ ih ih' => exact .trans x y z ih ih'

/-- Connected operators were connected before others have been taken out. -/
theorem Connected.before (hx : g'.Connected x) (h : g.Eliminates gone g')
    (hsources : g'.sources ⊆ g.sources) : g.Connected x := by
  obtain ⟨s, hs, hsx⟩ := hx
  exact ⟨s, hsources hs, h.eqvGen hsx⟩

/-- **A walk without boundaries** visits everything that is connected to a source. -/
theorem Connected.mem_walk (hg : g.WellFormed) (hi : g.Indexed) (ha : g.Agrees)
    (hx : g.Connected x) : x ∈ g.walk (.around []) g.sources := by
  have hgate : ∀ y, g.isGate (.around []) y = false := by
    intro y
    rw [isGate]
    split <;> rfl
  obtain ⟨s, hs, hsx⟩ := hx
  suffices hsame : s ∈ g.walk (.around []) g.sources ↔ x ∈ g.walk (.around []) g.sources from
    hsame.mp (start_mem_walk (hgate s) hs)
  clear hs
  induction hsx with
  | rel x y h =>
    have hparent : x ∈ g.parents y := (mem_parents hg hi ha).mpr h
    have hchild : y ∈ g.children x := (mem_children hg hi).mpr h
    exact ⟨fun hx => walk_closed hx (Or.inr hchild) (hgate y),
      fun hy => walk_closed hy (Or.inl hparent) (hgate x)⟩
  | refl => exact Iff.rfl
  | symm _ _ _ ih => exact ih.symm
  | trans _ _ _ _ _ ih ih' => exact ih.trans ih'

/-- **Plain parents afterwards** are the plain parents before, and the plain operators that led here
through markers that are gone. -/
theorem Sheds.forall_plain_iff {P : Handle → Prop} (h : g.Sheds ms g') (hx : ¬ g.Marked ms x) :
    (∀ p, g'.Feeds p x → g'.marker? p = none → P p) ↔
      (∀ p, g.Feeds p x → g.marker? p = none → P p) ∧
        ∀ p m, Bridged g.Feeds (g.Marked ms) p m → g.Marked ms m → g.Feeds m x →
          g.marker? p = none → P p := by
  have hplain : ∀ p, ¬ g.Marked ms p → g'.marker? p = g.marker? p :=
    fun p hp => marker?_congr (h.kind p hp)
  constructor
  · intro hall
    have hreached : ∀ p, Bridged g.Feeds (g.Marked ms) p x → g.marker? p = none → P p := by
      intro p hpath hmarker
      have hp : ¬ g.Marked ms p := not_marked_of_plain hmarker
      exact hall p ((h.feeds p x).mpr ⟨hp, hx, hpath⟩) ((hplain p hp).trans hmarker)
    exact ⟨fun p hpx => hreached p (.direct hpx),
      fun p m hpath hm hmx => hreached p (hpath.trans hm (.direct hmx))⟩
  · rintro ⟨hdirect, hthrough⟩ p hpx hmarker
    obtain ⟨hp, _, hpath⟩ := (h.feeds p x).mp hpx
    rw [hplain p hp] at hmarker
    rcases hpath.last with hfeeds | ⟨m, hpath, hm, hmx⟩
    · exact hdirect p hfeeds hmarker
    · exact hthrough p m hpath hm hmx hmarker

/-- The colocation key of an operator. -/
def keyOf (g : Graph) (x : Handle) : Option String :=
  (g.get? x).bind fun op => op.placement.colocateKey

end Graph

/-! ### The run -/

/-- What requests are settled by, and the request. -/
def Operator.settling (op : Operator) : Option ThreadedPort × Option String × Option String :=
  (op.request?, op.placement.lowLatencyRegion?, op.placement.colocation?)

theorem Operator.settling_disconnected (op : Operator) :
    op.disconnected.settling = op.settling := by
  rw [settling, request?_disconnected]
  rfl

namespace Preparation

open StreamTopology.Graph ThreadedPorts

variable {w w' : Workspace} {stats : Stats} {t t' g g' : Graph} {x p : Handle} {op : Operator}

/-- The kinds of markers that are still there when requests are settled, and taken out then. -/
def lateMarkers : List Marker := [.union, .pending, .autonomous]

/-- `t` is the graph on which a run from `g` to `g'` settles requests: the hash adders have been
moved, the markers of isolation and low latency have been taken out, and other operators than hash
adders and the ends of regions ask for what they asked for. -/
structure Midway (g t g' : Graph) : Prop where
  before : ∃ n r, Yields HashAdders.relocate g n r ∧
    r.Sheds [.isolate, .lowLatency, .endLowLatency] t
  asked : ∀ x a b, g.get? x = some a → t.get? x = some b → a.isHashAdder = false →
    g.marker? x ≠ some .endParallel → b.request? = a.request?
  after : t.Sheds lateMarkers g'

/-- Moving hash adders and narrowing the graph changes the request of no other operator. -/
theorem request?_of_relocated {r : Graph} {es : List Handle} {π : Equiv.Perm Handle}
    {a b : Operator} (hrel : g.Relocated es π r) (hnarrowed : Narrowed Operator.request? r t)
    (ha : g.get? x = some a) (hb : t.get? x = some b) (hadder : a.isHashAdder = false)
    (hend : g.marker? x ≠ some .endParallel) : b.request? = a.request? := by
  have hstays : ¬ g.Exchanged es x := by
    rintro ⟨e, _, h, hh, rfl | rfl⟩
    · exact hend hh.isEnd
    · obtain ⟨a', ha', hadder', _⟩ := hh.adder
      obtain rfl := Option.some.inj (ha.symm.trans ha')
      rw [hadder] at hadder'
      cases hadder'
  obtain ⟨c, hc, hview, _⟩ := hnarrowed.kept x b hb
  obtain ⟨a', ha', hsame⟩ := exists_of_disconnected (hrel.kept x hstays) hc
  obtain rfl := Option.some.inj (ha.symm.trans ha')
  rw [← hview, ← Operator.request?_disconnected, ← hsame, Operator.request?_disconnected]

/-- The requests of `t` have been settled in `g'`, and the keys are what they were settled by. -/
structure SettledFrom (t g' : Graph) : Prop where
  sources : g'.sources ⊆ t.sources
  kept : ∀ x b, g'.get? x = some b → ∃ a, t.get? x = some a ∧
    b.placement.lowLatencyRegion? = a.placement.lowLatencyRegion? ∧
    b.placement.colocateKey = a.placement.colocation? ∧
    (x ∈ t.walk (.around []) t.sources →
      b.request? = if separates t x a then none else a.request?)

/-- Passes after the settling that keep what requests are settled by, and choose the keys. -/
theorem settledFrom_of_narrowed (ht : t.WellFormed)
    (hrevised : t.Revised (settled t) (t.walk (.around []) t.sources) t')
    (hnarrowed : Narrowed Operator.settling t' g')
    (hkeyed : ∀ x op, g'.get? x = some op → op.Keyed) : SettledFrom t g' := by
  have hsources : t'.sources = t.sources :=
    findAll_congr hrevised.annotates.order (hrevised.keeps fun x a => by
      have hinputs : (settled t x a).inputs.isEmpty = a.inputs.isEmpty := by
        have hskeleton := congrArg (fun op : Operator => op.inputs.isEmpty)
          (skeleton_settled : (settled t x a).skeleton = a.skeleton)
        simpa [Operator.skeleton] using hskeleton
      rw [hinputs, name_settled])
  refine ⟨hsources ▸ hnarrowed.sources_subset (hrevised.annotates.wellFormed ht), fun x b hb => ?_⟩
  obtain ⟨b', hb', hsame, _⟩ := hnarrowed.kept x b hb
  simp only [Operator.settling, Prod.mk.injEq] at hsame
  obtain ⟨hrequest, hlow, hcolocation⟩ := hsame
  obtain ⟨a, ha, hturn⟩ := hrevised.exists_before hb'
  have hplacement : b'.placement = a.placement := by
    rcases hturn with ⟨_, rfl⟩ | ⟨_, rfl⟩
    · exact placement_settled
    · rfl
  refine ⟨a, ha, ?_, ?_, fun hx => ?_⟩
  · rw [← hlow, hplacement]
  · rw [hkeyed x b hb, ← hcolocation, hplacement]
  · rcases hturn with ⟨_, rfl⟩ | ⟨hwaits, _⟩
    · rw [← hrequest, request?_settled]
    · exact absurd hx hwaits

section

variable (h : SettledFrom t g') (hafter : t.Sheds lateMarkers g')

include h hafter

/-- A plain operator is there at the end, and its key is what its colocation was. -/
theorem SettledFrom.keyOf {a : Operator} (ha : t.get? p = some a) (hplain : t.marker? p = none) :
    g'.keyOf p = a.placement.colocation? := by
  have hkind := hafter.kind p (not_marked_of_plain hplain)
  rw [ha, Option.map_some] at hkind
  obtain ⟨b, hb, _⟩ := Option.map_eq_some_iff.mp hkind
  obtain ⟨a', ha', _, hcolocation, _⟩ := h.kept p b hb
  obtain rfl := Option.some.inj (ha.symm.trans ha')
  rw [Graph.keyOf, hb, Option.bind_some, hcolocation]

/-- **The decision on one request**, in terms of the keys at the end. -/
theorem SettledFrom.request_iff (ht : t.WellFormed) (hti : t.Indexed) (hta : t.Agrees)
    (hop : g'.get? x = some op) (hx : g'.Connected x) :
    op.request? ≠ none ↔ (t.get? x).bind Operator.request? ≠ none ∧
      op.placement.lowLatencyRegion? = none ∧
      ∀ p, t.Feeds p x → t.marker? p = none → g'.keyOf p = op.placement.colocateKey := by
  obtain ⟨a, ha, hlow, hcolocation, hrequest⟩ := h.kept x op hop
  have hwalk := (hx.before hafter h.sources).mem_walk ht hti hta
  have hstays : op.request? ≠ none ↔ a.request? ≠ none ∧ separates t x a = false := by
    rw [hrequest hwalk]
    cases separates t x a <;> simp
  rw [hstays, ha, Option.bind_some, separates_eq_false_iff, hlow, hcolocation]
  refine and_congr_right fun _ => and_congr_right fun _ => forall_congr' fun p => ?_
  rw [mem_parents ht hti hta]
  refine forall_congr' fun hp => ⟨fun hsame hplain => ?_, fun hsame b hb hplain => ?_⟩
  · obtain ⟨b, _, hb, _, _⟩ := id hp
    rw [h.keyOf hafter hb hplain]
    exact hsame b hb (by rwa [marker?, hb] at hplain)
  · have hmarker : t.marker? p = none := by rwa [marker?, hb]
    rw [← h.keyOf hafter hb hmarker]
    exact hsame hmarker

end

/-- **A run in two halves**, with the settling of requests between them. -/
theorem run_midway (hg : w.graph.WellFormed) (hi : w.graph.Indexed) (hco : w.graph.Coherent)
    (hr : w.graph.Exchangeable) (hrun : Yields run w stats w') :
    ∃ t, Midway w.graph t w'.graph ∧ t.WellFormed ∧ t.Indexed ∧ t.Coherent ∧
      SettledFrom t w'.graph := by
  obtain ⟨hcheck, w₁, w₂, w₃, g₄, g₅, g₆, g₇, g₈, _, _, _, _, _, _, hrelocate, hisolation,
    hlowLatency, hthreaded, hunion, hpending, hautonomous, hcolocation, hreference, _⟩ :=
    run_passes hrun
  have hsealed := (checkRegionEnds_eq_ok_iff hg hi hco.agrees).mp hcheck
  obtain ⟨_, _, hrel, _⟩ := HashAdders.relocate_relocated hg hi hco hr hsealed hrelocate
  have h₂ := isolation_sheds hrel.wellFormed hrel.indexed hrel.coherent hisolation
  have h₃ := lowLatency_sheds h₂.wellFormed h₂.indexed h₂.coherent hlowLatency
  have hremove := narrows_remove Operator.request?_disconnected
  have n₂ := confined_isolation hremove
    (fun _ => narrows_writes (fun _ => rfl) (fun _ => rfl) fun _ => rfl) _ _ _ hisolation
    ⟨⟨hrel.wellFormed, hrel.indexed⟩, hrel.coherent.inputs_nodup⟩
  have n₃ := confined_lowLatency hremove
    (fun _ => narrows_writes (fun _ => rfl) (fun _ => rfl) fun _ => rfl) _ _ _ hlowLatency
    n₂.addressed
  -- the settling
  obtain ⟨_, t', hsettles, hrevised⟩ := run_settled h₃.wellFormed
  obtain ⟨_, rfl⟩ := hthreaded.unique hsettles
  -- the markers that are taken out afterwards
  have h₄ := sheds_nil h₃.wellFormed h₃.indexed h₃.coherent hrevised.annotates
  have h₅ := removeKind_sheds h₄.wellFormed h₄.indexed h₄.coherent hunion
  have h₆ := removeKind_sheds h₅.wellFormed h₅.indexed h₅.coherent hpending
  have h₇ := autonomous_sheds h₆.wellFormed h₆.indexed h₆.coherent hautonomous
  have hlast := (annotating_colocation _ _ _ hcolocation).trans
    (annotating_passByReference _ _ _ hreference)
  have h₉ := sheds_nil h₇.wellFormed h₇.indexed h₇.coherent hlast
  -- what all passes afterwards keep
  have hremove := narrows_remove Operator.settling_disconnected
  have n₅ := confined_removeKind hremove _ _ _ _ hunion
    ⟨⟨h₄.wellFormed, h₄.indexed⟩, h₄.coherent.inputs_nodup⟩
  have n₆ := confined_removeKind hremove _ _ _ _ hpending n₅.addressed
  have n₇ := confined_autonomous hremove (narrows_writes (fun _ => rfl) (fun _ => rfl) fun _ => rfl)
    _ _ _ hautonomous n₆.addressed
  have n₈ := confined_colocation (R := Narrows Operator.settling)
    (narrows_writes (fun _ => rfl) (fun _ => rfl) fun _ => rfl) _ _ _ hcolocation n₇.addressed
  have n₉ := confined_passByReference (R := Narrows Operator.settling)
    (fun _ => narrows_writes (fun _ => rfl) (fun _ => rfl) fun _ => rfl) _ _ _ hreference
    n₈.addressed
  have hplaced := confined_passByReference (R := Narrows Operator.placement)
    (fun _ => narrows_writes (fun _ => rfl) (fun _ => rfl) fun _ => rfl) _ _ _ hreference
    n₈.addressed
  refine ⟨w₃.graph, ⟨⟨_, _, hrelocate, h₂.trans h₃⟩,
    fun x a b => request?_of_relocated hrel (n₂.trans n₃),
    h₄.trans (h₅.trans (h₆.trans (h₇.trans h₉)))⟩, h₃.wellFormed, h₃.indexed, h₃.coherent,
    settledFrom_of_narrowed h₃.wellFormed hrevised (n₅.trans (n₆.trans (n₇.trans (n₈.trans n₉))))
      fun x op hop => ?_⟩
  obtain ⟨a, ha, hsame, _⟩ := hplaced.kept x op hop
  rw [Operator.Keyed, ← hsame]
  exact Colocation.run_keyed n₇.addressed.sound.wellFormed hcolocation x a ha

/-- **Which requests stay.** In a run that succeeds, the request of every operator that is connected
to a source afterwards is settled on the graph in the middle. It stays exactly if the operator is in
no low latency region and has the colocation key, as it is at the end, of every plain operator that
feeds it there. Then it has the key of every plain operator that feeds it at the end if and only if
it has the key of those that lead to it through markers that are taken out later. -/
theorem run_requests_iff (hg : w.graph.WellFormed) (hi : w.graph.Indexed) (hco : w.graph.Coherent)
    (hr : w.graph.Exchangeable) (hrun : Yields run w stats w') :
    ∃ t, Midway w.graph t w'.graph ∧
      ∀ x op, w'.graph.get? x = some op → w'.graph.Connected x →
        (op.request? ≠ none ↔ (t.get? x).bind Operator.request? ≠ none ∧
          op.placement.lowLatencyRegion? = none ∧
          ∀ p, t.Feeds p x → t.marker? p = none →
            w'.graph.keyOf p = op.placement.colocateKey) ∧
        (op.request? ≠ none →
          ((∀ p, w'.graph.Feeds p x → w'.graph.marker? p = none →
            w'.graph.keyOf p = op.placement.colocateKey) ↔
          ∀ p m, Bridged t.Feeds (t.Marked lateMarkers) p m → t.Marked lateMarkers m →
            t.Feeds m x → t.marker? p = none →
              w'.graph.keyOf p = op.placement.colocateKey)) := by
  obtain ⟨t, hmid, ht, hti, htco, hsettled⟩ := run_midway hg hi hco hr hrun
  refine ⟨t, hmid, fun x op hop hx => ?_⟩
  have hiff := hsettled.request_iff hmid.after ht hti htco.agrees hop hx
  have hleft : ¬ t.Marked lateMarkers x := fun hgone => by
    rw [hmid.after.vacated x hgone] at hop
    cases hop
  exact ⟨hiff, fun hstays => (hmid.after.forall_plain_iff hleft).trans
    (and_iff_right (hiff.mp hstays).2.2)⟩

/-- A source with two consumers in another process, which ask for threads. One of them reads it
through a union. -/
def maskedParent : Graph := Graph.reindexed
  { name := "maskedParent"
    slots := [
      some { name := "a", kind := "Beacon"
             outputs := [{ name := "ao", connections := ["ui", "ci"] }]
             config := { placement := { explicitTag := some "x" } } },
      some { name := "u", kind := "$Union$"
             inputs := [{ name := "ui", connections := ["ao"] }]
             outputs := [{ name := "uo", connections := ["bi"] }] },
      some { name := "b", kind := "Custom"
             inputs := [{ name := "bi", connections := ["uo"], queue := some {} }]
             config := { placement := { explicitTag := some "y" } } },
      some { name := "c", kind := "Custom"
             inputs := [{ name := "ci", connections := ["ao"], queue := some {} }]
             config := { placement := { explicitTag := some "y" } } }]
    order := (List.range 4).map Handle.mk }

/-- The order in which walks visit that graph. -/
def maskedParentVisits : List Handle := [⟨0⟩, ⟨1⟩, ⟨3⟩, ⟨2⟩]

/-- The graph with regions. -/
def maskedParentJoined : Graph :=
  maskedParent.mapAt maskedParentVisits (Operator.joined (isolateRegionName 0))

/-- The graph with its requests settled. -/
def maskedParentSettled : Graph :=
  ((maskedParentVisits.mapM ThreadedPorts.settle).run.run maskedParentJoined).2

/-- The graph after preparation. -/
def maskedParentPrepared : Graph :=
  ((removeKind .union *> Colocation.run *> PassByReference.run).run.run maskedParentSettled).2

theorem maskedParent_ofDescription :
    Graph.ofDescription maskedParent.toDescription = .ok maskedParent := by decide

theorem maskedParent_isolation : Yields Isolation.run { graph := maskedParent } 0
    { graph := maskedParentJoined, counters := { isolate := 1 } } := by
  have hwalk : maskedParent.walk Isolation.bounds [⟨0⟩] = maskedParentVisits :=
    Graph.walkFrom_of_within (n := 4) (by decide)
  have hrun : Yields Isolation.run { graph := maskedParent } 0 _ :=
    Isolation.yields_run_of_island (.ofDescription maskedParent_ofDescription) (by decide)
      (show maskedParent.sources = [⟨0⟩] by decide) rfl rfl
  rw [hwalk] at hrun
  exact hrun

theorem maskedParent_threadedPorts :
    Yields ThreadedPorts.run maskedParentJoined 1 maskedParentSettled := by
  have hwalk : maskedParentJoined.walk (Bounds.around []) maskedParentJoined.sources =
      maskedParentVisits :=
    Graph.walkFrom_of_within (n := 4) (by decide)
  rw [ThreadedPorts.run, yields_get_bind, hwalk]
  exact yields_bind.mpr ⟨[false, false, true, false], maskedParentSettled, by decide, rfl⟩

theorem maskedParent_prepare : Yields run { graph := maskedParent } ⟨0, 1, 1, 0⟩
    { graph := maskedParentPrepared, counters := { isolate := 1 } } := by
  rw [run, yields_get_bind]
  simp only [yields_bind, yields_pure, yields_liftM]
  exact ⟨_, _, ⟨rfl, rfl⟩, _, _, rfl, _, _, maskedParent_isolation, _, _, rfl, _, _,
    yields_onGraph.mpr ⟨_, maskedParent_threadedPorts, rfl⟩, _, _, rfl, _, _, rfl, _, _, rfl, _, _,
    rfl, _, _, rfl, rfl, rfl⟩

theorem maskedParent_wired : maskedParent.Wired := by decide

theorem maskedParent_connected : maskedParentPrepared.Connected ⟨2⟩ := by
  have hfeeds : maskedParentPrepared.Feeds ⟨0⟩ ⟨2⟩ := ⟨_, _, rfl, rfl, by decide⟩
  exact ⟨⟨0⟩, by decide, .rel _ _ hfeeds⟩

theorem run_requests_iff_maskedParent :
    maskedParent.WellFormed ∧ maskedParent.Indexed ∧ maskedParent.Coherent ∧
      maskedParent.Exchangeable ∧
      Yields run { graph := maskedParent } ⟨0, 1, 1, 0⟩
        { graph := maskedParentPrepared, counters := { isolate := 1 } } ∧
      maskedParentPrepared.Connected ⟨2⟩ ∧
      ∃ t, Midway maskedParent t maskedParentPrepared ∧
        ∀ x op, maskedParentPrepared.get? x = some op → maskedParentPrepared.Connected x →
          (op.request? ≠ none ↔ (t.get? x).bind Operator.request? ≠ none ∧
            op.placement.lowLatencyRegion? = none ∧
            ∀ p, t.Feeds p x → t.marker? p = none →
              maskedParentPrepared.keyOf p = op.placement.colocateKey) ∧
          (op.request? ≠ none →
            ((∀ p, maskedParentPrepared.Feeds p x → maskedParentPrepared.marker? p = none →
              maskedParentPrepared.keyOf p = op.placement.colocateKey) ↔
            ∀ p m, Bridged t.Feeds (t.Marked lateMarkers) p m → t.Marked lateMarkers m →
              t.Feeds m x → t.marker? p = none →
                maskedParentPrepared.keyOf p = op.placement.colocateKey)) := by
  have hg := WellFormed.ofDescription maskedParent_ofDescription
  have hi := Indexed.ofDescription maskedParent_ofDescription
  have hco := maskedParent_wired.coherent
  have hr : maskedParent.Exchangeable := exchangeable_of_endless fun e he => by
    have hends : maskedParent.markers .endParallel = [] := by decide
    exact List.not_mem_nil (hends ▸ (mem_markers hg).mpr he)
  exact ⟨hg, hi, hco, hr, maskedParent_prepare, maskedParent_connected,
    run_requests_iff (w := { graph := maskedParent }) hg hi hco hr maskedParent_prepare⟩

/-- **A request that stays at a process boundary.** The operator below the union keeps its request;
the union is taken out, and then a source in another process feeds it directly. -/
theorem maskedParent_keeps :
    maskedParent.WellFormed ∧ maskedParent.Indexed ∧ maskedParent.Wired ∧
      (∀ x op, maskedParent.get? x = some op → op.config.queue = none) ∧
      ∃ stats w', Yields run { graph := maskedParent } stats w' ∧ w'.graph.Connected ⟨2⟩ ∧
        (∃ op, w'.graph.get? ⟨2⟩ = some op ∧ op.marker? = none ∧ op.request? ≠ none) ∧
        w'.graph.Feeds ⟨0⟩ ⟨2⟩ ∧ w'.graph.marker? ⟨0⟩ = none ∧
        w'.graph.keyOf ⟨0⟩ = some "x" ∧ w'.graph.keyOf ⟨2⟩ = some "y" := by
  have hg := WellFormed.ofDescription maskedParent_ofDescription
  have hqueues : ∀ x op, maskedParent.get? x = some op → op.config.queue = none := by
    intro x op hop
    have hall : ∀ x ∈ maskedParent.order, ∀ op ∈ maskedParent.get? x,
        op.config.queue = none := by decide
    exact hall x (hg.mem_order_iff.mpr ⟨op, hop⟩) op hop
  refine ⟨hg, .ofDescription maskedParent_ofDescription, maskedParent_wired, hqueues, _, _,
    maskedParent_prepare, maskedParent_connected, ⟨_, rfl, by decide, by decide⟩,
    ⟨_, _, rfl, rfl, by decide⟩, by decide, by decide, by decide⟩

end Preparation

end StreamTopology
