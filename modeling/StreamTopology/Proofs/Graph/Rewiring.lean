import StreamTopology.Graph.Rewiring
import StreamTopology.Proofs.Graph.Streams

/-!
# One operator taken out

`Rewiring.remove` edits the children, then the parents, and then vacates a place. Here the three
steps are put together into one graph, `Graph.without`, and what that graph looks like is read off
port by port.

On any well-formed graph a removal changes nothing but connections. On a coherent graph it does the
same to every port that is left, whether or not the port belongs to a neighbour: a port that knew
the removed operator now knows what lay behind it.

## Main definitions

* `Operator.disconnected`: an operator without its connections.
* `Graph.without`: the graph after a removal.

## Main results

* `yields_remove`: a removal succeeds if and only if the operator is live and has at most one
  output port.
* `Graph.disconnected_without`: what is left differs in connections only.
* `Graph.Coherent.without`, `Graph.Coherent.lists_without`: the ports that are left agree again, and
  they are linked if they were linked before, directly or through the operator that is gone.
* `Graph.feeds_without_iff`: the same for operators.
-/

namespace StreamTopology

/-- The operator with its ports listing nothing. -/
def Operator.disconnected (op : Operator) : Operator :=
  { op with
    inputs := op.inputs.map fun p => { p with connections := [] }
    outputs := op.outputs.map fun p => { p with connections := [] } }

namespace Rewiring

/-! ### Lists of connections -/

section

variable {α : Type} [BEq α] [LawfulBEq α] {xs : List α} {x y : α}

theorem mem_addOnce : y ∈ addOnce xs x ↔ y ∈ xs ∨ y = x := by
  unfold addOnce
  split
  next h =>
    have hx : x ∈ xs := by simpa using h
    exact ⟨Or.inl, fun h => h.elim id fun he => he ▸ hx⟩
  next => simp

theorem nodup_addOnce (h : xs.Nodup) : (addOnce xs x).Nodup := by
  unfold addOnce
  split
  next => exact h
  next hx =>
    have hx : x ∉ xs := by simpa using hx
    exact List.nodup_append.mpr
      ⟨h, List.nodup_singleton x, fun a ha b hb he => hx (List.mem_singleton.mp hb ▸ he ▸ ha)⟩

theorem mem_foldl_addOnce {ys : List α} : y ∈ ys.foldl addOnce xs ↔ y ∈ xs ∨ y ∈ ys := by
  induction ys generalizing xs with
  | nil => simp
  | cons z ys ih => rw [List.foldl_cons, ih, mem_addOnce, List.mem_cons, or_assoc]

theorem nodup_foldl_addOnce {ys : List α} (h : xs.Nodup) : (ys.foldl addOnce xs).Nodup := by
  induction ys generalizing xs with
  | nil => exact h
  | cons z ys ih => exact ih (nodup_addOnce h)

end

variable {gone : String → Bool} {names more instead : List String} {c : String}

theorem mem_addAll : c ∈ addAll names more ↔ c ∈ names ∨ c ∈ more := mem_foldl_addOnce

theorem nodup_addAll (h : names.Nodup) : (addAll names more).Nodup := nodup_foldl_addOnce h

theorem rewire_eq_self (h : ∀ c ∈ names, gone c = false) : rewire gone instead names = names := by
  rw [rewire, if_neg]
  simpa using h

theorem nodup_rewire (h : names.Nodup) : (rewire gone instead names).Nodup := by
  unfold rewire
  split
  · exact nodup_addAll (h.sublist List.eraseP_sublist)
  · exact h

/-- A name that stays is listed if it was listed before or comes in for one that goes. -/
theorem mem_rewire_of_stays (hc : gone c = false) :
    c ∈ rewire gone instead names ↔ c ∈ names ∨ (∃ d ∈ names, gone d = true) ∧ c ∈ instead := by
  by_cases hany : ∃ d ∈ names, gone d = true
  · rw [rewire, if_pos (List.any_eq_true.mpr hany), mem_addAll,
      List.mem_eraseP_of_neg (by simp [hc]), and_iff_right hany]
  · have hnone : ∀ d ∈ names, gone d = false := fun d hd =>
      Bool.eq_false_iff.mpr fun htrue => hany ⟨d, hd, htrue⟩
    rw [rewire_eq_self hnone]
    exact (or_iff_left fun h => hany h.1).symm

/-! ### The names that a removal looks for -/

/-- The name is that of the operator's first output port. -/
def isOutputOf (op : Operator) (c : String) : Bool :=
  (op.outputs.head?.map OutputPort.name) == some c

theorem isOutputOf_iff {op : Operator} (h : op.outputs.length ≤ 1) :
    isOutputOf op c = true ↔ ∃ r ∈ op.outputs, r.name = c := by
  rcases hout : op.outputs with _ | ⟨r, _ | ⟨r', rest⟩⟩
  · simp [isOutputOf, hout]
  · simp [isOutputOf, hout]
  · rw [hout] at h
    simp at h

theorem ownsInput_iff {op : Operator} : op.ownsInput c = true ↔ ∃ q ∈ op.inputs, q.name = c := by
  simp [Operator.ownsInput]

theorem ownsOutput_iff {op : Operator} :
    op.ownsOutput c = true ↔ ∃ p ∈ op.outputs, p.name = c := by
  simp [Operator.ownsOutput]

theorem exists_isOutputOf {op : Operator} (h : op.outputs.length ≤ 1) :
    (∃ d ∈ names, isOutputOf op d = true) ↔ ∃ r ∈ op.outputs, r.name ∈ names := by
  constructor
  · rintro ⟨_, hd, hout⟩
    obtain ⟨r, hr, rfl⟩ := (isOutputOf_iff h).mp hout
    exact ⟨r, hr, hd⟩
  · rintro ⟨r, hr, hc⟩
    exact ⟨r.name, hc, (isOutputOf_iff h).mpr ⟨r, hr, rfl⟩⟩

theorem exists_ownsInput {op : Operator} :
    (∃ d ∈ names, op.ownsInput d = true) ↔ ∃ j ∈ op.inputs, j.name ∈ names := by
  constructor
  · rintro ⟨_, hd, howns⟩
    obtain ⟨j, hj, rfl⟩ := ownsInput_iff.mp howns
    exact ⟨j, hj, hd⟩
  · rintro ⟨j, hj, hc⟩
    exact ⟨j.name, hc, ownsInput_iff.mpr ⟨j, hj, rfl⟩⟩

theorem mem_inputsListing {listed : String → Bool} {op : Operator} :
    c ∈ inputsListing listed op ↔
      ∃ q ∈ op.inputs, q.name = c ∧ ∃ d ∈ q.connections, listed d = true := by
  simp only [inputsListing, List.mem_map, List.mem_filter, List.any_eq_true]
  exact ⟨fun ⟨q, ⟨hq, hd⟩, hn⟩ => ⟨q, hq, hn, hd⟩, fun ⟨q, hq, hn, hd⟩ => ⟨q, ⟨hq, hd⟩, hn⟩⟩

theorem mem_outputsListing {listed : String → Bool} {op : Operator} :
    c ∈ outputsListing listed op ↔
      ∃ p ∈ op.outputs, p.name = c ∧ ∃ d ∈ p.connections, listed d = true := by
  simp only [outputsListing, List.mem_map, List.mem_filter, List.any_eq_true]
  exact ⟨fun ⟨q, ⟨hq, hd⟩, hn⟩ => ⟨q, hq, hn, hd⟩, fun ⟨q, hq, hn, hd⟩ => ⟨q, ⟨hq, hd⟩, hn⟩⟩

@[simp] theorem disconnected_rewireInputs {op : Operator} :
    (rewireInputs gone instead op).disconnected = op.disconnected := by
  simp [rewireInputs, Operator.disconnected, Function.comp_def]

@[simp] theorem disconnected_rewireOutputs {op : Operator} :
    (rewireOutputs gone instead op).disconnected = op.disconnected := by
  simp [rewireOutputs, Operator.disconnected, Function.comp_def]

end Rewiring

/-! ### The graph after a removal -/

namespace Graph

open Rewiring

/-- The input ports of the children of `id` that read it. -/
def readers (g : Graph) (id : Handle) (op : Operator) : List String :=
  ((g.children id).filterMap g.get?).flatMap (inputsListing (isOutputOf op))

/-- The output ports of the parents of `id` that feed it. -/
def feeders (g : Graph) (id : Handle) (op : Operator) : List String :=
  ((g.parents id).filterMap g.get?).flatMap (outputsListing op.ownsInput)

/-- The graph without the operator `op` at `id`, its parents connected to its children. -/
def without (g : Graph) (id : Handle) (op : Operator) : Graph :=
  ((g.mapAt (g.children id) (rewireInputs (isOutputOf op) (g.feeders id op))).mapAt (g.parents id)
    (rewireOutputs op.ownsInput (g.readers id op))).vacate id

end Graph

/-- **When a removal succeeds, and what it leaves.** -/
theorem yields_remove {g g' : Graph} {id : Handle} {u : PUnit} (hg : g.WellFormed) :
    Yields (Rewiring.remove id) g u g' ↔
      ∃ op, g.get? id = some op ∧ op.outputs.length ≤ 1 ∧ g' = g.without id op := by
  have hchildren : ∀ x ∈ g.children id, g.contains x = true :=
    fun x hx => Graph.contains_of_mem_children hg hx
  have hparents : ∀ x ∈ g.parents id, g.contains x = true :=
    fun x hx => Graph.contains_of_mem_parents hg hx
  rw [Rewiring.remove, yields_get_bind]
  rcases hop : g.get? id with _ | op
  · exact ⟨fun h => absurd h not_yields_throw, fun ⟨_, h, _⟩ => by cases h⟩
  by_cases hlen : op.outputs.length > 1
  · have hne : ¬ op.outputs.length ≤ 1 := by omega
    simp only [hlen, if_true, yields_bind, not_yields_throw, false_and, exists_false, false_iff]
    rintro ⟨op', hop', hle, _⟩
    obtain rfl := Option.some.inj hop'
    exact hne hle
  · simp only [hlen, if_false]
    rw [yields_lookups_bind hchildren, yields_lookups_bind hparents,
      yields_updates_bind (Graph.children_nodup hg) hchildren,
      yields_updates_bind (Graph.parents_nodup hg) fun x hx =>
        (Graph.contains_mapAt ..).trans (hparents x hx), yields_modify]
    constructor
    · rintro rfl
      exact ⟨op, rfl, by omega, rfl⟩
    · rintro ⟨op', hop', _, rfl⟩
      obtain rfl := Option.some.inj hop'
      rfl

namespace Graph

open Rewiring

variable {g g' : Graph} {id x y : Handle} {ids : List Handle} {op a b : Operator} {o i : String}

theorem WellFormed.without (hg : g.WellFormed) (id : Handle) (op : Operator) :
    (g.without id op).WellFormed :=
  ((hg.mapAt _ _).mapAt _ _).vacate id

theorem WellFormed.order_without (hg : g.WellFormed) (id : Handle) (op : Operator) :
    (g.without id op).order = g.order.filter fun x => x != id :=
  ((hg.mapAt _ _).mapAt _ _).order_vacate

theorem indexed_without (h : g.get? id = some op) : (g.without id op).Indexed := by
  have hc : g.contains id = true := contains_iff.mpr ⟨op, h⟩
  rw [Graph.without, Graph.vacate, if_pos (by simpa using hc)]
  exact indexed_reindexed _

/-- The place of an operator that has been removed is the one vacated last. -/
theorem vacant_without (h : g.get? id = some op) : (g.without id op).vacant = id :: g.vacant := by
  have hc : g.contains id = true := contains_iff.mpr ⟨op, h⟩
  rw [Graph.without, Graph.vacate, if_pos (by simpa using hc)]
  rfl

@[simp] theorem get?_without_self : (g.without id op).get? id = none := by
  rw [without, get?_vacate, if_pos rfl]

theorem get?_without (hx : x ≠ id) :
    (g.without id op).get? x = (g.get? x).map fun a =>
      let read := if x ∈ g.children id then rewireInputs (isOutputOf op) (g.feeders id op) a else a
      if x ∈ g.parents id then rewireOutputs op.ownsInput (g.readers id op) read else read := by
  rw [without, get?_vacate, if_neg hx, get?_mapAt, get?_mapAt]
  by_cases hc : x ∈ g.children id <;> by_cases hp : x ∈ g.parents id <;>
    simp [hc, hp, Function.comp_def]

/-- **The operators that are left keep everything but their connections.** -/
theorem disconnected_without (hx : x ≠ id) :
    ((g.without id op).get? x).map Operator.disconnected =
      (g.get? x).map Operator.disconnected := by
  rw [get?_without hx, Option.map_map]
  refine congrFun (congrArg Option.map (funext fun a => ?_)) _
  by_cases hc : x ∈ g.children id <;> by_cases hp : x ∈ g.parents id <;> simp [hc, hp]

/-- What a graph has besides its operators. -/
def settings (g : Graph) : Description := { g.toDescription with operators := [] }

@[simp] theorem settings_without : (g.without id op).settings = g.settings := by
  rw [without, Graph.vacate]
  split <;> rfl

/-! ### Several removals -/

/-- An operator that keeps everything but its connections is live before and after. -/
theorem exists_of_disconnected
    (h : (g'.get? x).map Operator.disconnected = (g.get? x).map Operator.disconnected)
    (ha : g'.get? x = some a) :
    ∃ b, g.get? x = some b ∧ b.disconnected = a.disconnected := by
  rw [ha] at h
  obtain ⟨b, hb, heq⟩ := Option.map_eq_some_iff.mp h.symm
  exact ⟨b, hb, heq⟩

/-- Connections apart, the same operators have ports of the same names. -/
theorem portNames_of_disconnected (h : a.disconnected = b.disconnected) :
    a.inputs.map InputPort.name = b.inputs.map InputPort.name ∧
      a.outputs.map OutputPort.name = b.outputs.map OutputPort.name := by
  have hin := congrArg (fun c : Operator => c.inputs.map InputPort.name) h
  have hout := congrArg (fun c : Operator => c.outputs.map OutputPort.name) h
  simp only [Operator.disconnected, List.map_map, Function.comp_def] at hin hout
  exact ⟨hin, hout⟩

theorem outputs_length_of_disconnected (h : a.disconnected = b.disconnected) :
    a.outputs.length = b.outputs.length := by
  have hlen := congrArg List.length (portNames_of_disconnected h).2
  rwa [List.length_map, List.length_map] at hlen

/-- The listed operators are gone, and the others keep their order and everything but their
connections. -/
structure Cleared (g : Graph) (ids : List Handle) (g' : Graph) : Prop where
  wellFormed : g'.WellFormed
  settings : g'.settings = g.settings
  gone : ∀ id ∈ ids, g'.get? id = none
  order : g'.order = g.order.filter fun x => x ∉ ids
  kept : ∀ x ∉ ids,
    (g'.get? x).map Operator.disconnected = (g.get? x).map Operator.disconnected

theorem Cleared.nil (hg : g.WellFormed) : g.Cleared [] g where
  wellFormed := hg
  settings := rfl
  gone := fun _ h => by cases h
  order := by simp
  kept := fun _ _ => rfl

/-- One removal more in front of the others. -/
theorem Cleared.cons (hg : g.WellFormed) (hid : id ∉ ids)
    (h : (g.without id op).Cleared ids g') : g.Cleared (id :: ids) g' := by
  refine ⟨h.wellFormed, h.settings.trans settings_without, ?_, ?_, ?_⟩
  · intro x hx
    rcases List.mem_cons.mp hx with rfl | hx
    · have hkept := h.kept x hid
      rw [get?_without_self, Option.map_none, Option.map_eq_none_iff] at hkept
      exact hkept
    · exact h.gone x hx
  · rw [h.order, hg.order_without, List.filter_filter]
    refine List.filter_congr fun x _ => ?_
    by_cases hx : x = id <;> by_cases hm : x ∈ ids <;> simp [hx, hm]
  · intro x hx
    rw [List.mem_cons, not_or] at hx
    rw [h.kept x hx.2, disconnected_without hx.1]

section

variable (h : g.Cleared ids g')

include h

/-- What is left after removals was there before, with other connections. -/
theorem Cleared.exists_before (hop : g'.get? x = some op) :
    x ∉ ids ∧ ∃ a, g.get? x = some a ∧ a.disconnected = op.disconnected := by
  have hstays : x ∉ ids := fun hm => by
    rw [h.gone x hm] at hop
    cases hop
  exact ⟨hstays, exists_of_disconnected (h.kept x hstays) hop⟩

theorem Cleared.contains_iff : g'.contains x = true ↔ g.contains x = true ∧ x ∉ ids := by
  simp only [Graph.contains_iff]
  constructor
  · rintro ⟨op, hop⟩
    obtain ⟨hstays, a, ha, _⟩ := h.exists_before hop
    exact ⟨⟨a, ha⟩, hstays⟩
  · rintro ⟨⟨a, ha⟩, hstays⟩
    obtain ⟨op, hop, _⟩ := exists_of_disconnected (h.kept x hstays).symm ha
    exact ⟨op, hop⟩

/-- The sources that are left after removals were sources before. -/
theorem Cleared.sources_subset (hg : g.WellFormed) : g'.sources ⊆ g.sources := by
  intro x hx
  obtain ⟨op, hop, hsource⟩ := (mem_findAll h.wellFormed).mp hx
  obtain ⟨_, a, ha, hsame⟩ := h.exists_before hop
  have hname : a.disconnected.name = op.disconnected.name := by rw [hsame]
  have hempty : a.inputs.isEmpty = op.inputs.isEmpty := by
    rw [← List.isEmpty_map (f := InputPort.name), (portNames_of_disconnected hsame).1,
      List.isEmpty_map]
  rw [← hempty, ← show a.name = op.name from hname] at hsource
  exact (mem_findAll hg).mpr ⟨a, ha, hsource⟩

end

/-- No marker of a kind is left when all of them have been taken out. -/
theorem Cleared.markers_nil {m : Marker} (hg : g.WellFormed) (h : g.Cleared (g.markers m) g') :
    g'.markers m = [] := by
  refine List.eq_nil_iff_forall_not_mem.mpr fun x hx => ?_
  obtain ⟨op, hop, hmarker⟩ := (mem_findAll h.wellFormed).mp hx
  obtain ⟨hstays, a, ha, hsame⟩ := h.exists_before hop
  have hkind : a.disconnected.kind = op.disconnected.kind := by rw [hsame]
  rw [Operator.isMarker, ← show a.kind = op.kind from hkind] at hmarker
  exact hstays ((mem_findAll hg).mpr ⟨a, ha, hmarker⟩)

/-- Another removal leaves the number of output ports. -/
theorem outputs_length_without (hx : x ≠ id) (ha : (g.without id op).get? x = some a) :
    ∃ b, g.get? x = some b ∧ b.outputs.length = a.outputs.length := by
  obtain ⟨b, hb, heq⟩ := exists_of_disconnected (disconnected_without hx) ha
  exact ⟨b, hb, outputs_length_of_disconnected heq⟩

end Graph

/-- **What the removals of a list leave.** -/
theorem removeAll_cleared {g g' : Graph} {ids : List Handle} {u : PUnit} (hg : g.WellFormed)
    (hids : ids.Nodup) (h : Yields (Rewiring.removeAll ids) g u g') : g.Cleared ids g' := by
  unfold Rewiring.removeAll at h
  induction ids generalizing g with
  | nil =>
    obtain rfl := yields_forM_nil.mp h
    exact Graph.Cleared.nil hg
  | cons id ids ih =>
    obtain ⟨hid, hnd⟩ := List.nodup_cons.mp hids
    obtain ⟨t, hstep, hrest⟩ := yields_forM_cons.mp h
    obtain ⟨op, _, _, rfl⟩ := (yields_remove hg).mp hstep
    exact (ih (hg.without id op) hnd hrest).cons hg hid

/-- The removals of a list succeed when none of its operators has two output ports. -/
theorem yields_removeAll {g : Graph} {ids : List Handle} (hg : g.WellFormed) (hids : ids.Nodup) :
    (∃ g', Yields (Rewiring.removeAll ids) g () g') ↔
      ∀ id ∈ ids, ∃ op, g.get? id = some op ∧ op.outputs.length ≤ 1 := by
  unfold Rewiring.removeAll
  induction ids generalizing g with
  | nil => exact ⟨fun _ _ h => (List.not_mem_nil h).elim, fun _ => ⟨g, yields_forM_nil.mpr rfl⟩⟩
  | cons id ids ih =>
    obtain ⟨hid, hnd⟩ := List.nodup_cons.mp hids
    have hne : ∀ x ∈ ids, x ≠ id := fun x hx he => hid (he ▸ hx)
    constructor
    · rintro ⟨g', h⟩ x hx
      obtain ⟨t, hstep, hrest⟩ := yields_forM_cons.mp h
      obtain ⟨op, hop, hlen, rfl⟩ := (yields_remove hg).mp hstep
      rcases List.mem_cons.mp hx with rfl | hx
      · exact ⟨op, hop, hlen⟩
      · obtain ⟨a, ha, hlen⟩ := (ih (hg.without id op) hnd).mp ⟨g', hrest⟩ x hx
        obtain ⟨b, hb, heq⟩ := Graph.outputs_length_without (hne x hx) ha
        exact ⟨b, hb, heq ▸ hlen⟩
    · intro h
      obtain ⟨op, hop, hlen⟩ := h id List.mem_cons_self
      obtain ⟨g', hrest⟩ := (ih (hg.without id op) hnd).mpr fun x hx => by
        obtain ⟨b, hb, hlen⟩ := h x (List.mem_cons_of_mem _ hx)
        obtain ⟨a, ha, _⟩ :=
          Graph.exists_of_disconnected (Graph.disconnected_without (hne x hx)).symm hb
        obtain ⟨b', hb', heq⟩ := Graph.outputs_length_without (hne x hx) ha
        obtain rfl := Option.some.inj (hb.symm.trans hb')
        exact ⟨a, ha, heq ▸ hlen⟩
      exact ⟨g', yields_forM_cons.mpr ⟨_, (yields_remove hg).mpr ⟨op, hop, hlen, rfl⟩, hrest⟩⟩

namespace Graph

open Rewiring

variable {g : Graph} {id x y : Handle} {op a b : Operator} {o i : String}

/-! ### Removal from a coherent graph -/

section Coherent

variable (hg : g.WellFormed) (hi : g.Indexed) (hco : g.Coherent) (hop : g.get? id = some op)
  (hlen : op.outputs.length ≤ 1)

include hg hi hco hop hlen

/-- The readers are the input ports that know an output port of the operator. -/
theorem mem_readers :
    i ∈ g.readers id op ↔
      ∃ q ∈ g.inputPorts, q.name = i ∧ ∃ r ∈ op.outputs, r.name ∈ q.connections := by
  simp only [readers, List.mem_flatMap, List.mem_filterMap, mem_inputsListing,
    isOutputOf_iff hlen]
  constructor
  · rintro ⟨b, ⟨y, _, hb⟩, q, hq, hname, _, hd, r, hr, rfl⟩
    exact ⟨q, (mem_inputPorts hg).mpr ⟨y, b, hb, hq⟩, hname, r, hr, hd⟩
  · rintro ⟨q, hq, hname, r, hr, hc⟩
    obtain ⟨y, b, hb, hqb⟩ := (mem_inputPorts hg).mp hq
    have hr' : r ∈ g.outputPorts := (mem_outputPorts hg).mpr ⟨id, op, hop, hr⟩
    have hfeeds : op.feeds b = true :=
      Operator.feeds_iff.mpr ⟨r, hr, q, hqb, (hco.agrees r hr' q hq).mpr hc⟩
    have hchild : y ∈ g.children id :=
      (mem_children hg hi).mpr ⟨op, b, hop, hb, hfeeds⟩
    exact ⟨b, ⟨y, hchild, hb⟩, q, hqb, hname, _, hc, r, hr, rfl⟩

omit hlen in
/-- The feeders are the output ports that know an input port of the operator. -/
theorem mem_feeders :
    o ∈ g.feeders id op ↔
      ∃ p ∈ g.outputPorts, p.name = o ∧ ∃ j ∈ op.inputs, j.name ∈ p.connections := by
  simp only [feeders, List.mem_flatMap, List.mem_filterMap, mem_outputsListing, ownsInput_iff]
  constructor
  · rintro ⟨a, ⟨x, _, ha⟩, p, hp, hname, _, hd, j, hj, rfl⟩
    exact ⟨p, (mem_outputPorts hg).mpr ⟨x, a, ha, hp⟩, hname, j, hj, hd⟩
  · rintro ⟨p, hp, hname, j, hj, hc⟩
    obtain ⟨x, a, ha, hpa⟩ := (mem_outputPorts hg).mp hp
    have hfeeds : a.feeds op = true := Operator.feeds_iff.mpr ⟨p, hpa, j, hj, hc⟩
    have hparent : x ∈ g.parents id :=
      (mem_parents hg hi hco.agrees).mpr ⟨a, op, ha, hop, hfeeds⟩
    exact ⟨a, ⟨x, hparent, ha⟩, p, hpa, hname, _, hc, j, hj, rfl⟩

/-- No input port of an operator that is no child knows the removed operator. -/
theorem rewireInputs_of_not_child (ha : g.get? x = some a) (hc : x ∉ g.children id) :
    rewireInputs (isOutputOf op) (g.feeders id op) a = a := by
  have hself : ∀ q ∈ a.inputs,
      { q with connections := rewire (isOutputOf op) (g.feeders id op) q.connections } = q := by
    intro q hq
    rw [rewire_eq_self]
    intro c hcq
    rw [Bool.eq_false_iff]
    intro htrue
    obtain ⟨r, hr, rfl⟩ := (isOutputOf_iff hlen).mp htrue
    have hr' : r ∈ g.outputPorts := (mem_outputPorts hg).mpr ⟨id, op, hop, hr⟩
    have hq' : q ∈ g.inputPorts := (mem_inputPorts hg).mpr ⟨x, a, ha, hq⟩
    exact hc ((mem_children hg hi).mpr ⟨op, a, hop, ha,
      Operator.feeds_iff.mpr ⟨r, hr, q, hq, (hco.agrees r hr' q hq').mpr hcq⟩⟩)
  rw [rewireInputs, List.map_congr_left hself, List.map_id']

omit hlen in
/-- No output port of an operator that is no parent knows the removed operator. -/
theorem rewireOutputs_of_not_parent (ha : g.get? x = some a) (hp : x ∉ g.parents id) :
    rewireOutputs op.ownsInput (g.readers id op) a = a := by
  have hself : ∀ p ∈ a.outputs,
      { p with connections := rewire op.ownsInput (g.readers id op) p.connections } = p := by
    intro p hpa
    rw [rewire_eq_self]
    intro c hcp
    rw [Bool.eq_false_iff]
    intro htrue
    obtain ⟨j, hj, rfl⟩ := ownsInput_iff.mp htrue
    exact hp ((mem_parents hg hi hco.agrees).mpr ⟨a, op, ha, hop,
      Operator.feeds_iff.mpr ⟨p, hpa, j, hj, hcp⟩⟩)
  rw [rewireOutputs, List.map_congr_left hself, List.map_id']

/-- Every operator that is left has been rewired on both sides. For those that were no neighbours
this changes nothing, because no port of theirs knows the removed operator. -/
theorem get?_without_coherent (hx : x ≠ id) :
    (g.without id op).get? x = (g.get? x).map fun a =>
      rewireOutputs op.ownsInput (g.readers id op)
        (rewireInputs (isOutputOf op) (g.feeders id op) a) := by
  rw [get?_without hx]
  rcases ha : g.get? x with _ | a
  · rfl
  have hread : (if x ∈ g.children id then rewireInputs (isOutputOf op) (g.feeders id op) a
      else a) = rewireInputs (isOutputOf op) (g.feeders id op) a := by
    split
    next => rfl
    next hc => exact (rewireInputs_of_not_child hg hi hco hop hlen ha hc).symm
  simp only [Option.map_some, hread]
  split
  next => rfl
  next hp =>
    -- the two sides do not touch each other, so rewiring the outputs may be done first
    have hswap : ∀ c : Operator,
        rewireOutputs op.ownsInput (g.readers id op)
            (rewireInputs (isOutputOf op) (g.feeders id op) c) =
          rewireInputs (isOutputOf op) (g.feeders id op)
            (rewireOutputs op.ownsInput (g.readers id op) c) := fun _ => rfl
    rw [hswap, rewireOutputs_of_not_parent hg hi hco hop ha hp]

/-- The output ports that are left. -/
theorem mem_outputPorts_without {p' : OutputPort} :
    p' ∈ (g.without id op).outputPorts ↔
      ∃ x a p, x ≠ id ∧ g.get? x = some a ∧ p ∈ a.outputs ∧
        p' = { p with connections := rewire op.ownsInput (g.readers id op) p.connections } := by
  rw [mem_outputPorts (hg.without id op)]
  constructor
  · rintro ⟨x, a', ha', hp'⟩
    have hx : x ≠ id := fun he => by rw [he, get?_without_self] at ha'; cases ha'
    rw [get?_without_coherent hg hi hco hop hlen hx] at ha'
    obtain ⟨a, ha, rfl⟩ := Option.map_eq_some_iff.mp ha'
    obtain ⟨p, hp, rfl⟩ := List.mem_map.mp hp'
    exact ⟨x, a, p, hx, ha, hp, rfl⟩
  · rintro ⟨x, a, p, hx, ha, hp, rfl⟩
    have hget := get?_without_coherent hg hi hco hop hlen hx
    rw [ha] at hget
    exact ⟨x, _, hget, List.mem_map.mpr ⟨p, hp, rfl⟩⟩

/-- The input ports that are left. -/
theorem mem_inputPorts_without {q' : InputPort} :
    q' ∈ (g.without id op).inputPorts ↔
      ∃ y b q, y ≠ id ∧ g.get? y = some b ∧ q ∈ b.inputs ∧
        q' = { q with connections := rewire (isOutputOf op) (g.feeders id op) q.connections } := by
  rw [mem_inputPorts (hg.without id op)]
  constructor
  · rintro ⟨y, b', hb', hq'⟩
    have hy : y ≠ id := fun he => by rw [he, get?_without_self] at hb'; cases hb'
    rw [get?_without_coherent hg hi hco hop hlen hy] at hb'
    obtain ⟨b, hb, rfl⟩ := Option.map_eq_some_iff.mp hb'
    obtain ⟨q, hq, rfl⟩ := List.mem_map.mp hq'
    exact ⟨y, b, q, hy, hb, hq, rfl⟩
  · rintro ⟨y, b, q, hy, hb, hq, rfl⟩
    have hget := get?_without_coherent hg hi hco hop hlen hy
    rw [hb] at hget
    exact ⟨y, _, hget, List.mem_map.mpr ⟨q, hq, rfl⟩⟩

/-- An input port is among the readers if an output port of the operator lists it. -/
theorem mem_readers_of_input {q : InputPort} (hq : q ∈ g.inputPorts) :
    q.name ∈ g.readers id op ↔ ∃ r ∈ op.outputs, q.name ∈ r.connections := by
  have hopOut : ∀ r ∈ op.outputs, r ∈ g.outputPorts :=
    fun r hr => (mem_outputPorts hg).mpr ⟨id, op, hop, hr⟩
  rw [mem_readers hg hi hco hop hlen]
  constructor
  · rintro ⟨q', hq', hname, r, hr, hc⟩
    exact ⟨r, hr, hname ▸ (hco.agrees r (hopOut r hr) q' hq').mpr hc⟩
  · rintro ⟨r, hr, hc⟩
    exact ⟨q, hq, rfl, r, hr, (hco.agrees r (hopOut r hr) q hq).mp hc⟩

omit hlen in
/-- An output port is among the feeders if it lists an input port of the operator. -/
theorem mem_feeders_of_output {p : OutputPort} (hp : p ∈ g.outputPorts) :
    p.name ∈ g.feeders id op ↔ ∃ j ∈ op.inputs, j.name ∈ p.connections := by
  rw [mem_feeders hg hi hco hop]
  constructor
  · rintro ⟨p', hp', hname, j, hj, hc⟩
    obtain ⟨x, a, ha, hpa⟩ := (mem_outputPorts hg).mp hp
    obtain ⟨x', a', ha', hpa'⟩ := (mem_outputPorts hg).mp hp'
    rw [(hco.output_owner hg ha hpa ha' hpa' hname.symm).2]
    exact ⟨j, hj, hc⟩
  · exact fun h => ⟨p, hp, rfl, h⟩

/-- **What an output port lists after the removal**: what it listed before, and the readers of the
operator that is gone if it fed that operator. -/
theorem mem_rewire_output {p : OutputPort} {q : InputPort} (hy : y ≠ id)
    (hb : g.get? y = some b) (hq : q ∈ b.inputs) :
    q.name ∈ rewire op.ownsInput (g.readers id op) p.connections ↔
      q.name ∈ p.connections ∨
        (∃ j ∈ op.inputs, j.name ∈ p.connections) ∧ ∃ r ∈ op.outputs, q.name ∈ r.connections := by
  have hstays : op.ownsInput q.name = false := by
    rw [Bool.eq_false_iff]
    intro htrue
    obtain ⟨j, hj, hname⟩ := ownsInput_iff.mp htrue
    exact hy (hco.input_owner hg hb hq hop hj hname.symm).1
  rw [mem_rewire_of_stays hstays, exists_ownsInput,
    mem_readers_of_input hg hi hco hop hlen ((mem_inputPorts hg).mpr ⟨y, b, hb, hq⟩)]

/-- What an input port lists after the removal, by the same rule on the other side. -/
theorem mem_rewire_input {p : OutputPort} {q : InputPort} (hx : x ≠ id)
    (ha : g.get? x = some a) (hp : p ∈ a.outputs) :
    p.name ∈ rewire (isOutputOf op) (g.feeders id op) q.connections ↔
      p.name ∈ q.connections ∨
        (∃ j ∈ op.inputs, j.name ∈ p.connections) ∧ ∃ r ∈ op.outputs, r.name ∈ q.connections := by
  have hstays : isOutputOf op p.name = false := by
    rw [Bool.eq_false_iff]
    intro htrue
    obtain ⟨r, hr, hname⟩ := (isOutputOf_iff hlen).mp htrue
    exact hx (hco.output_owner hg ha hp hop hr hname.symm).1
  rw [mem_rewire_of_stays hstays, exists_isOutputOf hlen,
    mem_feeders_of_output hg hi hco hop ((mem_outputPorts hg).mpr ⟨x, a, ha, hp⟩), and_comm]

/-- **A removal keeps a graph coherent.** -/
theorem Coherent.without : (g.without id op).Coherent := by
  have hsub : (g.without id op).order.Sublist g.order := by
    rw [hg.order_without]
    exact List.filter_sublist
  have hlive : ∀ x ∈ (g.without id op).order, x ≠ id := by
    intro x hx
    rw [hg.order_without, List.mem_filter] at hx
    simpa using hx.2
  refine ⟨?_, ?_, ?_⟩
  · refine hco.inputs_nodup.sublist (portNames_sublist hsub fun x hx => ?_)
    rw [get?_without_coherent hg hi hco hop hlen (hlive x hx), Option.map_map]
    refine congrFun (congrArg Option.map (funext fun a => ?_)) _
    simp [rewireInputs, rewireOutputs, Function.comp_def]
  · refine hco.outputs_nodup.sublist (portNames_sublist hsub fun x hx => ?_)
    rw [get?_without_coherent hg hi hco hop hlen (hlive x hx), Option.map_map]
    refine congrFun (congrArg Option.map (funext fun a => ?_)) _
    simp [rewireInputs, rewireOutputs, Function.comp_def]
  · intro p' hp' q' hq'
    obtain ⟨x, a, p, hx, ha, hp, rfl⟩ := (mem_outputPorts_without hg hi hco hop hlen).mp hp'
    obtain ⟨y, b, q, hy, hb, hq, rfl⟩ := (mem_inputPorts_without hg hi hco hop hlen).mp hq'
    have hpg : p ∈ g.outputPorts := (mem_outputPorts hg).mpr ⟨x, a, ha, hp⟩
    have hqg : q ∈ g.inputPorts := (mem_inputPorts hg).mpr ⟨y, b, hb, hq⟩
    have hthrough : (∃ r ∈ op.outputs, q.name ∈ r.connections) ↔
        ∃ r ∈ op.outputs, r.name ∈ q.connections := by
      refine exists_congr fun r => and_congr_right fun hr => ?_
      exact hco.agrees r ((mem_outputPorts hg).mpr ⟨id, op, hop, hr⟩) q hqg
    show q.name ∈ rewire op.ownsInput (g.readers id op) p.connections ↔
      p.name ∈ rewire (isOutputOf op) (g.feeders id op) q.connections
    rw [mem_rewire_output hg hi hco hop hlen hy hb hq,
      mem_rewire_input hg hi hco hop hlen hx ha hp, hco.agrees p hpg q hqg, hthrough]

/-- **The neighbours that are left**: a stream between other operators was there before, or led
through the operator that is gone. -/
theorem feeds_without_iff :
    (g.without id op).Feeds x y ↔
      x ≠ id ∧ y ≠ id ∧ (g.Feeds x y ∨ g.Feeds x id ∧ g.Feeds id y) := by
  constructor
  · rintro ⟨a', b', ha', hb', hf⟩
    have hx : x ≠ id := fun he => by rw [he, get?_without_self] at ha'; cases ha'
    have hy : y ≠ id := fun he => by rw [he, get?_without_self] at hb'; cases hb'
    refine ⟨hx, hy, ?_⟩
    rw [get?_without_coherent hg hi hco hop hlen hx] at ha'
    rw [get?_without_coherent hg hi hco hop hlen hy] at hb'
    obtain ⟨a, ha, rfl⟩ := Option.map_eq_some_iff.mp ha'
    obtain ⟨b, hb, rfl⟩ := Option.map_eq_some_iff.mp hb'
    obtain ⟨p', hp', q', hq', hc⟩ := Operator.feeds_iff.mp hf
    obtain ⟨p, hp, rfl⟩ := List.mem_map.mp hp'
    obtain ⟨q, hq, rfl⟩ := List.mem_map.mp hq'
    have hpg : p ∈ g.outputPorts := (mem_outputPorts hg).mpr ⟨x, a, ha, hp⟩
    rcases (mem_rewire_output hg hi hco hop hlen hy hb hq).mp hc with
      h | ⟨⟨j, hj, hjc⟩, r, hr, hrc⟩
    · exact Or.inl ⟨a, b, ha, hb, Operator.feeds_iff.mpr ⟨p, hp, q, hq, h⟩⟩
    · exact Or.inr ⟨⟨a, op, ha, hop, Operator.feeds_iff.mpr ⟨p, hp, j, hj, hjc⟩⟩,
        op, b, hop, hb, Operator.feeds_iff.mpr ⟨r, hr, q, hq, hrc⟩⟩
  · rintro ⟨hx, hy, h⟩
    -- an output port of `x` that listed an input port of `y`, or of the operator that is gone
    have survive : ∀ a b, g.get? x = some a → g.get? y = some b → (∃ p ∈ a.outputs,
        ∃ q ∈ b.inputs, q.name ∈ p.connections ∨ (∃ j ∈ op.inputs, j.name ∈ p.connections) ∧
          ∃ r ∈ op.outputs, q.name ∈ r.connections) → (g.without id op).Feeds x y := by
      rintro a b ha hb ⟨p, hp, q, hq, hlink⟩
      have hget := get?_without_coherent hg hi hco hop hlen hx
      have hget' := get?_without_coherent hg hi hco hop hlen hy
      rw [ha] at hget
      rw [hb] at hget'
      refine ⟨_, _, hget, hget', Operator.feeds_iff.mpr
        ⟨_, List.mem_map.mpr ⟨p, hp, rfl⟩, _, List.mem_map.mpr ⟨q, hq, rfl⟩, ?_⟩⟩
      have hpg : p ∈ g.outputPorts := (mem_outputPorts hg).mpr ⟨x, a, ha, hp⟩
      exact (mem_rewire_output hg hi hco hop hlen hy hb hq).mpr hlink
    rcases h with ⟨a, b, ha, hb, hf⟩ | ⟨⟨a, op', ha, hop', hinto⟩, op'', b, hop'', hb, hout⟩
    · obtain ⟨p, hp, q, hq, hc⟩ := Operator.feeds_iff.mp hf
      exact survive a b ha hb ⟨p, hp, q, hq, Or.inl hc⟩
    · obtain rfl := Option.some.inj (hop.symm.trans hop')
      obtain rfl := Option.some.inj (hop.symm.trans hop'')
      obtain ⟨p, hp, j, hj, hjc⟩ := Operator.feeds_iff.mp hinto
      obtain ⟨r, hr, q, hq, hrc⟩ := Operator.feeds_iff.mp hout
      exact survive a b ha hb ⟨p, hp, q, hq, Or.inr ⟨⟨j, hj, hjc⟩, r, hr, hrc⟩⟩

/-- **The streams that are left**: those between ports of other operators that were there before,
and those that led through the operator that is gone. -/
theorem Coherent.lists_without :
    (g.without id op).Lists o i ↔
      (∀ r ∈ op.outputs, r.name ≠ o) ∧ (∀ j ∈ op.inputs, j.name ≠ i) ∧
        (g.Lists o i ∨ ∃ j ∈ op.inputs, ∃ r ∈ op.outputs, g.Lists o j.name ∧ g.Lists r.name i) := by
  have hopIn : ∀ j ∈ op.inputs, j ∈ g.inputPorts :=
    fun j hj => (mem_inputPorts hg).mpr ⟨id, op, hop, hj⟩
  have hopOut : ∀ r ∈ op.outputs, r ∈ g.outputPorts :=
    fun r hr => (mem_outputPorts hg).mpr ⟨id, op, hop, hr⟩
  constructor
  · rintro ⟨p', hp', q', hq', rfl, rfl, hc⟩
    obtain ⟨x, a, p, hx, ha, hp, rfl⟩ := (mem_outputPorts_without hg hi hco hop hlen).mp hp'
    obtain ⟨y, b, q, hy, hb, hq, rfl⟩ := (mem_inputPorts_without hg hi hco hop hlen).mp hq'
    have hpg : p ∈ g.outputPorts := (mem_outputPorts hg).mpr ⟨x, a, ha, hp⟩
    have hqg : q ∈ g.inputPorts := (mem_inputPorts hg).mpr ⟨y, b, hb, hq⟩
    refine ⟨fun r hr hname => hx (hco.output_owner hg ha hp hop hr hname.symm).1,
      fun j hj hname => hy (hco.input_owner hg hb hq hop hj hname.symm).1, ?_⟩
    rcases (mem_rewire_output hg hi hco hop hlen hy hb hq).mp hc with
      h | ⟨⟨j, hj, hjc⟩, r, hr, hrc⟩
    · exact Or.inl ⟨p, hpg, q, hqg, rfl, rfl, h⟩
    · exact Or.inr ⟨j, hj, r, hr, ⟨p, hpg, j, hopIn j hj, rfl, rfl, hjc⟩,
        ⟨r, hopOut r hr, q, hqg, rfl, rfl, hrc⟩⟩
  · rintro ⟨houter, hinner, h⟩
    have survive : ∀ p ∈ g.outputPorts, p.name = o → ∀ q ∈ g.inputPorts, q.name = i →
        (q.name ∈ p.connections ∨ (∃ j ∈ op.inputs, j.name ∈ p.connections) ∧
          ∃ r ∈ op.outputs, q.name ∈ r.connections) → (g.without id op).Lists o i := by
      intro p hp hpo q hq hqi hlink
      obtain ⟨x, a, ha, hpa⟩ := (mem_outputPorts hg).mp hp
      obtain ⟨y, b, hb, hqb⟩ := (mem_inputPorts hg).mp hq
      have hx : x ≠ id := by
        rintro rfl
        obtain rfl := Option.some.inj (ha.symm.trans hop)
        exact houter p hpa hpo
      have hy : y ≠ id := by
        rintro rfl
        obtain rfl := Option.some.inj (hb.symm.trans hop)
        exact hinner q hqb hqi
      refine ⟨_, (mem_outputPorts_without hg hi hco hop hlen).mpr ⟨x, a, p, hx, ha, hpa, rfl⟩, _,
        (mem_inputPorts_without hg hi hco hop hlen).mpr ⟨y, b, q, hy, hb, hqb, rfl⟩, hpo, hqi, ?_⟩
      rw [← hqi]
      exact (mem_rewire_output hg hi hco hop hlen hy hb hqb).mpr hlink
    rcases h with ⟨p, hp, q, hq, rfl, rfl, hc⟩ | ⟨j, hj, r, hr, hoj, hri⟩
    · exact survive p hp rfl q hq rfl (Or.inl hc)
    · obtain ⟨p, hp, j', _, rfl, _, hpc⟩ := hoj
      obtain ⟨r', hr', q, hq, hrname, rfl, hrc⟩ := hri
      obtain ⟨z, c, hz, hrz⟩ := (mem_outputPorts hg).mp hr'
      obtain ⟨_, rfl⟩ := hco.output_owner hg hz hrz hop hr hrname
      exact survive p hp rfl q hq rfl (Or.inr ⟨⟨j, hj, hpc⟩, r', hr, hrc⟩)

end Coherent

/-- **A removal keeps a graph wired.** -/
theorem Wired.without (hg : g.WellFormed) (hi : g.Indexed) (hw : g.Wired)
    (hop : g.get? id = some op) (hlen : op.outputs.length ≤ 1) : (g.without id op).Wired := by
  have hco := hw.coherent.without hg hi hop hlen
  refine ⟨hco.inputs_nodup, hco.outputs_nodup, ?_, ?_, hco.agrees⟩
  · intro q' hq'
    obtain ⟨y, b, q, _, hb, hq, rfl⟩ :=
      (mem_inputPorts_without hg hi hw.coherent hop hlen).mp hq'
    exact nodup_rewire (hw.reads_nodup q ((mem_inputPorts hg).mpr ⟨y, b, hb, hq⟩))
  · intro p' hp'
    obtain ⟨x, a, p, _, ha, hp, rfl⟩ :=
      (mem_outputPorts_without hg hi hw.coherent hop hlen).mp hp'
    exact nodup_rewire (hw.feeds_nodup p ((mem_outputPorts hg).mpr ⟨x, a, ha, hp⟩))

/-- The operator `op` at `id` can be spliced out: it has at most one port on each side and does not
feed itself. -/
structure Splices (g : Graph) (id : Handle) (op : Operator) : Prop where
  live : g.get? id = some op
  inputs_le : op.inputs.length ≤ 1
  outputs_le : op.outputs.length ≤ 1
  loopless : ¬ g.Feeds id id

end Graph

end StreamTopology
