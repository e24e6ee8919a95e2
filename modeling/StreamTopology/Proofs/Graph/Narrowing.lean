import StreamTopology.Proofs.Graph.Soundness
import StreamTopology.Proofs.Passes.Annotations
import StreamTopology.Proofs.Composite.Plan

/-!
# Graphs that get narrower

The two sides of a stream may disagree: an output port may list an input port that does not list it
back. Then the closed form of a removal that holds on coherent graphs is lost, and with it the exact
streams that are left. One direction survives, and it needs no more than that the name of an input
port tells whose it is: a stream that is left was there before, or led through what is gone.

So along removals and annotations a graph gets narrower. It keeps nothing that was not there, and
what a source reaches afterwards, a source reached before.

## Main definitions

* `Graph.Addressed`: a sound graph in which no two input ports share a name.
* `Graph.Narrows`: a relation between graphs that is parametrised by what operators keep.

## Main results

* `Graph.Addressed.feeds_of_without`: the streams that a removal leaves.
* `narrows_remove`, `narrows_writes`: removals and annotations.
* `Graph.Narrowed.reachable`: what is reached afterwards was reached before.
-/

namespace StreamTopology

open Relation Rewiring

namespace Graph

variable {g g' g'' : Graph} {id x y : Handle} {op a b : Operator} {α : Type} {view : Operator → α}

/-- The graph is sound, and the name of an input port tells whose it is. -/
structure Addressed (g : Graph) : Prop where
  sound : g.Sound
  inputs_nodup : (g.inputPorts.map InputPort.name).Nodup

/-! ### Streams that a removal leaves -/

/-- The output ports that a removal leaves, rewired or not. -/
theorem exists_output_of_without (ha : (g.without id op).get? x = some a) {p : OutputPort}
    (hp : p ∈ a.outputs) :
    ∃ a₀ p₀, g.get? x = some a₀ ∧ p₀ ∈ a₀.outputs ∧ (p.connections = p₀.connections ∨
      p.connections = rewire op.ownsInput (g.readers id op) p₀.connections) := by
  have hx : x ≠ id := by
    rintro rfl
    rw [get?_without_self] at ha
    cases ha
  rw [get?_without hx] at ha
  obtain ⟨a₀, ha₀, rfl⟩ := Option.map_eq_some_iff.mp ha
  -- rewiring the inputs leaves the outputs alone
  have houtputs : (if x ∈ g.children id then rewireInputs (isOutputOf op) (g.feeders id op) a₀
      else a₀).outputs = a₀.outputs := by
    split <;> rfl
  dsimp only at hp
  split at hp
  · obtain ⟨p₀, hp₀, rfl⟩ := List.mem_map.mp hp
    exact ⟨a₀, p₀, ha₀, houtputs ▸ hp₀, Or.inr rfl⟩
  · exact ⟨a₀, p, ha₀, houtputs ▸ hp, Or.inl rfl⟩

/-- The input ports that a removal leaves have the names that they had. -/
theorem exists_input_of_without (hb : (g.without id op).get? y = some b) {q : InputPort}
    (hq : q ∈ b.inputs) :
    y ≠ id ∧ ∃ b₀, g.get? y = some b₀ ∧ ∃ q₀ ∈ b₀.inputs, q₀.name = q.name := by
  have hy : y ≠ id := by
    rintro rfl
    rw [get?_without_self] at hb
    cases hb
  obtain ⟨b₀, hb₀, heq⟩ := exists_of_disconnected (disconnected_without hy) hb
  have hname : q.name ∈ b₀.inputs.map InputPort.name :=
    (portNames_of_disconnected heq).1 ▸ List.mem_map_of_mem hq
  exact ⟨hy, b₀, hb₀, List.mem_map.mp hname⟩

/-- **A stream that a removal leaves** was there before, or led through the operator that is
gone. -/
theorem Addressed.feeds_of_without (hg : g.Addressed) (hop : g.get? id = some op)
    (h : (g.without id op).Feeds x y) : g.Feeds x y ∨ g.Feeds x id ∧ g.Feeds id y := by
  have hwf := hg.sound.wellFormed
  obtain ⟨a, b, ha, hb, hfeeds⟩ := h
  obtain ⟨p, hp, q, hq, hc⟩ := Operator.feeds_iff.mp hfeeds
  obtain ⟨hy, b₀, hb₀, q₀, hq₀, hname⟩ := exists_input_of_without hb hq
  obtain ⟨a₀, p₀, ha₀, hp₀, hconns⟩ := exists_output_of_without ha hp
  have hstays : op.ownsInput q.name = false := by
    rw [Bool.eq_false_iff]
    intro htrue
    obtain ⟨j, hj, hjname⟩ := ownsInput_iff.mp htrue
    exact hy (port_owner hwf hg.inputs_nodup hb₀ hq₀ hop hj (hname.trans hjname.symm)).1
  have hdirect : q.name ∈ p₀.connections → g.Feeds x y := fun hc =>
    ⟨a₀, b₀, ha₀, hb₀, Operator.feeds_iff.mpr ⟨p₀, hp₀, q₀, hq₀, hname ▸ hc⟩⟩
  rcases hconns with heq | heq
  · exact Or.inl (hdirect (heq ▸ hc))
  rw [heq, mem_rewire_of_stays hstays] at hc
  rcases hc with hc | ⟨hinto, hreader⟩
  · exact Or.inl (hdirect hc)
  · obtain ⟨j, hj, hjc⟩ := exists_ownsInput.mp hinto
    refine Or.inr ⟨⟨a₀, op, ha₀, hop, Operator.feeds_iff.mpr ⟨p₀, hp₀, j, hj, hjc⟩⟩, ?_⟩
    -- the readers are input ports of children, and the name tells which child
    simp only [readers, List.mem_flatMap, List.mem_filterMap, mem_inputsListing] at hreader
    obtain ⟨c, ⟨z, hz, hc⟩, q', hq', hname', _⟩ := hreader
    obtain ⟨rfl, _⟩ := port_owner hwf hg.inputs_nodup hb₀ hq₀ hc hq' (hname.trans hname'.symm)
    exact (mem_children hwf hg.sound.indexed).mp hz

theorem Addressed.without (hg : g.Addressed) (hop : g.get? id = some op) :
    (g.without id op).Addressed := by
  refine ⟨hg.sound.without hop, hg.inputs_nodup.sublist (portNames_sublist ?_ fun x hx => ?_)⟩
  · rw [hg.sound.wellFormed.order_without]
    exact List.filter_sublist
  · rw [hg.sound.wellFormed.order_without, List.mem_filter] at hx
    have hne : x ≠ id := by simpa using hx.2
    refine map_eq_of_map_eq (disconnected_without hne) fun a => ?_
    simp [Operator.disconnected, Function.comp_def]

theorem Annotates.addressed (h : g.Annotates g') (hg : g.Addressed) : g'.Addressed := by
  refine ⟨⟨h.wellFormed hg.sound.wellFormed, h.indexed hg.sound.indexed⟩,
    hg.inputs_nodup.sublist (portNames_sublist (h.order ▸ List.Sublist.refl _) fun x _ => ?_)⟩
  refine map_eq_of_map_eq (h.skeleton x) fun op => ?_
  simp [Operator.skeleton, Function.comp_def]

/-! ### Narrower graphs -/

/-- `g'` has operators of `g` only, as they were in a certain view, and every stream of it stands
for a chain of streams of `g`. -/
structure Narrowed (view : Operator → α) (g g' : Graph) : Prop where
  addressed : g'.Addressed
  kept : ∀ x a', g'.get? x = some a' → ∃ a, g.get? x = some a ∧ view a = view a' ∧
    a.name = a'.name ∧ a.inputs.length = a'.inputs.length
  chain : g'.Feeds ≤ ReflTransGen g.Feeds

/-- Starting from an addressed graph, `g'` is narrower than `g`. -/
def Narrows (view : Operator → α) (g g' : Graph) : Prop := g.Addressed → Narrowed view g g'

theorem Narrowed.refl (hg : g.Addressed) : Narrowed view g g :=
  ⟨hg, fun _ a ha => ⟨a, ha, rfl, rfl, rfl⟩, fun _ _ h => .single h⟩

theorem Narrowed.trans (h : Narrowed view g g') (h' : Narrowed view g' g'') :
    Narrowed view g g'' := by
  refine ⟨h'.addressed, fun x a'' ha'' => ?_, fun x y hxy => ?_⟩
  · obtain ⟨a', ha', hview', hname', hinputs'⟩ := h'.kept x a'' ha''
    obtain ⟨a, ha, hview, hname, hinputs⟩ := h.kept x a' ha'
    exact ⟨a, ha, hview.trans hview', hname.trans hname', hinputs.trans hinputs'⟩
  · exact reflTransGen_closed h.chain x y (h'.chain x y hxy)

instance : Std.Refl (Narrows view) := ⟨fun _ hg => .refl hg⟩

instance : IsTrans Graph (Narrows view) :=
  ⟨fun _ _ _ h h' hg => (h hg).trans (h' (h hg).addressed)⟩

/-- The sources of the narrower graph were sources before. -/
theorem Narrowed.sources_subset (h : Narrowed view g g') (hg : g.WellFormed) :
    g'.sources ⊆ g.sources := by
  intro s hs
  obtain ⟨a', ha', hsource⟩ := (mem_findAll h.addressed.sound.wellFormed).mp hs
  obtain ⟨a, ha, _, hname, hinputs⟩ := h.kept s a' ha'
  have hempty : a.inputs.isEmpty = a'.inputs.isEmpty := by
    rw [Bool.eq_iff_iff, List.isEmpty_iff_length_eq_zero, List.isEmpty_iff_length_eq_zero, hinputs]
  refine (mem_findAll hg).mpr ⟨a, ha, ?_⟩
  rwa [hname, hempty]

/-- **What a source reaches in the narrower graph**, a source reached before. -/
theorem Narrowed.reachable (h : Narrowed view g g') (hg : g.WellFormed) (hx : g'.Reachable x) :
    g.Reachable x := by
  obtain ⟨s, hs, hsx⟩ := hx
  exact ⟨s, h.sources_subset hg hs, reflTransGen_closed h.chain s x hsx⟩

end Graph

/-! ### Steps that narrow -/

open StreamTopology.Graph

variable {α : Type} {view : Operator → α} {f : Operator → Operator}

/-- Annotating leaves the streams, and keeps what the view shows. -/
theorem narrows_writes (hskeleton : ∀ op, (f op).skeleton = op.skeleton)
    (hname : ∀ op, (f op).name = op.name) (hview : ∀ op, view (f op) = view op) :
    Writes (Narrows view) f := by
  intro g x op hop hg
  have h : g.Annotates (g.set x (f op)) := annotates_set hop (hskeleton op)
  refine ⟨h.addressed hg, fun y a' ha' => ?_, fun y z hyz => .single (h.feeds.mp hyz)⟩
  have hlength : (f op).inputs.length = op.inputs.length := by
    have hports := congrArg (fun a : Operator => a.inputs.length) (hskeleton op)
    simpa [Operator.skeleton] using hports
  rw [get?_set (contains_iff.mpr ⟨op, hop⟩)] at ha'
  split at ha'
  · obtain rfl := Option.some.inj ha'
    subst y
    exact ⟨op, hop, (hview op).symm, (hname op).symm, hlength.symm⟩
  · exact ⟨a', ha', rfl, rfl, rfl⟩

/-- **Removals narrow**, if connections do not matter for the view. -/
theorem narrows_remove (hview : ∀ op, view op.disconnected = view op) (x : Handle) :
    Confined (Narrows view) (Rewiring.remove x) := by
  intro g u g' hrun hg
  obtain ⟨op, hop, _, rfl⟩ := (yields_remove hg.sound.wellFormed).mp hrun
  refine ⟨hg.without hop, fun y a' ha' => ?_, fun y z hyz => ?_⟩
  · have hy : y ≠ x := by
      rintro rfl
      rw [get?_without_self] at ha'
      cases ha'
    obtain ⟨a, ha, heq⟩ := exists_of_disconnected (disconnected_without hy) ha'
    have hname : a.disconnected.name = a'.disconnected.name := congrArg Operator.name heq
    refine ⟨a, ha, ?_, hname, ?_⟩
    · rw [← hview a, heq, hview a']
    · have hports := congrArg List.length (portNames_of_disconnected heq).1
      rwa [List.length_map, List.length_map] at hports
  · rcases hg.feeds_of_without hop hyz with hdirect | ⟨hinto, hout⟩
    · exact .single hdirect
    · exact .tail (.single hinto) hout

end StreamTopology
