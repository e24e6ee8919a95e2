import StreamTopology.Proofs.Composite.Separation

/-!
# What a separation renames

While the composites are filled, the graph they are made of keeps its operators, its ports and, by
the index, its streams. What changes is names, and of those only two kinds: what the first operators
of a region read becomes `parallelInput` when the region is opened, and a port that feeds the end of
a region becomes `parallelOutput` when the region is left.

`Separation.Tracks` says how far that has come when the regions of some markers have been opened. An
invocation is a copy of two markers, made while this goes on: of the start of its region when the
region is opened, and of the end when it is left. So `Separation.Stands` has to say under which
names the copy reads and is read, and for that it is enough that the marker of the region around it
has been opened before, which is what the stack of a well-bracketed graph is for.

## Main definitions

* `Graph.entered`: the name under which an operator reads a stream.
* `Graph.Keeps`: an output port has its name, or it feeds the end of a region.
* `Separation.Tracks`: the graph, so far.
* `Separation.Named`: the members of a composite, with their names.

## Main results

* `Separation.fill_named`: filling a plan keeps track of the graph and names all members.
-/

namespace StreamTopology

/-- The port with other names for the streams that it reads. -/
def InputPort.reading (f : String → String) (q : InputPort) : InputPort :=
  { q with connections := q.connections.map f }

theorem InputPort.reading_comp {f f' : String → String} :
    (InputPort.reading f' ∘ InputPort.reading f) = InputPort.reading (f' ∘ f) := by
  funext q
  simp [InputPort.reading]

theorem InputPort.reading_id : InputPort.reading id = id := by
  funext q
  simp [InputPort.reading]

theorem exists_of_forall₂_left {α β : Type} {R : α → β → Prop} {xs : List α} {ys : List β} {x : α}
    (h : List.Forall₂ R xs ys) (hx : x ∈ xs) : ∃ y ∈ ys, R x y := by
  induction h with
  | nil => cases hx
  | cons hxy _ ih =>
    rcases List.mem_cons.mp hx with rfl | hx
    · exact ⟨_, List.mem_cons_self, hxy⟩
    · obtain ⟨y, hy, hxy⟩ := ih hx
      exact ⟨y, List.mem_cons_of_mem _ hy, hxy⟩

namespace Graph

variable {g h : Graph} {opened : List Handle} {x y p e : Handle} {a b : Operator}
  {r r' r'' : OutputPort} {c : String}

/-- The stream that the inside of a region reads: that of the first output port of its marker. -/
def inlet? (g : Graph) (p : Handle) : Option String :=
  (g.get? p).bind fun a => a.outputs.head?.map OutputPort.name

/-- The name under which an operator reads a stream, once the regions of some markers have been
opened. -/
def entered (g : Graph) (opened : List Handle) (x : Handle) (c : String) : String :=
  if ∃ q ∈ opened, x ∈ g.children q ∧ g.inlet? q = some c then Composite.parallelInput else c

/-- The name is that of an input port of an end of a region. -/
def EndInput (g : Graph) (c : String) : Prop :=
  ∃ e b, g.get? e = some b ∧ g.marker? e = some .endParallel ∧ ∃ q ∈ b.inputs, q.name = c

/-- The output port feeds the end of a region. -/
def FeedsEnd (g : Graph) (r : OutputPort) : Prop := ∃ c ∈ r.connections, g.EndInput c

/-- The second port is the first one, under the same name unless it feeds the end of a region. -/
def Keeps (g : Graph) (r r' : OutputPort) : Prop :=
  r'.connections = r.connections ∧ (g.FeedsEnd r ∨ r'.name = r.name)

theorem FeedsEnd.congr (h : r'.connections = r.connections) : g.FeedsEnd r' ↔ g.FeedsEnd r := by
  rw [FeedsEnd, FeedsEnd, h]

theorem Keeps.refl (g : Graph) (r : OutputPort) : g.Keeps r r := ⟨rfl, Or.inr rfl⟩

theorem Keeps.trans (h : g.Keeps r r') (h' : g.Keeps r' r'') : g.Keeps r r'' := by
  refine ⟨h'.1.trans h.1, ?_⟩
  rcases h.2 with hend | hname
  · exact Or.inl hend
  · rcases h'.2 with hend | hname'
    · exact Or.inl ((FeedsEnd.congr h.1).mp hend)
    · exact Or.inr (hname'.trans hname)

theorem keeps_all_refl (g : Graph) (rs : List OutputPort) : List.Forall₂ g.Keeps rs rs :=
  List.forall₂_same.mpr fun r _ => Keeps.refl g r

theorem keeps_all_trans {rs rs' rs'' : List OutputPort} (h : List.Forall₂ g.Keeps rs rs')
    (h' : List.Forall₂ g.Keeps rs' rs'') : List.Forall₂ g.Keeps rs rs'' :=
  forall₂_trans (fun _ _ _ => Keeps.trans) h h'

theorem entered_nil : g.entered [] x = id := by
  funext c
  rw [entered, if_neg (by simp), id]

/-- Opening one more region renames one more stream of those that its first operators read. -/
theorem entered_cons (hx : x ∈ g.children p) (hp : g.inlet? p = some c) :
    g.entered (p :: opened) x =
      (fun d => if d = c then Composite.parallelInput else d) ∘ g.entered opened x := by
  funext d
  have hcons : (∃ q ∈ p :: opened, x ∈ g.children q ∧ g.inlet? q = some d) ↔
      c = d ∨ ∃ q ∈ opened, x ∈ g.children q ∧ g.inlet? q = some d := by
    rw [List.exists_mem_cons_iff, hp, Option.some.injEq, and_iff_right hx]
  rw [Function.comp_apply, entered, entered]
  by_cases hd : ∃ q ∈ opened, x ∈ g.children q ∧ g.inlet? q = some d
  · rw [if_pos (hcons.mpr (Or.inr hd)), if_pos hd, ite_self]
  · rw [if_neg hd]
    by_cases hcd : d = c
    · rw [if_pos (hcons.mpr (Or.inl hcd.symm)), if_pos hcd]
    · rw [if_neg fun h => (hcons.mp h).elim (fun h => hcd h.symm) hd, if_neg hcd]

theorem entered_of_not_child (hx : x ∉ g.children p) :
    g.entered (p :: opened) x = g.entered opened x := by
  funext d
  have hcons : (∃ q ∈ p :: opened, x ∈ g.children q ∧ g.inlet? q = some d) ↔
      ∃ q ∈ opened, x ∈ g.children q ∧ g.inlet? q = some d := by
    rw [List.exists_mem_cons_iff]
    exact or_iff_right fun h => hx h.1
  rw [entered, entered, if_congr hcons rfl rfl]

end Graph

namespace Separation

open StreamTopology.Graph

variable {g : Graph} {nest : Handle → List Handle} {opened σ : List Handle} {s s' : Separation}
  {p x e : Handle} {a b op inv : Operator} {k number : Nat} {values : SubmissionValues} {P : Plan}
  {ms ms' : List Member} {exit : Option Handle} {f : Operator → Operator} {ids : List Handle}
  {name : String} {rs rs' : List OutputPort}

/-! ### The graph so far -/

/-- The operator at a handle as it has become: it reads what it has read, some of it under another
name, and its output ports are those that it had. -/
def Follows (g : Graph) (opened : List Handle) (x : Handle) (a b : Operator) : Prop :=
  b.inputs = a.inputs.map (InputPort.reading (g.entered opened x)) ∧
    List.Forall₂ g.Keeps a.outputs b.outputs

/-- What has become of the graph when the regions of some markers have been opened. -/
structure Tracks (g : Graph) (opened : List Handle) (h : Graph) : Prop where
  order : h.order = g.order
  links : h.links = g.links
  markers : ∀ q ∈ opened, g.marker? q = some .parallel
  operators : ∀ x, Option.Rel (Follows g opened x) (g.get? x) (h.get? x)

section

variable {h : Graph}

theorem Tracks.get? (ht : Tracks g opened h) (ha : g.get? x = some a) :
    ∃ b, h.get? x = some b ∧ Follows g opened x a b := by
  have hrel := ht.operators x
  rw [ha] at hrel
  generalize h.get? x = slot at hrel
  cases hrel with
  | some hfollows => exact ⟨_, rfl, hfollows⟩

theorem Tracks.of_get? (ht : Tracks g opened h) (hb : h.get? x = some b) :
    ∃ a, g.get? x = some a ∧ Follows g opened x a b := by
  have hrel := ht.operators x
  rw [hb] at hrel
  generalize g.get? x = slot at hrel
  cases hrel with
  | some hfollows => exact ⟨_, rfl, hfollows⟩

theorem Tracks.children (ht : Tracks g opened h) : h.children = g.children := by
  funext x
  rw [Graph.children, Graph.children, ht.order, ht.links]

theorem Tracks.parents (ht : Tracks g opened h) : h.parents = g.parents := by
  funext x
  rw [Graph.parents, Graph.parents, ht.order, ht.links]

theorem Tracks.refl (g : Graph) : Tracks g [] g := by
  refine ⟨rfl, rfl, fun _ hq => (List.not_mem_nil hq).elim, fun x => ?_⟩
  rcases g.get? x with _ | a
  · exact .none
  · refine .some ⟨?_, keeps_all_refl g a.outputs⟩
    rw [entered_nil, InputPort.reading_id, List.map_id]

/-- A step that changes some operators keeps track of the graph if each change does. -/
theorem Tracks.mapAt {opened' : List Handle} (ht : Tracks g opened h)
    (hmarkers : ∀ q ∈ opened', g.marker? q = some .parallel)
    (hin : ∀ x ∈ ids, ∀ a b, g.get? x = some a → Follows g opened x a b →
      Follows g opened' x a (f b))
    (hout : ∀ x ∉ ids, ∀ a b, g.get? x = some a → Follows g opened x a b →
      Follows g opened' x a b) : Tracks g opened' (h.mapAt ids f) := by
  refine ⟨ht.order, ht.links, hmarkers, fun x => ?_⟩
  have hrel := ht.operators x
  rw [get?_mapAt]
  rcases ha : g.get? x with _ | a
  · rw [ha] at hrel
    generalize h.get? x = slot at hrel ⊢
    cases hrel
    split <;> exact .none
  · obtain ⟨b, hb, hfollows⟩ := ht.get? ha
    rw [hb]
    split
    next hx => exact .some (hin x hx a b ha hfollows)
    next hx => exact .some (hout x hx a b ha hfollows)

end

/-! ### Opening a region -/

/-- A marker of a region keeps the name of the stream that it passes on: it feeds no end. -/
theorem inlet_of_follows (hplain : ∀ r ∈ a.outputs, ¬ g.FeedsEnd r) (ha : g.get? p = some a)
    (hfollows : Follows g opened p a b) {r : OutputPort} (hr : b.outputs.head? = some r) :
    g.inlet? p = some r.name := by
  obtain ⟨_, houtputs⟩ := hfollows
  rw [inlet?, ha, Option.bind_some]
  rcases hout : a.outputs with _ | ⟨r₀, rest⟩
  · rw [hout, List.forall₂_nil_left_iff] at houtputs
    rw [houtputs] at hr
    cases hr
  · rw [hout, List.forall₂_cons_left_iff] at houtputs
    obtain ⟨r', rest', hkeeps, _, hb⟩ := houtputs
    rw [hb] at hr
    obtain rfl := Option.some.inj hr
    have hname := hkeeps.2.resolve_left (hplain r₀ (hout ▸ List.mem_cons_self))
    rw [List.head?_cons, Option.map_some, hname]

theorem openRegion_tracks (hg : g.WellFormed) (ht : Tracks g opened s.graph)
    (hkind : g.marker? p = some .parallel)
    (hplain : ∀ a, g.get? p = some a → ∀ r ∈ a.outputs, ¬ g.FeedsEnd r)
    (h : Yields (openRegion p) s (number, op) s') :
    Tracks g (p :: opened) s'.graph ∧ s'.composites = s.composites ∧
      ∃ a, g.get? p = some a ∧
        op.inputs = a.inputs.map (InputPort.reading (g.entered opened p)) := by
  obtain ⟨marker, output, g', hmarker, hout, rfl, rfl, hupdates, rfl⟩ := yields_openRegion h
  obtain ⟨a, ha, hfollows⟩ := ht.of_get? hmarker
  have hinlet := inlet_of_follows (hplain a ha) ha hfollows hout
  rw [ht.children, yields_forM_update (children_nodup hg)] at hupdates
  refine ⟨?_, rfl, a, ha, hfollows.1⟩
  rw [hupdates.2]
  refine ht.mapAt (List.forall_mem_cons.mpr ⟨hkind, ht.markers⟩)
    (fun x hx a b _ hb => ⟨?_, hb.2⟩) fun x hx a b _ hb => ⟨?_, hb.2⟩
  · rw [entered_cons hx hinlet, ← InputPort.reading_comp, ← List.map_map, ← hb.1]
    rfl
  · rw [entered_of_not_child hx, hb.1]

/-! ### Ending a region -/

theorem keeps_nameRegionOutput (hname : g.EndInput name) (rs : List OutputPort) :
    List.Forall₂ g.Keeps rs (nameRegionOutput name rs) := by
  rw [nameRegionOutput, List.forall₂_map_right_iff, List.forall₂_same]
  intro r _
  split
  next hr => exact ⟨rfl, Or.inl ⟨name, List.contains_iff_mem.mp hr, hname⟩⟩
  next => exact Keeps.refl g r

/-- Ports that differ in their schemas alone keep their names. -/
theorem keeps_of_schemaless {rs rs' : List OutputPort}
    (h : rs'.map OutputPort.schemaless = rs.map OutputPort.schemaless) :
    List.Forall₂ g.Keeps rs rs' := by
  rw [eq_comm, ← List.forall₂_eq_eq_eq, List.forall₂_map_left_iff, List.forall₂_map_right_iff] at h
  refine h.imp fun r r' hr => ⟨?_, Or.inr ?_⟩
  · exact (congrArg OutputPort.connections hr).symm
  · exact (congrArg OutputPort.name hr).symm

/-- The invocation as it has become: it reads what it has read, and its output ports are those that
it had. -/
def Renames (g : Graph) (op op' : Operator) : Prop :=
  op'.inputs = op.inputs ∧ List.Forall₂ g.Keeps op.outputs op'.outputs

theorem Renames.refl (g : Graph) (op : Operator) : Renames g op op := ⟨rfl, keeps_all_refl g _⟩

theorem Renames.trans {op' op'' : Operator} (h : Renames g op op') (h' : Renames g op' op'') :
    Renames g op op'' :=
  ⟨h'.1.trans h.1, keeps_all_trans h.2 h'.2⟩

/-- The member as it has become. -/
inductive Becomes (g : Graph) : Member → Member → Prop where
  | node (x : Handle) : Becomes g (.node x) (.node x)
  | invocation {op op' : Operator} (k : Nat) (h : Renames g op op') :
      Becomes g (.invocation op k) (.invocation op' k)

theorem becomes_refl (g : Graph) (m : Member) : Becomes g m m := by
  cases m with
  | node x => exact .node x
  | invocation op k => exact .invocation k (.refl g op)

theorem becomes_all_refl (g : Graph) (ms : List Member) : List.Forall₂ (Becomes g) ms ms :=
  List.forall₂_same.mpr fun m _ => becomes_refl g m

theorem Becomes.trans {m m' m'' : Member} (h : Becomes g m m') (h' : Becomes g m' m'') :
    Becomes g m m'' := by
  cases h with
  | node x => exact h'
  | invocation k h =>
    cases h' with
    | invocation _ h' => exact .invocation k (h.trans h')

theorem becomes_renameMemberOutput (hname : g.EndInput name) (ms : List Member) :
    List.Forall₂ (Becomes g) ms (ms.map (renameMemberOutput name)) := by
  rw [List.forall₂_map_right_iff, List.forall₂_same]
  intro m _
  cases m with
  | node x => exact .node x
  | invocation op k => exact .invocation k ⟨rfl, keeps_nameRegionOutput hname op.outputs⟩

theorem becomes_left {endInput : Option String}
    (hend : ∀ name, endInput = some name → g.EndInput name) (c : Composite) :
    List.Forall₂ (Becomes g) c.members (left endInput c).members := by
  cases endInput with
  | none => exact becomes_all_refl g c.members
  | some name => exact becomes_renameMemberOutput (hend name rfl) c.members

/-- The composite at a position has been edited: it is read as before, and its members are those
that it had. -/
def EditedAt (g : Graph) (k : Nat) (inputName : Option String → Option String)
    (cs cs' : List Composite) : Prop :=
  ∃ change : Composite → Composite, cs' = cs.modify k change ∧ ∀ c,
    (change c).inputName = inputName c.inputName ∧
      List.Forall₂ (Becomes g) c.members (change c).members

theorem EditedAt.trans {i j : Option String → Option String} {cs cs' cs'' : List Composite}
    (h : EditedAt g k i cs cs') (h' : EditedAt g k j cs' cs'') :
    EditedAt g k (j ∘ i) cs cs'' := by
  obtain ⟨f, rfl, hf⟩ := h
  obtain ⟨f', rfl, hf'⟩ := h'
  refine ⟨f' ∘ f, List.modify_modify_eq .., fun c => ⟨?_, ?_⟩⟩
  · exact (hf' (f c)).1.trans (congrArg j (hf c).1)
  · exact forall₂_trans (fun _ _ _ => Becomes.trans) (hf c).2 (hf' (f c)).2

/-- Leaving a region renames ports that feed its end, in the graph and in its composite, and hands
the output ports of the end to the invocation. -/
theorem leaveRegion_tracks (hg : g.WellFormed) (ht : Tracks g opened s.graph)
    (hkind : g.marker? e = some .endParallel) (h : Yields (leaveRegion k e inv) s op s') :
    Tracks g opened s'.graph ∧ op.inputs = inv.inputs ∧
      (∃ a, g.get? e = some a ∧ List.Forall₂ g.Keeps a.outputs op.outputs) ∧
      EditedAt g k id s.composites s'.composites := by
  obtain ⟨b, rs, g', hb, hrs, rfl, hupdates, rfl⟩ := yields_leaveRegion h
  obtain ⟨a, ha, hfollows⟩ := ht.of_get? hb
  have hend : ∀ name, b.inputs.head?.map InputPort.name = some name → g.EndInput name := by
    intro name hname
    obtain ⟨q, hq, rfl⟩ := Option.map_eq_some_iff.mp hname
    have hmem := List.mem_of_head? hq
    rw [hfollows.1, List.mem_map] at hmem
    obtain ⟨q₀, hq₀, rfl⟩ := hmem
    exact ⟨e, a, ha, hkind, q₀, hq₀, rfl⟩
  refine ⟨?_, rfl, ⟨a, ha, keeps_all_trans hfollows.2 (keeps_of_schemaless hrs)⟩,
    _, rfl, fun c => ⟨rfl, becomes_left hend c⟩⟩
  rcases hname : b.inputs.head?.map InputPort.name with _ | name
  · rw [hname] at hupdates
    obtain ⟨_, hgraph⟩ := yields_pure.mp hupdates
    rwa [hgraph]
  · rw [hname, ht.parents, renameProducers, Option.elim_some,
      yields_forM_update (parents_nodup hg)] at hupdates
    rw [hupdates.2]
    refine ht.mapAt ht.markers (fun x _ a b _ hb => ⟨hb.1, ?_⟩) fun x _ a b _ hb => hb
    exact keeps_all_trans hb.2 (keeps_nameRegionOutput (hend name hname) b.outputs)

theorem closeRegion_tracks (hg : g.WellFormed) (ht : Tracks g opened s.graph)
    (hkind : ∀ e ∈ exit, g.marker? e = some .endParallel)
    (h : Yields (closeRegion k exit inv) s op s') :
    Tracks g opened s'.graph ∧ op.inputs = inv.inputs ∧
      (∀ e ∈ exit, ∃ a, g.get? e = some a ∧ List.Forall₂ g.Keeps a.outputs op.outputs) ∧
      EditedAt g k (fun _ => some Composite.parallelInput) s.composites s'.composites := by
  rw [closeRegion, yields_bind] at h
  obtain ⟨_, s₁, hin, h⟩ := h
  rw [yields_get_bind] at h
  have hs₁ := yields_modify.mp hin
  have hedited : EditedAt g k (fun _ => some Composite.parallelInput) s.composites
      s₁.composites := by
    rw [hs₁]
    exact ⟨_, rfl, fun c => ⟨rfl, becomes_all_refl g c.members⟩⟩
  rw [show s.graph = s₁.graph by rw [hs₁]] at ht
  rcases exit with _ | e
  · obtain ⟨rfl, rfl⟩ := yields_pure.mp h
    exact ⟨ht, rfl, fun _ he => absurd he (Option.not_mem_none _), hedited⟩
  · obtain ⟨ht', hinputs, houtputs, hleave⟩ := leaveRegion_tracks hg ht (hkind e rfl) h
    refine ⟨ht', hinputs, fun _ he => ?_, hedited.trans hleave⟩
    obtain rfl := Option.some.inj he
    exact houtputs

/-- The composite finished last, edited. -/
theorem EditedAt.snoc {i : Option String → Option String} {cs cs' : List Composite} {c : Composite}
    (h : EditedAt g cs.length i (cs ++ [c]) cs') :
    ∃ c', cs' = cs ++ [c'] ∧ c'.inputName = i c.inputName ∧
      List.Forall₂ (Becomes g) c.members c'.members := by
  obtain ⟨change, rfl, hchange⟩ := h
  exact ⟨change c, modify_snoc, (hchange c).1, (hchange c).2⟩

/-! ### Filling a plan -/

/-- The invocation stands for the region of a marker: it reads what the marker reads, by the names
that hold where all markers around it have been opened, and its output ports are those of the
end. -/
def Stands (g : Graph) (p : Handle) (exit : Option Handle) (op : Operator) : Prop :=
  (∃ a opened, g.get? p = some a ∧
    (∀ q, p ∈ g.children q → (q ∈ opened ↔ g.marker? q = some .parallel)) ∧
    op.inputs = a.inputs.map (InputPort.reading (g.entered opened p))) ∧
  ∀ e ∈ exit, ∃ a, g.get? e = some a ∧ List.Forall₂ g.Keeps a.outputs op.outputs

/-- The members of a composite are those of its plan, one by one, and its invocations stand for
their regions. -/
def Named (g : Graph) : Plan → List Member → Prop
  | .done _, ms => ms = []
  | .node x rest, ms => ∃ ms', ms = .node x :: ms' ∧ Named g rest ms'
  | .region p inside rest, ms =>
    ∃ op k ms', ms = .invocation op k :: ms' ∧ Stands g p inside.exit? op ∧ Named g rest ms'

theorem Stands.of_renames {op' : Operator} (h : Stands g p exit op) (hop : Renames g op op') :
    Stands g p exit op' := by
  obtain ⟨⟨a, opened, ha, hopened, hin⟩, hout⟩ := h
  refine ⟨⟨a, opened, ha, hopened, hop.1.trans hin⟩, fun e he => ?_⟩
  obtain ⟨b, hb, houtputs⟩ := hout e he
  exact ⟨b, hb, keeps_all_trans houtputs hop.2⟩

/-- Editing a composite keeps its members named. -/
theorem Named.of_becomes (h : Named g P ms) (hms : List.Forall₂ (Becomes g) ms ms') :
    Named g P ms' := by
  induction P generalizing ms ms' with
  | done exit =>
    rw [Named] at h ⊢
    rwa [h, List.forall₂_nil_left_iff] at hms
  | node x rest ih =>
    obtain ⟨ms, rfl, h⟩ := h
    obtain ⟨m', ms', hm, hrest, rfl⟩ := List.forall₂_cons_left_iff.mp hms
    cases hm with
    | node _ => exact ⟨ms', rfl, ih h hrest⟩
  | region p inside rest _ ih =>
    obtain ⟨op, k, ms, rfl, hop, h⟩ := h
    obtain ⟨m', ms', hm, hrest, rfl⟩ := List.forall₂_cons_left_iff.mp hms
    cases hm with
    | invocation _ hop' => exact ⟨_, k, ms', rfl, hop.of_renames hop', ih h hrest⟩

theorem Named.node_mem (h : Named g P ms) (hx : x ∈ P.nodes) : .node x ∈ ms := by
  induction P generalizing ms with
  | done exit => cases hx
  | node y rest ih =>
    obtain ⟨ms, rfl, h⟩ := h
    rcases List.mem_cons.mp hx with rfl | hx
    · exact List.mem_cons_self
    · exact List.mem_cons_of_mem _ (ih h hx)
  | region p inside rest _ ih =>
    obtain ⟨op, k, ms, rfl, _, h⟩ := h
    exact List.mem_cons_of_mem _ (ih h hx)

theorem Named.invocation_mem {I : Plan} (h : Named g P ms) (hp : (p, I) ∈ P.regions) :
    ∃ op k, .invocation op k ∈ ms ∧ Stands g p I.exit? op := by
  induction P generalizing ms with
  | done exit => cases hp
  | node y rest ih =>
    obtain ⟨ms, rfl, h⟩ := h
    obtain ⟨op, k, hm, hop⟩ := ih h hp
    exact ⟨op, k, List.mem_cons_of_mem _ hm, hop⟩
  | region q inside rest _ ih =>
    obtain ⟨op, k, ms, rfl, hop, h⟩ := h
    rcases List.mem_cons.mp hp with hp | hp
    · obtain ⟨rfl, rfl⟩ := Prod.mk.inj hp
      exact ⟨op, k, List.mem_cons_self, hop⟩
    · obtain ⟨op', k', hm, hop'⟩ := ih h hp
      exact ⟨op', k', List.mem_cons_of_mem _ hm, hop'⟩

theorem Named.mem_cases {m : Member} (h : Named g P ms) (hm : m ∈ ms) :
    (∃ x ∈ P.nodes, m = .node x) ∨
      ∃ p I op k, (p, I) ∈ P.regions ∧ m = .invocation op k ∧ Stands g p I.exit? op := by
  induction P generalizing ms with
  | done exit =>
    rw [Named] at h
    rw [h] at hm
    cases hm
  | node x rest ih =>
    obtain ⟨ms, rfl, h⟩ := h
    rcases List.mem_cons.mp hm with rfl | hm
    · exact Or.inl ⟨x, List.mem_cons_self, rfl⟩
    · rcases ih h hm with ⟨y, hy, rfl⟩ | hregion
      · exact Or.inl ⟨y, List.mem_cons_of_mem _ hy, rfl⟩
      · exact Or.inr hregion
  | region p inside rest _ ih =>
    obtain ⟨op, k, ms, rfl, hop, h⟩ := h
    rcases List.mem_cons.mp hm with rfl | hm
    · exact Or.inr ⟨p, inside, op, k, List.mem_cons_self, rfl, hop⟩
    · rcases ih h hm with hnode | ⟨q, I, op', k', hq, rfl, hop'⟩
      · exact Or.inl hnode
      · exact Or.inr ⟨q, I, op', k', List.mem_cons_of_mem _ hq, rfl, hop'⟩

/-- **Filling a plan, the names.** All regions of the plan have been opened in the end, and every
composite that is finished on the way is named and is read through `parallelInput`. -/
theorem fill_named (hg : g.WellFormed) (hi : g.Indexed) (hn : g.Nesting nest)
    (hstart : ∀ p a, g.marker? p = some .parallel → g.get? p = some a →
      ∀ r ∈ a.outputs, ¬ g.FeedsEnd r)
    (h : Yields (fill values P) s ms s') (hplaced : g.Placed nest σ P)
    (ht : Tracks g opened s.graph) (hσ : ∀ q ∈ σ.head?, q ∈ opened) :
    ∃ opened', opened ⊆ opened' ∧ (∀ p I, (p, I) ∈ P.inner → p ∈ opened') ∧
      Tracks g opened' s'.graph ∧ Named g P ms ∧ ∃ new, s'.composites = s.composites ++ new ∧
      List.Forall₂ (fun r c => Named g r.2 c.members ∧
        c.inputName = some Composite.parallelInput) P.inner new := by
  induction P generalizing s s' ms σ opened with
  | done exit =>
    obtain ⟨rfl, rfl⟩ := yields_pure.mp h
    exact ⟨opened, List.Subset.refl _, fun _ _ hp => (List.not_mem_nil hp).elim, ht, rfl, [],
      (List.append_nil _).symm, .nil⟩
  | node x rest ih =>
    simp only [fill, yields_bind, yields_pure] at h
    obtain ⟨ms', t, hrest, rfl, rfl⟩ := h
    obtain ⟨opened', hsub, hall, ht', hnamed, hnew⟩ := ih hrest hplaced.2 ht hσ
    exact ⟨opened', hsub, hall, ht', ⟨ms', rfl, hnamed⟩, hnew⟩
  | region p inside rest ihInside ihRest =>
    obtain ⟨⟨hkind, hnest, _⟩, hplacedInside, hplacedRest⟩ := hplaced
    simp only [fill, yields_bind, yields_pure] at h
    obtain ⟨⟨number, inv⟩, t₁, hopen, members, t₂, hinside, k, t₃, hfinish, op, t₄, hclose, others,
      t₅, hrest, rfl, rfl⟩ := h
    obtain ⟨ht₁, hcomp₁, a, ha, hinputs⟩ :=
      openRegion_tracks hg ht hkind (fun a ha => hstart p a hkind ha) hopen
    obtain ⟨opened₂, hsub₂, hall₂, ht₂, hmembers, new₁, hcomp₂, hnew₁⟩ :=
      ihInside hinside hplacedInside ht₁ fun q hq => by
        obtain rfl := Option.some.inj hq
        exact List.mem_cons_self
    obtain ⟨rfl, hgraph₃, ps, hcomp₃⟩ := finish_appends hfinish
    obtain ⟨ht₄, hop, houtputs, hedited⟩ :=
      closeRegion_tracks hg (hgraph₃ ▸ ht₂) (fun e he => (hplacedInside.of_exit he).1) hclose
    rw [hcomp₃] at hedited
    obtain ⟨c, hcomp₄, hinput, hbecomes⟩ := hedited.snoc
    have hsub : opened ⊆ opened₂ := fun q hq => hsub₂ (List.mem_cons_of_mem _ hq)
    obtain ⟨opened₅, hsub₅, hall₅, ht₅, hothers, new₂, hcomp₅, hnew₂⟩ :=
      ihRest hrest hplacedRest ht₄ fun q hq => hsub (hσ q hq)
    -- a start that feeds the marker is the innermost one on its stack
    have hstands : Stands g p inside.exit? op := by
      refine ⟨⟨a, opened, ha, fun q hp => ⟨ht.markers q, fun hq => hσ q ?_⟩, hop.trans hinputs⟩,
        houtputs⟩
      rw [← hnest, hn.opens q p hq ((mem_children hg hi).mp hp)]
      rfl
    refine ⟨opened₅, fun q hq => hsub₅ (hsub hq), fun q J hq => ?_, ht₅,
      ⟨op, _, others, rfl, hstands, hothers⟩, new₁ ++ c :: new₂, ?_, ?_⟩
    · rcases List.mem_append.mp hq with hq | hq
      · exact hsub₅ (hall₂ q J hq)
      · rcases List.mem_cons.mp hq with hq | hq
        · obtain ⟨rfl, _⟩ := Prod.mk.inj hq
          exact hsub₅ (hsub₂ List.mem_cons_self)
        · exact hall₅ q J hq
    · rw [hcomp₅, hcomp₄, hcomp₂, hcomp₁]
      simp
    · exact List.rel_append hnew₁ (.cons ⟨hmembers.of_becomes hbecomes, hinput⟩ hnew₂)

end Separation

end StreamTopology
