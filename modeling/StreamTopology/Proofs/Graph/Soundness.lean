import StreamTopology.Proofs.Endings
import StreamTopology.Proofs.Graph.Insertion
import StreamTopology.Proofs.Graph.Rewiring

/-!
# Graphs stay sound

A graph is *sound* if it is well formed and its index is up to date. Nothing is asked of the ports:
they may list names that nobody has, names that somebody has twice, or streams that the other side
does not know.

The graph of a description is sound, and every operation leaves a sound graph behind, also when it
fails in the middle, because it looks up what it needs before it changes anything, or rebuilds the
index after each part. What makes an operation fail is a handle that is not live, and beyond that
nothing but the topology itself.

## Main definitions

* `Graph.Sound`
* `Graph.Live`: nothing is looked up in vain.
* `Graph.Retains`: a graph with its operators at the same handles.

## Main results

* `remove_ends`, `removeAll_ends`, `interpose_ends`, `interposeAbove_ends`: how the operations that
  rewire a graph end.
-/

namespace StreamTopology

namespace Graph

variable {g t t' : Graph} {id x anchor : Handle} {op : Operator}

/-! ### Sound graphs -/

/-- The graph is well formed, and its index says what its ports say. -/
structure Sound (g : Graph) : Prop where
  wellFormed : g.WellFormed
  indexed : g.Indexed

/-- **The graph of a description is sound.** -/
theorem Sound.ofDescription {d : Description} (h : Graph.ofDescription d = .ok g) : g.Sound :=
  ⟨.ofDescription h, .ofDescription h⟩

theorem Sound.add (hg : g.Sound) (op : Operator) : (g.add op).2.Sound :=
  ⟨hg.wellFormed.add op, indexed_reindexed _⟩

theorem Sound.insertBefore (hg : g.Sound) (anchor : Handle) (op : Operator) :
    (g.insertBefore anchor op).2.Sound :=
  ⟨hg.wellFormed.insertBefore anchor op, indexed_insertBefore⟩

theorem Sound.without (hg : g.Sound) (hop : g.get? id = some op) : (g.without id op).Sound :=
  ⟨hg.wellFormed.without id op, indexed_without hop⟩

/-- A removal takes no other operator with it. -/
theorem contains_without (hx : x ≠ id) : (g.without id op).contains x = g.contains x := by
  have hsame : ((g.without id op).get? x).map Operator.disconnected =
      (g.get? x).map Operator.disconnected := disconnected_without hx
  simpa [contains] using congrArg Option.isSome hsame

/-- What was there stays there when an operator is inserted. -/
theorem WellFormed.contains_insertBefore (hg : g.WellFormed) :
    (g.insertBefore anchor op).2.contains x =
      (x == (g.insertBefore anchor op).1 || g.contains x) := by
  rw [contains, hg.get?_insertBefore]
  by_cases hx : x = (g.insertBefore anchor op).1
  · simp [hx]
  · simp [hx, contains]

/-- No place in the order is vacant, and neither is any that a neighbour is looked up at. So nothing
is left out where operators are listed, streams are computed or neighbours are tested. -/
structure Live (g : Graph) : Prop where
  entries : g.entries.map Prod.fst = g.order
  children : ∀ x, ∀ y ∈ g.children x, g.contains y = true
  parents : ∀ x, ∀ y ∈ g.parents x, g.contains y = true

theorem WellFormed.live (hg : g.WellFormed) : g.Live := by
  refine ⟨?_, fun _ _ => contains_of_mem_children hg, fun _ _ => contains_of_mem_parents hg⟩
  rw [entries, List.map_filterMap]
  refine (List.filterMap_congr fun x hx => ?_).trans List.filterMap_some
  obtain ⟨op, hop⟩ := hg.mem_order_iff.mp hx
  rw [hop]
  rfl

/-! ### The same handles -/

/-- `t` is well formed and has its operators at the same handles. -/
structure Retains (g t : Graph) : Prop where
  wellFormed : t.WellFormed
  contains : ∀ x, t.contains x = g.contains x

theorem Retains.refl (hg : g.WellFormed) : g.Retains g := ⟨hg, fun _ => rfl⟩

theorem Retains.trans (h : g.Retains t) (h' : t.Retains t') : g.Retains t' :=
  ⟨h'.wellFormed, fun x => (h'.contains x).trans (h.contains x)⟩

theorem Retains.mapAt (h : g.Retains t) (ids : List Handle) (f : Operator → Operator) :
    g.Retains (t.mapAt ids f) :=
  ⟨h.wellFormed.mapAt ids f, fun x => contains_mapAt.trans (h.contains x)⟩

theorem Retains.reindexed (h : g.Retains t) : g.Retains t.reindexed :=
  ⟨h.wellFormed.reindexed, h.contains⟩

section

variable (h : g.Retains t) (hx : g.contains x = true)

include h hx

theorem Retains.lookup : Succeeds g.Retains (GraphM.lookup x) t := by
  obtain ⟨op, hop⟩ := contains_iff.mp ((h.contains x).trans hx)
  exact ⟨op, t, yields_lookup.mpr ⟨hop, rfl⟩, h⟩

theorem Retains.update (f : Operator → Operator) :
    Succeeds g.Retains (GraphM.update x f) t :=
  ⟨⟨⟩, _, yields_update_mapAt.mpr ⟨(h.contains x).trans hx, rfl⟩, h.mapAt [x] f⟩

end

end Graph

/-! ### Single operators -/

section

variable {g : Graph} {id : Handle}

/-- A look-up finds a live operator. -/
theorem ends_lookup {Q : Operator → Graph → Prop} {F : Error → Graph → Prop}
    (hQ : ∀ op, g.get? id = some op → Q op g) (hF : g.contains id = false → F (.deadHandle id) g) :
    Ends Q F (GraphM.lookup id) g := by
  refine ends_get_bind ?_
  rcases hop : g.get? id with _ | op
  · exact ends_throw (hF (by rw [Graph.contains, hop]; rfl))
  · exact ends_pure (hQ op hop)

/-- The same, with what the rest of the run needs. -/
theorem ends_lookup_bind {β : Type} {Q : β → Graph → Prop} {F : Error → Graph → Prop}
    {rest : Operator → GraphM β} (hQ : ∀ op, g.get? id = some op → Ends Q F (rest op) g)
    (hF : g.contains id = false → F (.deadHandle id) g) :
    Ends Q F (GraphM.lookup id >>= rest) g :=
  ends_bind (P := fun op t => t = g ∧ g.get? id = some op)
    (ends_lookup (fun _ hop => ⟨rfl, hop⟩) hF) fun op _ ⟨ht, hop⟩ => ht ▸ hQ op hop

variable {ids : List Handle}

/-- Looking up live operators goes on with what they are. -/
theorem ends_lookups_bind {β : Type} {Q : β → Graph → Prop} {F : Error → Graph → Prop}
    {rest : List Operator → GraphM β} (h : ∀ id ∈ ids, g.contains id = true)
    (hrest : Ends Q F (rest (ids.filterMap g.get?)) g) :
    Ends Q F (ids.mapM GraphM.lookup >>= rest) g :=
  ends_bind (P := fun ops t => t = g ∧ ops = ids.filterMap g.get?)
    ((yields_lookups h).ends ⟨rfl, rfl⟩) fun _ _ ⟨ht, hops⟩ => ht ▸ hops ▸ hrest

/-! ### Taking out -/

/-- **How a removal ends.** When it fails it has changed nothing, and if the operator was live, its
ports are at fault. -/
theorem remove_ends (hg : g.WellFormed) :
    Ends (fun _ t => ∃ op, g.get? id = some op ∧ t = g.without id op)
      (fun e t => t = g ∧ (g.contains id = true → e.IsRefusal)) (Rewiring.remove id) g := by
  rcases hop : g.get? id with _ | op
  · refine ends_get_bind ?_
    simp only [hop]
    refine ends_throw ⟨rfl, fun hlive => ?_⟩
    rw [Graph.contains, hop] at hlive
    cases hlive
  by_cases hlen : op.outputs.length > 1
  · refine ends_get_bind ?_
    simp only [hop, hlen, if_true]
    exact ends_bind (P := fun _ _ => False) (ends_throw ⟨rfl, fun _ => trivial⟩)
      fun _ _ h => h.elim
  · have hrun : Yields (Rewiring.remove id) g ⟨⟩ (g.without id op) :=
      (yields_remove hg).mpr ⟨op, hop, by omega, rfl⟩
    exact hrun.ends ⟨op, rfl, rfl⟩

/-- **How the removals of a list end.** A list that names live operators, each once, is refused for
their ports only. -/
theorem removeAll_ends (hg : g.Sound) :
    Ends (fun _ t => t.Sound)
      (fun e t => t.Sound ∧ (ids.Nodup → (∀ id ∈ ids, g.contains id = true) → e.IsRefusal))
      (Rewiring.removeAll ids) g := by
  unfold Rewiring.removeAll
  induction ids generalizing g with
  | nil => exact ends_pure hg
  | cons id ids ih =>
    show Ends _ _ (Rewiring.remove id >>= fun _ => ids.forM Rewiring.remove) g
    refine ends_bind ((remove_ends hg.wellFormed).mono (fun _ _ h => h) ?_) ?_
    · rintro e t ⟨rfl, hrefuse⟩
      exact ⟨hg, fun _ hlive => hrefuse (hlive id List.mem_cons_self)⟩
    · rintro _ t ⟨op, hop, rfl⟩
      refine (ih (hg.without hop)).mono (fun _ _ h => h) fun e t h => ⟨h.1, fun hnd hlive => ?_⟩
      obtain ⟨hid, hnd⟩ := List.nodup_cons.mp hnd
      refine h.2 hnd fun x hx => ?_
      have hne : x ≠ id := fun he => hid (he ▸ hx)
      exact (Graph.contains_without hne).trans (hlive x (List.mem_cons_of_mem _ hx))

/-- Markers can be taken out, unless their ports are at fault. -/
theorem removeAll_settles (hg : g.Sound) (hids : ids.Nodup)
    (hlive : ∀ id ∈ ids, g.contains id = true) :
    Settles Graph.Sound (Rewiring.removeAll ids) g :=
  (removeAll_ends hg).mono (fun _ _ h => h) fun _ _ h => ⟨h.2 hids hlive, h.1⟩

/-! ### Putting in between -/

variable {t : Graph} {parent child added : Handle}

theorem succeeds_routePorts {addIn addOut outName inName : String} {i j : Nat}
    (h : g.Retains t) (hparent : g.contains parent = true) (hchild : g.contains child = true)
    (hadded : g.contains added = true) :
    Succeeds g.Retains
      (Rewiring.routePorts parent child added addIn addOut i outName j inName) t := by
  refine succeeds_bind (h.lookup hparent) fun producer t h => ?_
  refine succeeds_bind (h.lookup hchild) fun consumer t h => ?_
  dsimp only
  split
  · refine succeeds_bind (h.update hparent _) fun _ t h => ?_
    refine succeeds_bind (h.update hchild _) fun _ t h => ?_
    exact h.update hadded _
  · exact succeeds_pure h

/-- **How putting an operator between two others ends.** -/
theorem interpose_ends (hg : g.Sound) :
    Ends (fun _ t => t.Sound ∧ g.Retains t)
      (fun e t => t = g ∧ (g.contains parent = true → g.contains child = true →
        g.contains added = true → e.IsRefusal))
      (Rewiring.interpose parent child added) g := by
  refine ends_lookup_bind (fun op hop => ?_) fun hdead => ⟨rfl, fun _ _ hlive => ?_⟩
  · have hadded : g.contains added = true := Graph.contains_iff.mpr ⟨op, hop⟩
    rcases op.inputs.head? with _ | addIn
    · exact ends_throw ⟨rfl, fun _ _ _ => trivial⟩
    rcases op.outputs.head? with _ | addOut
    · exact ends_throw ⟨rfl, fun _ _ _ => trivial⟩
    refine ends_lookup_bind (fun producer hproducer => ?_) fun hdead => ⟨rfl, fun hlive => ?_⟩
    · have hparent : g.contains parent = true := Graph.contains_iff.mpr ⟨producer, hproducer⟩
      refine ends_lookup_bind (fun consumer hconsumer => ?_) fun hdead => ⟨rfl, fun _ hlive => ?_⟩
      · have hchild : g.contains child = true := Graph.contains_iff.mpr ⟨consumer, hconsumer⟩
        have hroutes : Succeeds g.Retains (producer.outputs.zipIdx.forM fun out =>
            consumer.inputs.zipIdx.forM fun inp =>
              Rewiring.routePorts parent child added addIn.name addOut.name out.2 out.1.name inp.2
                inp.1.name) g :=
          succeeds_forM (.refl hg.wellFormed) fun _ _ _ h =>
            succeeds_forM h fun _ _ _ h => succeeds_routePorts h hparent hchild hadded
        exact ends_bind hroutes.ends fun _ t h =>
          ends_modify ⟨⟨h.reindexed.wellFormed, Graph.indexed_reindexed t⟩, h.reindexed⟩
      · rw [hdead] at hlive
        cases hlive
    · rw [hdead] at hlive
      cases hlive
  · rw [hdead] at hlive
    cases hlive

/-- **How putting an operator above another one ends.** -/
theorem interposeAbove_ends (hg : g.Sound) :
    Ends (fun _ t => t.Sound ∧ g.Retains t)
      (fun e t => t.Sound ∧ (g.contains added = true → e.IsRefusal))
      (Rewiring.interposeAbove id added) g := by
  refine ends_get_bind (ends_forM ⟨hg, .refl hg.wellFormed⟩ fun parent hparent t ⟨ht, h⟩ => ?_)
  have hid : g.contains id = true :=
    (hg.wellFormed.mem_order id).mp (Graph.mem_parents_links.mp hparent).1
  have hparent : g.contains parent = true := Graph.contains_of_mem_parents hg.wellFormed hparent
  refine (interpose_ends ht).mono (fun _ _ h' => ⟨h'.1, h.trans h'.2⟩) fun e t' h' => ?_
  obtain ⟨rfl, hrefuse⟩ := h'
  refine ⟨ht, fun hadded => hrefuse ?_ ?_ ?_⟩
  · exact (h.contains parent).trans hparent
  · exact (h.contains id).trans hid
  · exact (h.contains added).trans hadded

end

end StreamTopology
