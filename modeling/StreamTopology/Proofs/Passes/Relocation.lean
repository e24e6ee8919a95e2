import StreamTopology.Proofs.Passes.AdderMove

/-!
# Hash adders that stand behind ends

All moves together exchange the ends of some regions with the adders behind them. The moves do not
get in each other's way, so the outcome is a permutation of operators that is known on every one of
them: an adder and its end change places, the others stay. What was true of the neighbours of an
operator is now true of those of the operator in its place.

An end that has several children, or whose child is no adder, is looked at and left alone; only
`Graph.Behind` decides.

## Main definitions

* `Graph.Behind`: the adder and the end that change places.
* `Graph.Exchangeable`: the moves do not get in each other's way.
* `Graph.Relocatable`: the names of the ports of all copies may be used.
* `Graph.Relocated`: what the moves for some of the ends leave.

## Main results

* `Graph.Relocated.step`: one move more.
* `HashAdders.yields_ends`: the ends that are looked at.
* `HashAdders.relocate_relocated`: what all moves leave.
* `HashAdders.leaves_relocate`: the moves in general, step by step, also where one fails.
-/

namespace StreamTopology

namespace Graph

variable {g t t' : Graph} {e e' h h' x y : Handle} {b b' op op' : Operator} {es : List Handle}
  {π : Equiv.Perm Handle}

/-! ### Adders behind ends -/

/-- The only child of the end `e` of a region is `h`, a hash adder without other parents. -/
structure Behind (g : Graph) (e h : Handle) : Prop where
  isEnd : g.marker? e = some .endParallel
  children : g.children e = [h]
  parents : g.parents h = [e]
  adder : ∃ op ∈ g.get? h, op.isHashAdder = true ∧ op.outputs ≠ []

instance (g : Graph) (e h : Handle) : Decidable (g.Behind e h) :=
  decidable_of_iff (g.marker? e = some .endParallel ∧ g.children e = [h] ∧ g.parents h = [e] ∧
      ∃ op ∈ g.get? h, op.isHashAdder = true ∧ op.outputs ≠ [])
    ⟨fun ⟨he, hc, hp, ha⟩ => ⟨he, hc, hp, ha⟩, fun ⟨he, hc, hp, ha⟩ => ⟨he, hc, hp, ha⟩⟩

/-- The end `e` of a region is the only parent of `h`, a hash adder, and may have other children. -/
structure Trails (g : Graph) (e h : Handle) : Prop where
  isEnd : g.marker? e = some .endParallel
  parents : g.parents h = [e]
  adder : ∃ op ∈ g.get? h, op.isHashAdder = true

theorem Behind.trails (hh : g.Behind e h) : g.Trails e h := by
  obtain ⟨op, hop, hadder, _⟩ := hh.adder
  exact ⟨hh.isEnd, hh.parents, op, hop, hadder⟩

theorem Behind.adder_unique (hh : g.Behind e h) (hh' : g.Behind e h') : h = h' := by
  simpa using hh.children.symm.trans hh'.children

theorem Behind.end_unique (hh : g.Behind e h) (hh' : g.Behind e' h) : e = e' := by
  simpa using hh.parents.symm.trans hh'.parents

/-- The adders behind ends are no markers, and the names of the ports of their copies may be used,
also together. -/
structure Relocatable (g : Graph) : Prop where
  plain : ∀ e h, g.Behind e h → g.marker? h = none
  copyable : ∀ e h op, g.Behind e h → g.get? h = some op → g.Copyable h op
  apart : ∀ e h op e' h' op', g.Behind e h → g.Behind e' h' → h ≠ h' → g.get? h = some op →
    g.get? h' = some op' →
      op.copyInputs.Disjoint op'.copyInputs ∧ op.copyOutputs.Disjoint op'.copyOutputs

/-- No adder behind an end is an end with an adder below it, and the names of the ports of all
copies may be used, also together. -/
structure Exchangeable (g : Graph) : Prop where
  last : ∀ e h a, g.Behind e h → ¬ g.Trails h a
  copyable : ∀ e h op, g.Behind e h → g.get? h = some op → g.Copyable h op
  apart : ∀ e h op e' h' op', g.Behind e h → g.Behind e' h' → h ≠ h' → g.get? h = some op →
    g.get? h' = some op' →
      op.copyInputs.Disjoint op'.copyInputs ∧ op.copyOutputs.Disjoint op'.copyOutputs

/-- The operator is one of the ends, or the adder behind one. -/
def Exchanged (g : Graph) (es : List Handle) (x : Handle) : Prop :=
  ∃ e ∈ es, ∃ h, g.Behind e h ∧ (x = e ∨ x = h)

theorem exchanged_concat :
    g.Exchanged (es ++ [e]) x ↔ g.Exchanged es x ∨ ∃ h, g.Behind e h ∧ (x = e ∨ x = h) := by
  simp only [Exchanged, List.mem_append, List.mem_singleton, or_and_right, exists_or,
    exists_eq_left]

/-- An adder that is no marker is no end. -/
theorem Relocatable.adder_ne_end (hr : g.Relocatable) (hh : g.Behind e h)
    (he' : g.marker? e' = some .endParallel) : h ≠ e' := by
  rintro rfl
  rw [hr.plain e h hh] at he'
  cases he'

theorem Relocatable.exchangeable (hr : g.Relocatable) : g.Exchangeable :=
  ⟨fun _ _ _ hh ha => hr.adder_ne_end hh ha.isEnd rfl, hr.copyable, hr.apart⟩

/-- Without ends of regions there is nothing to exchange. -/
theorem exchangeable_of_endless (hends : ∀ e, g.marker? e ≠ some .endParallel) :
    g.Exchangeable :=
  ⟨fun e _ _ hh => absurd hh.isEnd (hends e), fun e _ _ hh => absurd hh.isEnd (hends e),
    fun e _ _ _ _ _ hh => absurd hh.isEnd (hends e)⟩

section

variable (hr : g.Exchangeable)

include hr

theorem Exchangeable.adder_ne_end (hh : g.Behind e h) (he' : g.Trails e' h') : h ≠ e' := by
  rintro rfl
  exact hr.last e h h' hh he'

/-- Different ends and the adders behind them are four operators. -/
theorem Exchangeable.pairs_apart (hh : g.Behind e h) (hh' : g.Behind e' h') (hne : e' ≠ e) :
    e' ≠ h ∧ h' ≠ e ∧ h' ≠ h := by
  refine ⟨(hr.adder_ne_end hh hh'.trails).symm, hr.adder_ne_end hh' hh.trails, ?_⟩
  rintro rfl
  exact hne (hh'.end_unique hh)

/-- An end that is not among the given ones has its place. -/
theorem Exchangeable.end_not_exchanged (he : g.Trails e h) (hmem : e ∉ es) :
    ¬ g.Exchanged es e := by
  rintro ⟨e', he', h', hh', rfl | rfl⟩
  · exact hmem he'
  · exact hr.adder_ne_end hh' he rfl

/-- The adder behind an end that is not among the given ones has its place. -/
theorem Exchangeable.adder_not_exchanged (hh : g.Behind e h) (hmem : e ∉ es) :
    ¬ g.Exchanged es h := by
  rintro ⟨e', he', h', hh', rfl | rfl⟩
  · exact hr.adder_ne_end hh hh'.trails rfl
  · exact hmem (hh.end_unique hh' ▸ he')

end

/-! ### Several moves -/

/-- `t` is `g` after the adders behind some of the ends have been moved: they and the ends have
changed places, by the permutation `π`. -/
structure Relocated (g : Graph) (es : List Handle) (π : Equiv.Perm Handle) (t : Graph) :
    Prop where
  wellFormed : t.WellFormed
  indexed : t.Indexed
  coherent : t.Coherent
  kind : ∀ x, (t.get? x).map Operator.kind = (g.get? x).map Operator.kind
  kept : ∀ x, ¬ g.Exchanged es x →
    (t.get? x).map Operator.disconnected = (g.get? x).map Operator.disconnected
  copyable : ∀ e h op, g.Behind e h → e ∉ es → t.get? h = some op → t.Copyable h op
  feeds : ∀ x y, t.Feeds x y ↔ g.Feeds (π x) (π y)
  moved : ∀ e h, g.Behind e h → e ∈ es → π e = h ∧ π h = e
  still : ∀ x, ¬ g.Exchanged es x → π x = x

theorem Relocated.init (hg : g.WellFormed) (hi : g.Indexed) (hco : g.Coherent)
    (hr : g.Exchangeable) : g.Relocated [] (Equiv.refl Handle) g :=
  ⟨hg, hi, hco, fun _ => rfl, fun _ _ => rfl, fun e h op hh _ hop => hr.copyable e h op hh hop,
    fun _ _ => Iff.rfl, fun _ _ _ he => (List.not_mem_nil he).elim, fun _ _ => rfl⟩

/-- A move leaves the names of another copy unused. -/
theorem Moved.copyable (hmoved : g.Moved e h op t) (hb : b'.disconnected = b.disconnected)
    (hcopy : g.Copyable x b) (hins : b.copyInputs.Disjoint op.copyInputs)
    (houts : b.copyOutputs.Disjoint op.copyOutputs) : t.Copyable x b' := by
  obtain ⟨hinNames, houtNames⟩ := portNames_of_disconnected hb
  have hcopyIn := Operator.copyInputs_congr hb
  have hcopyOut := Operator.copyOutputs_congr hb
  refine ⟨hcopyIn ▸ hcopy.inputs_nodup, fun i hi y hy => ?_, fun o ho y hy => ?_,
    fun i hi p hp hlisted => ?_, fun o ho q hq hlisted => ?_⟩
  · rw [hcopyIn] at hi
    rcases hmoved.inputs y i hy with hold | ⟨_, hnew⟩
    · exact hcopy.inputs_new i hi y hold
    · exact absurd hnew (hins hi)
  · rw [hcopyOut] at ho
    rcases hmoved.outputs y o hy with hold | ⟨_, hnew⟩
    · exact hcopy.outputs_new o ho y hold
    · exact absurd hnew (houts ho)
  · rw [hcopyIn] at hi
    obtain ⟨p₀, hp₀, hlisted₀, hcount⟩ := hmoved.covers.outputs p hp i hlisted (hins hi)
    obtain ⟨hnames, hone⟩ := hcopy.inputs_listed i hi p₀ hp₀ hlisted₀
    exact ⟨hinNames.trans hnames, Nat.le_trans hcount hone⟩
  · rw [hcopyOut] at ho
    obtain ⟨q₀, hq₀, hlisted₀, hcount⟩ := hmoved.covers.inputs q hq o hlisted (houts ho)
    obtain ⟨hnames, hone⟩ := hcopy.outputs_listed o ho q₀ hq₀ hlisted₀
    exact ⟨houtNames.trans hnames, Nat.le_trans hcount hone⟩

section

variable (hfeeds : ∀ x y, t.Feeds x y ↔ g.Feeds (π x) (π y))

include hfeeds

theorem children_iff_of_feeds (hg : g.WellFormed) (hi : g.Indexed) (ht : t.WellFormed)
    (hit : t.Indexed) : t.children x = [y] ↔ g.children (π x) = [π y] := by
  rw [children_eq_singleton hg hi, children_eq_singleton ht hit]
  refine Iff.trans (forall_congr' fun z => ?_) π.forall_congr_right
  rw [hfeeds, π.apply_eq_iff_eq]

theorem parents_iff_of_feeds (hg : g.WellFormed) (hi : g.Indexed) (ha : g.Agrees)
    (ht : t.WellFormed) (hit : t.Indexed) (hat : t.Agrees) :
    t.parents x = [y] ↔ g.parents (π x) = [π y] := by
  rw [parents_eq_singleton hg hi ha, parents_eq_singleton ht hit hat]
  refine Iff.trans (forall_congr' fun z => ?_) π.forall_congr_right
  rw [hfeeds, π.apply_eq_iff_eq]

/-- An end has its shape where the operator in its place had it. -/
theorem sealed_iff_of_feeds (hg : g.WellFormed) (hi : g.Indexed) (ha : g.Agrees)
    (ht : t.WellFormed) (hit : t.Indexed) (hat : t.Agrees) : t.Sealed e ↔ g.Sealed (π e) := by
  refine Iff.trans (exists_congr fun p => ?_) π.exists_congr_right
  rw [parents_iff_of_feeds hfeeds hg hi ha ht hit hat, children_iff_of_feeds hfeeds hg hi ht hit]

end

/-- An end without an adder behind it makes no difference. -/
theorem Relocated.skip (hrel : g.Relocated es π t) (hlone : ∀ h, ¬ g.Behind e h) :
    g.Relocated (es ++ [e]) π t := by
  have hsame : ∀ x, g.Exchanged (es ++ [e]) x ↔ g.Exchanged es x := by
    intro x
    rw [exchanged_concat]
    exact or_iff_left fun ⟨h, hh, _⟩ => hlone h hh
  refine ⟨hrel.wellFormed, hrel.indexed, hrel.coherent, hrel.kind,
    fun x hx => hrel.kept x (mt (hsame x).mpr hx), fun e' h' op hh hmem => ?_, hrel.feeds,
    fun e' h' hh hmem => ?_, fun x hx => hrel.still x (mt (hsame x).mpr hx)⟩
  · exact hrel.copyable e' h' op hh fun hmem' => hmem (List.mem_append_left _ hmem')
  · rcases List.mem_append.mp hmem with hmem | hmem
    · exact hrel.moved e' h' hh hmem
    · exact absurd (List.mem_singleton.mp hmem ▸ hh) (hlone h')

/-- **One move more.** -/
theorem Relocated.move (hr : g.Exchangeable) (hrel : g.Relocated es π t) (hh : g.Behind e h)
    (hmem : e ∉ es) (hop : t.get? h = some op) (hmoved : t.Moved e h op t') :
    g.Relocated (es ++ [e]) ((Equiv.swap e h).trans π) t' := by
  have hother : ∀ {x}, ¬ g.Exchanged (es ++ [e]) x → ¬ g.Exchanged es x ∧ x ≠ e ∧ x ≠ h := by
    intro x hx
    rw [exchanged_concat, not_or] at hx
    exact ⟨hx.1, fun hxe => hx.2 ⟨h, hh, Or.inl hxe⟩, fun hxh => hx.2 ⟨h, hh, Or.inr hxh⟩⟩
  have hstill := hrel.still e (hr.end_not_exchanged hh.trails hmem)
  have hstill' := hrel.still h (hr.adder_not_exchanged hh hmem)
  refine ⟨hmoved.wellFormed, hmoved.indexed, hmoved.coherent,
    fun x => (hmoved.kind x).trans (hrel.kind x), fun x hx => ?_,
    fun e' h' op' hh' hmem' hop' => ?_, fun x y => ?_, fun e' h' hh' hmem' => ?_, fun x hx => ?_⟩
  · obtain ⟨hx, hxe, hxh⟩ := hother hx
    exact (hmoved.kept x hxe hxh).trans (hrel.kept x hx)
  · rw [List.mem_append, List.mem_singleton, not_or] at hmem'
    obtain ⟨_, hne, hneh⟩ := hr.pairs_apart hh hh' hmem'.2
    obtain ⟨b, hb, heq⟩ := exists_of_disconnected (hmoved.kept h' hne hneh) hop'
    obtain ⟨b₀, hb₀, heq₀⟩ := exists_of_disconnected
      (hrel.kept h' (hr.adder_not_exchanged hh' hmem'.1)) hb
    obtain ⟨op₀, hop₀, hop_eq⟩ := exists_of_disconnected
      (hrel.kept h (hr.adder_not_exchanged hh hmem)) hop
    obtain ⟨hins, houts⟩ := hr.apart e' h' b₀ e h op₀ hh' hh hneh hb₀ hop₀
    rw [Operator.copyInputs_congr heq₀, Operator.copyInputs_congr hop_eq] at hins
    rw [Operator.copyOutputs_congr heq₀, Operator.copyOutputs_congr hop_eq] at houts
    exact hmoved.copyable heq.symm (hrel.copyable e' h' b hh' hmem'.1 hb) hins houts
  · rw [hmoved.feeds, hrel.feeds]
    rfl
  · rw [Equiv.trans_apply, Equiv.trans_apply]
    by_cases hne : e' = e
    · subst hne
      obtain rfl := hh.adder_unique hh'
      rw [Equiv.swap_apply_left, Equiv.swap_apply_right]
      exact ⟨hstill', hstill⟩
    · obtain ⟨he, hhe, hhh⟩ := hr.pairs_apart hh hh' hne
      rw [Equiv.swap_apply_of_ne_of_ne hne he, Equiv.swap_apply_of_ne_of_ne hhe hhh]
      refine hrel.moved e' h' hh' ?_
      simpa [hne] using hmem'
  · obtain ⟨hx, hxe, hxh⟩ := hother hx
    rw [Equiv.trans_apply, Equiv.swap_apply_of_ne_of_ne hxe hxh]
    exact hrel.still x hx

section

variable (hg : g.WellFormed) (hi : g.Indexed) (hco : g.Coherent) (hr : g.Exchangeable)

include hg hi hco hr

/-- An end whose turn is still to come has its neighbours, and so has the adder behind it. -/
theorem Relocated.neighbours (hrel : g.Relocated es π t) (hmem : e ∉ es) (hh : g.Behind e h)
    (hseal : g.Sealed e) : t.children e = [h] ∧ t.parents h = [e] ∧ t.Sealed e := by
  have hstill := hrel.still e (hr.end_not_exchanged hh.trails hmem)
  have hstill' := hrel.still h (hr.adder_not_exchanged hh hmem)
  rw [children_iff_of_feeds hrel.feeds hg hi hrel.wellFormed hrel.indexed,
    parents_iff_of_feeds hrel.feeds hg hi hco.agrees hrel.wellFormed hrel.indexed
      hrel.coherent.agrees,
    sealed_iff_of_feeds hrel.feeds hg hi hco.agrees hrel.wellFormed hrel.indexed
      hrel.coherent.agrees, hstill, hstill']
  exact ⟨hh.children, hh.parents, hseal⟩

/-- The operator that is moved is the adder behind the end. -/
theorem Relocated.behind (hrel : g.Relocated es π t) (hmem : e ∉ es)
    (htrails : g.Trails e h') (hchild : t.children e = [h]) (hop : t.get? h = some op)
    (hout : op.outputs ≠ []) : g.Behind e h := by
  have hstill := hrel.still e (hr.end_not_exchanged htrails hmem)
  obtain ⟨hend, hparents, a, ha, hadder⟩ := htrails
  have hchildren : g.children e = [π h] := by
    rw [← hstill]
    exact (children_iff_of_feeds hrel.feeds hg hi hrel.wellFormed hrel.indexed).mp hchild
  have hfeeds : g.Feeds e h' := by
    rw [← mem_parents hg hi hco.agrees, hparents]
    exact List.mem_singleton_self e
  rw [← mem_children hg hi, hchildren, List.mem_singleton] at hfeeds
  rw [← hfeeds] at hchildren
  by_cases hx : g.Exchanged es h
  · obtain ⟨e₁, he₁, h₁, hh₁, rfl | rfl⟩ := hx
    · -- the end that is done has changed places with the adder
      rw [(hrel.moved h h₁ hh₁ he₁).1] at hfeeds
      have hsame := hparents.symm.trans (hfeeds ▸ hh₁.parents)
      exact absurd ((List.cons.inj hsame).1 ▸ he₁) hmem
    · -- the adder is itself an end that is done
      rw [(hrel.moved e₁ h hh₁ he₁).2] at hfeeds
      subst hfeeds
      have hout' : a.outputs ≠ [] := by
        have hnext : g.Feeds h' h := by
          rw [← mem_children hg hi, hh₁.children]
          exact List.mem_singleton_self h
        obtain ⟨a', b, ha', _, hfeeds'⟩ := hnext
        obtain ⟨p, hp, _⟩ := Operator.feeds_iff.mp hfeeds'
        rw [Option.some.inj (ha.symm.trans ha')]
        exact List.ne_nil_of_mem hp
      exact absurd rfl
        (hr.adder_ne_end ⟨hend, hchildren, hparents, a, ha, hadder, hout'⟩ hh₁.trails)
  · obtain rfl := hfeeds.trans (hrel.still h hx)
    obtain ⟨a', ha', heq⟩ := exists_of_disconnected (hrel.kept h' hx).symm ha
    obtain rfl := Option.some.inj (hop.symm.trans ha')
    refine ⟨hend, hchildren, hparents, a, ha, hadder, fun hnil => hout ?_⟩
    have hlen := outputs_length_of_disconnected heq
    rw [hnil] at hlen
    exact List.length_eq_zero_iff.mp hlen

theorem Relocated.step {moved : Bool} (hrel : g.Relocated es π t) (hmem : e ∉ es)
    (htrails : g.Trails e h') (hseal : g.Sealed e)
    (hrun : Yields (HashAdders.moveChild e) t moved t') :
    ∃ π', g.Relocated (es ++ [e]) π' t' := by
  rcases yields_moveChild hrel.wellFormed hrun with ⟨_, rfl, hnone⟩ |
    ⟨_, x, op, t₁, hchild, hop, hlen, habove, b, schema, hb, rfl⟩
  · refine ⟨π, hrel.skip fun x hx => ?_⟩
    obtain ⟨hchild, _⟩ := hrel.neighbours hg hi hco hr hmem hx hseal
    obtain ⟨op, hop, hnil⟩ := hnone x hchild
    obtain ⟨a, ha, _, hout⟩ := hx.adder
    obtain ⟨a', ha', heq⟩ := exists_of_disconnected
      (hrel.kept x (hr.adder_not_exchanged hx hmem)).symm ha
    obtain rfl := Option.some.inj (hop.symm.trans ha')
    have hlen := outputs_length_of_disconnected heq
    rw [hnil] at hlen
    exact hout (List.length_eq_zero_iff.mp hlen.symm)
  · have hout : op.outputs ≠ [] := List.ne_nil_of_length_pos (hlen ▸ Nat.one_pos)
    have hh := hrel.behind hg hi hco hr hmem htrails hchild hop hout
    have hne : e ≠ x := (hr.adder_ne_end hh htrails).symm
    obtain ⟨_, hparent, hsealed⟩ := hrel.neighbours hg hi hco hr hmem hh hseal
    have hloop : ¬ t.Feeds x x := by
      rw [← mem_parents hrel.wellFormed hrel.indexed hrel.coherent.agrees, hparent,
        List.mem_singleton]
      exact hne.symm
    exact ⟨_, hrel.move hr hh hmem hop (moveChild_moved hrel.wellFormed hop hrel.indexed
      hrel.coherent (Nat.le_of_eq hlen) (hrel.copyable e x op hh hmem hop) hloop hchild hparent
      hsealed hne habove hb)⟩

end

end Graph

/-! ### All ends -/

namespace HashAdders

variable {g g' : Graph} {a e : Handle} {as es : List Handle} {r : Option Handle}
  {found : List (Option Handle)} {n : Nat}

theorem yields_endAbove (h : Yields (endAbove? a) g r g') :
    g' = g ∧ (r = some e ↔ g.parents a = [e] ∧ g.marker? e = some .endParallel) := by
  rw [endAbove?, yields_get_bind] at h
  rcases hparents : g.parents a with _ | ⟨p, _ | ⟨p', ps⟩⟩
  · simp only [hparents] at h
    obtain ⟨rfl, rfl⟩ := yields_pure.mp h
    simp
  · simp only [hparents] at h
    obtain ⟨op, t, hlookup, hresult⟩ := yields_bind.mp h
    obtain ⟨hop, rfl⟩ := yields_lookup.mp hlookup
    obtain ⟨rfl, rfl⟩ := yields_pure.mp hresult
    refine ⟨rfl, ?_⟩
    have hmarker : op.isMarker .endParallel = true ↔ g'.marker? p = some .endParallel := by
      rw [Graph.marker?_eq_some, Operator.isMarker, beq_iff_eq]
      simp [hop]
    split
    next hp => 
      rw [hmarker] at hp
      constructor
      · rintro ⟨⟩
        exact ⟨rfl, hp⟩
      · rintro ⟨⟨⟩, _⟩
        rfl
    next hp =>
      rw [hmarker] at hp
      refine iff_of_false (Option.some_ne_none e).symm ?_
      rintro ⟨⟨⟩, he⟩
      exact hp he
  · simp only [hparents] at h
    obtain ⟨rfl, rfl⟩ := yields_pure.mp h
    simp

theorem yields_mapM_endAbove (h : Yields (as.mapM endAbove?) g found g') :
    g' = g ∧ (some e ∈ found ↔
      ∃ a ∈ as, g.parents a = [e] ∧ g.marker? e = some .endParallel) := by
  induction as generalizing found with
  | nil =>
    obtain ⟨rfl, rfl⟩ := yields_mapM_nil.mp h
    simp
  | cons a as ih =>
    obtain ⟨r, t, rest, ha, hrest, rfl⟩ := yields_mapM_cons.mp h
    obtain ⟨rfl, hr⟩ := yields_endAbove (e := e) ha
    obtain ⟨rfl, hfound⟩ := ih hrest
    refine ⟨rfl, ?_⟩
    rw [List.mem_cons, hfound, eq_comm, hr, List.exists_mem_cons_iff]

/-- **The ends that are looked at** are those that are the only parent of a hash adder. -/
theorem yields_ends (hg : g.WellFormed) (h : Yields ends g es g') :
    g' = g ∧ es.Nodup ∧ ∀ e, e ∈ es ↔ ∃ a, g.Trails e a := by
  rw [ends, yields_get_bind] at h
  obtain ⟨found, t, hfound, h⟩ := yields_bind.mp h
  obtain ⟨rfl, rfl⟩ := yields_pure.mp h
  have hmap := fun e => yields_mapM_endAbove (e := e) hfound
  obtain rfl : g' = g := (hmap ⟨0⟩).1
  refine ⟨rfl, Rewiring.nodup_foldl_addOnce List.nodup_nil, fun e => ?_⟩
  rw [Rewiring.mem_foldl_addOnce, List.mem_filterMap]
  simp only [List.not_mem_nil, false_or, id_eq, exists_eq_right, (hmap e).2]
  refine exists_congr fun a => ?_
  rw [Graph.mem_findAll hg]
  constructor
  · rintro ⟨ha, hparents, he⟩
    exact ⟨he, hparents, ha⟩
  · rintro ⟨he, hparents, ha⟩
    exact ⟨ha, hparents, he⟩

/-- In a list without repetitions an element is not among those before it. -/
theorem not_mem_of_first {done : List Handle} (hnodup : es.Nodup) (h : done ++ [e] <+: es) :
    e ∉ done := by
  have hdone := hnodup.sublist h.sublist
  rw [← List.concat_eq_append, List.nodup_concat] at hdone
  exact hdone.1

/-- **Moving all hash adders** exchanges those behind ends with the ends. -/
theorem relocate_relocated (hg : g.WellFormed) (hi : g.Indexed) (hco : g.Coherent)
    (hr : g.Exchangeable) (hseal : ∀ e, g.marker? e = some .endParallel → g.Sealed e)
    (hrun : Yields relocate g n g') :
    ∃ es π, g.Relocated es π g' ∧ ∀ e h, g.Behind e h → e ∈ es := by
  rw [relocate] at hrun
  obtain ⟨es, t, hends, hrun⟩ := yields_bind.mp hrun
  obtain ⟨moved, t', hmoves, hrun⟩ := yields_bind.mp hrun
  obtain ⟨rfl, rfl⟩ := yields_pure.mp hrun
  obtain ⟨rfl, hnodup, hes⟩ := yields_ends hg hends
  have hloop := Yields.mapM_induction (I := fun done t' => ∃ π, t.Relocated done π t')
    (fun done e t₁ _ t₂ hfirst hI hstep => ?_) ⟨_, .init hg hi hco hr⟩ hmoves
  · obtain ⟨π, hrel⟩ := hloop
    exact ⟨es, π, hrel, fun e h hh => (hes e).mpr ⟨h, hh.trails⟩⟩
  · obtain ⟨π, hrel⟩ := hI
    obtain ⟨a, ha⟩ := (hes e).mp (hfirst.subset (by simp))
    exact hrel.step hg hi hco hr (not_mem_of_first hnodup hfirst) ha
      (hseal e ha.isEnd) hstep

/-- Without hash adders nothing is moved. -/
theorem relocate_of_adderless (hg : g.WellFormed)
    (hadders : ∀ x op, g.get? x = some op → op.isHashAdder = false)
    (hrun : Yields relocate g n g') : g' = g := by
  rw [relocate, yields_bind] at hrun
  obtain ⟨es, t, hends, hrun⟩ := hrun
  obtain ⟨rfl, _, hes⟩ := yields_ends hg hends
  obtain rfl : es = [] := by
    refine List.eq_nil_iff_forall_not_mem.mpr fun e he => ?_
    obtain ⟨a, ha⟩ := (hes e).mp he
    obtain ⟨op, hop, hadder⟩ := ha.adder
    rw [hadders a op hop] at hadder
    cases hadder
  exact (yields_pure.mp hrun).2

section

/-! ### Whatever the ports list

Without conditions on the graph a move need not be an exchange, but it consists of the same
steps. -/

variable {R : Graph → Graph → Prop} [Std.Refl R] [IsTrans Graph R]
  (hports : ∀ g x op op', g.WellFormed → g.get? x = some op → op'.config = op.config →
    op'.kind = op.kind → R g (g.set x op'))
  (hindex : ∀ g : Graph, R g g.reindexed)
  (hcopied : ∀ g e x op, g.WellFormed → g.get? x = some op → R g (g.copied e x op))

include hports hindex hcopied

/-- A move leaves what a relation allows that holds for new ports, for a new index and for a copy in
place of its original, also where it fails. -/
theorem leaves_moveChild {e : Handle} : Leaves (Graph.Guarded R) (moveChild e) := by
  have hset : ∀ f : Operator → Operator,
      (∀ op, (f op).config = op.config ∧ (f op).kind = op.kind) → Writes (Graph.Guarded R) f :=
    fun f hf g x op hop hg => ⟨Graph.set_eq_mapAt hop ▸ hg.mapAt _ _,
      hports g x op (f op) hg hop (hf op).1 (hf op).2⟩
  have hroute : ∀ {a : Handle} {schema : String}, Leaves (Graph.Guarded R) (do
      Rewiring.interposeAbove e a
      GraphM.update e (withSchema schema)
      pure true) := fun {_ _} =>
    leaves_bind (leaves_interposeAbove hset fun g hg => ⟨hg.reindexed, hindex g⟩) fun _ =>
      leaves_bind (leaves_update (hset _ fun _ => ⟨rfl, rfl⟩)) fun _ => leaves_pure true
  intro g hg
  refine Ends.after (Q := fun _ t => t.WellFormed ∧ R g t) (F := fun _ t => t.WellFormed ∧ R g t) ?_
    (fun _ _ h => h) fun _ _ h => h
  have hsame : g.WellFormed ∧ R g g := ⟨hg, Std.Refl.refl g⟩
  refine ends_get_bind ?_
  split
  next adder _ =>
    refine ends_lookup_bind (fun op hop => ?_) fun _ => hsame
    rcases op.outputs.head? with _ | output
    · exact ends_pure hsame
    refine ends_bind ((remove_ends hg).mono (fun _ _ h => h) fun _ _ h => h.1 ▸ hsame) ?_
    rintro _ _ ⟨op', hop', rfl⟩
    obtain rfl := Option.some.inj (hop.symm.trans hop')
    -- from the removal to the insertion nothing fails
    refine ends_get_bind (ends_bind (P := fun _ t => t = g.copied e adder op) (ends_set rfl) ?_)
    rintro _ _ rfl
    have hcopy : g.Guarded R (g.copied e adder op) := fun hg =>
      ⟨(hg.without adder op).insertBefore e _, hcopied g e adder op hg hop⟩
    exact (hroute.ends _).mono
      (fun _ t ht => IsTrans.trans (r := Graph.Guarded R) g _ t hcopy ht hg)
      fun _ t ht => IsTrans.trans (r := Graph.Guarded R) g _ t hcopy ht hg
  next => exact ends_pure hsame

/-- The same for the moving of all hash adders. -/
theorem leaves_relocate : Leaves (Graph.Guarded R) relocate := by
  have hends : Leaves (Graph.Guarded R) ends := by
    refine leaves_get_bind fun g => leaves_bind (leaves_mapM fun x _ => leaves_get_bind fun t => ?_)
      fun _ => leaves_pure _
    split
    · exact leaves_bind leaves_lookup fun _ => leaves_pure _
    · exact leaves_pure none
  exact leaves_bind hends fun _ =>
    leaves_bind (leaves_mapM fun _ _ => leaves_moveChild hports hindex hcopied) fun _ =>
      leaves_pure _

theorem confined_relocate (hg : g.WellFormed) (hrun : Yields relocate g n g') :
    g'.WellFormed ∧ R g g' :=
  (leaves_relocate hports hindex hcopied).confined _ _ _ hrun hg

end

end HashAdders

end StreamTopology
