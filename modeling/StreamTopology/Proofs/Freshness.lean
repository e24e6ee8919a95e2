import StreamTopology.Proofs.Composite.Numbers
import StreamTopology.Proofs.Generation
import StreamTopology.Proofs.Placement

/-!
# Identifiers are not used twice

A session hands its counters from one call to the next, also where a call fails. So the numbers that
a call takes lie between the counters before it and the counters after it, and those of a later call
lie above them.

A call is told by what it gives out: the taggings of its preparation, and the numbers of the regions
that its separation opens. What it gives out is not read off the topology at its end, for a call
that fails may have given out regions to operators that are taken out since, and numbers to regions
that became no composites. Every call has such a story, and what is said of it holds for any.

## Main definitions

* `Session.calls`: the calls of a session.
* `Session.Issues`: what a call gives out.
* `Session.KeptApart`: what one call gives out is kept apart.

## Main results

* `Session.exists_issues`: every call has its taggings and numbers.
* `Session.calls_fresh`: different calls share no identifier.
-/

namespace StreamTopology

/-- The identifiers of the regions of a kind that are given out. -/
def Tagging.ids (k : RegionKind) (ts : List Tagging) : List String :=
  (ts.filter fun τ => τ.kind = k).map Tagging.region

theorem Tagging.mem_ids {k : RegionKind} {ts : List Tagging} {id : String} :
    id ∈ Tagging.ids k ts ↔ ∃ n ∈ ts.filterMap (Workspace.numberOf? k), id = k.name n := by
  simp only [ids, List.mem_map, List.mem_filter, decide_eq_true_eq, List.mem_filterMap,
    Workspace.numberOf?, Option.ite_none_right_eq_some, Option.some.injEq]
  constructor
  · rintro ⟨τ, ⟨hτ, rfl⟩, rfl⟩
    exact ⟨τ.number, ⟨τ, hτ, rfl, rfl⟩, rfl⟩
  · rintro ⟨_, ⟨τ, hτ, rfl, rfl⟩, rfl⟩
    exact ⟨τ, ⟨hτ, rfl⟩, rfl⟩

namespace Session

/-- The calls of a session on topologies one after the other: each starts from the session that the
call before it leaves, whether that call succeeded or failed. -/
def calls : Session → List Graph → List (Session × Graph)
  | _, [] => []
  | s, g :: gs => (s, g) :: calls (s.generate g).session gs

/-- A call on the topology `g` makes the taggings `ts`, and then takes the numbers `ns`. -/
def Issues (s : Session) (g : Graph) (ts : List Tagging) (ns : List Nat) : Prop :=
  ∃ w done, Workspace.Course { graph := g, counters := s.counters } ts w ∧
    Separation.Numbering { graph := w.graph, count := s.parallelComposites } ns done ∧
    (s.generate g).session = { counters := w.counters, parallelComposites := done.count } ∧
    (s.generate g).graph = done.graph

variable {s s' : Session} {g : Graph} {gs : List Graph} {ts : List Tagging} {ns : List Nat}
  {k : RegionKind} {x : Handle} {op : Operator} {id : String} {n : Nat}

/-- **Every call has its taggings and numbers**, whichever way it ends. -/
theorem exists_issues (s : Session) (hg : g.WellFormed) : ∃ ts ns, s.Issues g ts ns := by
  unfold Issues generate
  rcases hvalues : SubmissionValues.ofParameters g.parameters with e | values
  · exact ⟨[], [], _, { graph := g, count := s.parallelComposites }, .start, .start, rfl, rfl⟩
  obtain ⟨_, ts, hts⟩ := Preparation.leaves_course { graph := g, counters := s.counters } hg
  dsimp only
  rcases hprepare : Preparation.run.run.run { graph := g, counters := s.counters } with
    ⟨e | stats, w⟩
  · rw [hprepare] at hts
    exact ⟨ts, [], w, { graph := w.graph, count := s.parallelComposites }, hts, .start, rfl, rfl⟩
  · rw [hprepare] at hts
    have hnumbering : Leaves Separation.Numbered (Separation.separate values) :=
      Separation.leaves_numbering
    obtain ⟨ns, hns⟩ := hnumbering { graph := w.graph, count := s.parallelComposites }
    exact ⟨ts, ns, w, _, hts, hns, rfl, rfl⟩

/-- The identifiers of a call are those of the numbers between its counters. -/
theorem Issues.mem_ids (h : s.Issues g ts ns) : id ∈ Tagging.ids k ts ↔
    ∃ n, k.next s.counters ≤ n ∧ n < k.next (s.generate g).session.counters ∧ id = k.name n := by
  obtain ⟨w, done, hts, _, hsession, _⟩ := h
  simp only [Tagging.mem_ids, (Workspace.counts k).mem_numbers hts, hsession, and_assoc]

theorem Issues.mem_numbers (h : s.Issues g ts ns) : n ∈ ns ↔
    s.parallelComposites ≤ n ∧ n < (s.generate g).session.parallelComposites := by
  obtain ⟨w, done, _, hns, hsession, _⟩ := h
  have hmem := Separation.counts_numbers.mem_numbers (n := n) hns
  rw [List.filterMap_some] at hmem
  rw [hmem, hsession]

/-! ### One call -/

/-- What a call gives out is kept apart: two taggings of one kind give operators different regions
in which these stay, and no number is taken twice. What operators bear at the end of the call are
identifiers that they bore before it or that it gave out, and what composites bear are its
numbers. -/
structure KeptApart (s : Session) (g : Graph) (ts : List Tagging) (ns : List Nat) : Prop where
  regions : ts.Pairwise fun τ τ' => τ.kind = τ'.kind → ∀ x y id id' a b,
    τ.Gives x id → τ'.Gives y id' → (s.generate g).graph.get? x = some a →
      (s.generate g).graph.get? y = some b →
        τ.kind.region? a = some id ∧ τ'.kind.region? b = some id' ∧ id ≠ id'
  numbers : ns.Nodup
  borne : ∀ k x op id, (s.generate g).graph.get? x = some op → k.region? op = some id →
    (g.get? x).bind k.region? = some id ∨ id ∈ Tagging.ids k ts
  named : ∀ cs t, s.ComesTo g cs t → ∀ c ∈ cs, c.isMain = false →
    ∃ n ∈ ns, c.name = Composite.parallelName n

/-- The composites that a call comes to bear its numbers. -/
theorem ComesTo.named {cs : List Composite} {t : Graph} {c : Composite} (h : s.ComesTo g cs t)
    (hc : c ∈ cs) (hinner : c.isMain = false) :
    ∃ n, s.parallelComposites ≤ n ∧ n < (s.generate g).session.parallelComposites ∧
      c.name = Composite.parallelName n := by
  obtain ⟨values, stats, w, done, hvalues, hprepare, hseparate, _⟩ := h
  obtain ⟨n, hn⟩ := Separation.named_of_separate hseparate hc hinner
  have hsession : (s.generate g).session.parallelComposites = done.count := by
    simp only [generate, hvalues, show Preparation.run.run.run _ = _ from hprepare,
      generateComposites, Separation.run, show (Separation.separate values).run.run _ = _ from
        hseparate]
  rw [hsession]
  exact ⟨n, hn⟩

theorem Issues.keptApart (h : s.Issues g ts ns) : s.KeptApart g ts ns := by
  have hmem : ∀ {n}, n ∈ ns ↔ _ := fun {n} => h.mem_numbers (n := n)
  obtain ⟨w, done, hts, hns, hsession, hgraph⟩ := h
  -- what an operator was when preparation ended
  have hbefore : ∀ {x op}, (s.generate g).graph.get? x = some op →
      ∃ a, w.graph.get? x = some a ∧ a.SameRegions op := fun {x op} hop =>
    hns.sameRegions x op (hgraph ▸ hop)
  refine ⟨?_, ?_, fun k x op id hop hid => ?_, fun cs t hcomes c hc hinner => ?_⟩
  · refine List.Pairwise.imp_of_mem ?_ (Workspace.Course.apart hts)
    intro τ τ' hτ hτ' hnumbers hkind x y id id' a b hgives hgives' ha hb
    obtain ⟨a₀, ha₀, hsame⟩ := hbefore ha
    obtain ⟨b₀, hb₀, hsame'⟩ := hbefore hb
    refine ⟨(hsame _).trans (Workspace.Course.given hts hτ hgives ha₀),
      (hsame' _).trans (Workspace.Course.given hts hτ' hgives' hb₀), fun heq => ?_⟩
    obtain rfl := Workspace.region_of_gives hgives
    have hregion : τ.region = τ'.region := heq.trans (Workspace.region_of_gives hgives')
    rw [Tagging.region, Tagging.region, ← hkind] at hregion
    exact hnumbers hkind (RegionKind.name_injective hregion)
  · have hnodup := Separation.counts_numbers.numbers_nodup hns
    rwa [List.filterMap_some] at hnodup
  · obtain ⟨a, ha, hsame⟩ := hbefore hop
    refine (Workspace.Course.origin hts ha ((hsame k).symm.trans hid)).imp_right ?_
    rintro ⟨τ, hτ, rfl, hgives⟩
    rw [Workspace.region_of_gives hgives]
    exact List.mem_map_of_mem (List.mem_filter.mpr ⟨hτ, decide_eq_true rfl⟩)
  · obtain ⟨n, hle, hlt, hname⟩ := hcomes.named hc hinner
    exact ⟨n, hmem.mpr ⟨hle, hlt⟩, hname⟩

/-! ### All calls -/

/-- No counter of `s'` is behind that of `s`. -/
def Precedes (s s' : Session) : Prop :=
  (∀ k : RegionKind, k.next s.counters ≤ k.next s'.counters) ∧
    s.parallelComposites ≤ s'.parallelComposites

theorem Precedes.trans {s'' : Session} (h : s.Precedes s') (h' : s'.Precedes s'') :
    s.Precedes s'' :=
  ⟨fun k => Nat.le_trans (h.1 k) (h'.1 k), Nat.le_trans h.2 h'.2⟩

/-- A call moves no counter back. -/
theorem Issues.precedes (h : s.Issues g ts ns) : s.Precedes (s.generate g).session := by
  obtain ⟨w, done, hts, hns, hsession, _⟩ := h
  rw [hsession]
  exact ⟨fun k => ((Workspace.counts k).numbers hts).1, (Separation.counts_numbers.numbers hns).1⟩

/-- Later calls start from later counters. -/
theorem precedes_of_mem_calls (hgs : ∀ g ∈ gs, g.WellFormed) {c : Session × Graph}
    (hc : c ∈ s.calls gs) : s.Precedes c.1 := by
  induction gs generalizing s with
  | nil => cases hc
  | cons g gs ih =>
    rcases List.mem_cons.mp hc with rfl | hc
    · exact ⟨fun _ => Nat.le_refl _, Nat.le_refl _⟩
    · obtain ⟨ts, ns, hissues⟩ := exists_issues s (hgs g List.mem_cons_self)
      exact hissues.precedes.trans (ih (fun g' hg' => hgs g' (List.mem_cons_of_mem _ hg')) hc)

theorem wellFormed_of_mem_calls (hgs : ∀ g ∈ gs, g.WellFormed) {c : Session × Graph}
    (hc : c ∈ s.calls gs) : c.2.WellFormed := by
  induction gs generalizing s with
  | nil => cases hc
  | cons g gs ih =>
    rcases List.mem_cons.mp hc with rfl | hc
    · exact hgs g List.mem_cons_self
    · exact ih (fun g' hg' => hgs g' (List.mem_cons_of_mem _ hg')) hc

/-- What two calls give out, of which the second starts behind the end of the first, is disjoint. -/
theorem Issues.disjoint {g' : Graph} {ts' : List Tagging} {ns' : List Nat}
    (h : s.Issues g ts ns) (h' : s'.Issues g' ts' ns')
    (hlater : (s.generate g).session.Precedes s') :
    (∀ k, (Tagging.ids k ts).Disjoint (Tagging.ids k ts')) ∧ ns.Disjoint ns' := by
  refine ⟨fun k id hid hid' => ?_, fun n hn hn' => ?_⟩
  · obtain ⟨n, _, hlt, rfl⟩ := h.mem_ids.mp hid
    obtain ⟨n', hle, _, hname⟩ := h'.mem_ids.mp hid'
    obtain rfl := RegionKind.name_injective hname
    have := hlater.1 k
    omega
  · obtain ⟨_, hlt⟩ := h.mem_numbers.mp hn
    obtain ⟨hle, _⟩ := h'.mem_numbers.mp hn'
    have := hlater.2
    omega

/-- **Identifiers are not used twice in a session.** Every call on a list of well-formed topologies,
whether it succeeds or fails, makes some taggings and takes some numbers. Different calls share no
identifier of a region and no number of a parallel composite, and what one call gives out is kept
apart. -/
theorem calls_fresh (s : Session) (hgs : ∀ g ∈ gs, g.WellFormed) :
    (∀ c ∈ s.calls gs, ∃ ts ns, c.1.Issues c.2 ts ns) ∧
      (s.calls gs).Pairwise (fun c c' => ∀ ts ns ts' ns', c.1.Issues c.2 ts ns →
        c'.1.Issues c'.2 ts' ns' →
          (∀ k, (Tagging.ids k ts).Disjoint (Tagging.ids k ts')) ∧ ns.Disjoint ns') ∧
      ∀ c ∈ s.calls gs, ∀ ts ns, c.1.Issues c.2 ts ns → c.1.KeptApart c.2 ts ns := by
  refine ⟨fun c hc => exists_issues _ (wellFormed_of_mem_calls hgs hc), ?_,
    fun c _ ts ns h => h.keptApart⟩
  induction gs generalizing s with
  | nil => exact .nil
  | cons g gs ih =>
    have hrest : ∀ g' ∈ gs, g'.WellFormed := fun g' hg' => hgs g' (List.mem_cons_of_mem _ hg')
    refine .cons (fun c hc ts ns ts' ns' h h' => ?_) (ih _ hrest)
    exact h.disjoint h' (precedes_of_mem_calls hrest hc)

/-- Three calls, two of them on one topology. -/
theorem calls_fresh_loosePair :
    (∀ g ∈ [loosePair, chainedRegions, loosePair], g.WellFormed) ∧
      (calls {} [loosePair, chainedRegions, loosePair]).Pairwise fun c c' =>
        ∀ ts ns ts' ns', c.1.Issues c.2 ts ns → c'.1.Issues c'.2 ts' ns' →
          (∀ k, (Tagging.ids k ts).Disjoint (Tagging.ids k ts')) ∧ ns.Disjoint ns' := by
  have hpair := Graph.WellFormed.ofDescription loosePair_ofDescription
  have hchained := Graph.WellFormed.ofDescription chainedRegions_ofDescription
  have hgs : ∀ g ∈ [loosePair, chainedRegions, loosePair], g.WellFormed := by
    simp [hpair, hchained]
  exact ⟨hgs, (calls_fresh {} hgs).2.1⟩

end Session

end StreamTopology
