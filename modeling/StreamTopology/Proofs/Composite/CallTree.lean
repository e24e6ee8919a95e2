import StreamTopology.Proofs.Composite.Partition
import StreamTopology.Proofs.Regions.Counters
import Mathlib.Data.List.Perm.Basic
import Mathlib.Data.List.Nodup

/-!
# Composites form a tree of calls

A region takes its number when it is opened, and its composite takes its position when it is
finished. Between the two lies everything inside the region, so neither order is the other: the
composite around is numbered first and finished last. What links them is the name. A composite is
finished under the number of its region, and the invocation that the composite around gets is of
that name and of that position.

So names are compared with numbers, and calls with positions, as whole lists up to their order.
Filling a plan uses up as many numbers as it finishes composites, each once, and leaves one call for
each of them, either in a composite that was finished later or among the members that it returns.
Nothing is asked of the graph: a separation that succeeds has met no region inside itself.

## Main definitions

* `Composite.calls`: what a composite invokes, by position and by name.
* `Separation.Grown`: what is known of the composites that are finished while a plan is filled.
* `Separation.CallTree`: the composites are numbered from a number on, and each but the main one is
  invoked once, by a later one, under its own name.

## Main results

* `Separation.fill_grown`: filling a plan.
* `Separation.separate_grown`, `Separation.separate_callTree`: a separation that succeeds.
-/

namespace StreamTopology

/-! ### Calls -/

/-- The position of the composite that the member invokes, and the name that it invokes. -/
def Member.call? : Member → Option (Nat × String)
  | .node _ => none
  | .invocation op k => some (k, op.kind)

namespace Composite

/-- What the composite invokes. -/
def calls (c : Composite) : List (Nat × String) := c.members.filterMap Member.call?

/-- The positions of composites, from `m` on, with their names. -/
def labels (m : Nat) (cs : List Composite) : List (Nat × String) :=
  (cs.zipIdx m).map fun c => (c.2, c.1.name)

variable {c : Composite} {cs : List Composite} {i k m : Nat} {op : Operator} {name : String}

theorem parallelName_injective : Function.Injective parallelName := Decimal.numbered_injective _

theorem mem_calls : (k, name) ∈ c.calls ↔ ∃ op, .invocation op k ∈ c.members ∧ op.kind = name := by
  rw [calls, List.mem_filterMap]
  constructor
  · rintro ⟨m, hm, hcall⟩
    cases m with
    | node id => cases hcall
    | invocation op k' =>
      obtain ⟨rfl, rfl⟩ := Prod.mk.inj (Option.some.inj hcall)
      exact ⟨op, hm, rfl⟩
  · rintro ⟨op, hm, rfl⟩
    exact ⟨_, hm, rfl⟩

theorem length_invocations : (c.invocations k).length = (c.calls.map Prod.fst).count k := by
  rw [invocations, calls]
  induction c.members with
  | nil => rfl
  | cons m ms ih =>
    cases m with
    | node id => exact ih
    | invocation op k' =>
      by_cases hk : k' = k
      · simpa [Member.call?, hk] using ih
      · simpa [Member.call?, hk] using ih

@[simp] theorem labels_append (cs' : List Composite) :
    labels m (cs ++ cs') = labels m cs ++ labels (m + cs.length) cs' := by
  rw [labels, List.zipIdx_append, List.map_append, labels, labels]

@[simp] theorem labels_cons : labels m (c :: cs) = (m, c.name) :: labels (m + 1) cs := rfl

theorem mem_labels : (k, name) ∈ labels m cs ↔
    ∃ i c, cs[i]? = some c ∧ k = m + i ∧ name = c.name := by
  simp only [labels, List.mem_map, Prod.exists, List.mk_mem_zipIdx_iff_le_and_getElem?_sub,
    Prod.mk.injEq]
  constructor
  · rintro ⟨c, k, ⟨hle, hc⟩, rfl, rfl⟩
    exact ⟨k - m, c, hc, by omega, rfl⟩
  · rintro ⟨i, c, hc, rfl, rfl⟩
    exact ⟨c, m + i, ⟨by omega, by rwa [Nat.add_sub_cancel_left]⟩, rfl, rfl⟩

theorem map_fst_labels : (labels m cs).map Prod.fst = List.range' m cs.length := by
  rw [labels, List.map_map, ← List.zipIdx_map_snd m cs]
  rfl

end Composite

namespace Separation

open StreamTopology.Graph

variable {g : Graph} {values : SubmissionValues} {P : Plan} {s s' : Separation} {p : Handle}
  {inv op : Operator} {ms members others : List Member} {cs new new₁ new₂ : List Composite}
  {c : Composite} {k m n number : Nat}

/-! ### One region -/

theorem openRegion_numbers (h : Yields (openRegion p) s (number, inv) s') :
    number = s.count ∧ s'.count = s.count + 1 ∧ s'.composites = s.composites ∧
      inv.kind = Composite.parallelName number := by
  obtain ⟨marker, output, g', _, _, hnumber, rfl, _, rfl⟩ := yields_openRegion h
  exact ⟨hnumber, rfl, rfl, rfl⟩

/-- What is called does not depend on what is added when a region ends. -/
theorem calls_of_opening (h : ms.map Member.opening = members.map Member.opening) :
    ms.filterMap Member.call? = members.filterMap Member.call? := by
  have hopening : ∀ ms : List Member,
      (ms.map Member.opening).filterMap Member.call? = ms.filterMap Member.call? := by
    intro ms
    rw [List.filterMap_map]
    refine congrFun (congrArg List.filterMap (funext fun m => ?_)) _
    cases m <;> rfl
  rw [← hopening ms, h, hopening]

/-- Ending a region takes no number, and the composite and its invocation keep their names. -/
theorem closeRegion_names {exit : Option Handle} (h : Yields (closeRegion k exit inv) s op s') :
    s'.count = s.count ∧ op.kind = inv.kind ∧
      ∃ f, s'.composites = s.composites.modify k f ∧ ∀ c, (f c).name = c.name := by
  rw [closeRegion, yields_bind] at h
  obtain ⟨_, t, hin, h⟩ := h
  obtain rfl := yields_modify.mp hin
  rw [yields_get_bind] at h
  rcases exit with _ | e
  · obtain ⟨rfl, rfl⟩ := yields_pure.mp h
    exact ⟨rfl, rfl, _, rfl, fun c => rfl⟩
  · obtain ⟨a, rs, g', _, _, rfl, _, rfl⟩ := yields_leaveRegion h
    exact ⟨rfl, rfl, _, List.modify_modify_eq .., fun c => rfl⟩

/-- Ending a region, for the composite that was finished last. -/
theorem closeRegion_last {exit : Option Handle}
    (h : Yields (closeRegion cs.length exit inv) s op s') (hs : s.composites = cs ++ [c]) :
    s'.count = s.count ∧ op.kind = inv.kind ∧ ∃ c', s'.composites = cs ++ [c'] ∧
      c'.name = c.name ∧ c'.isMain = c.isMain ∧ c'.calls = c.calls := by
  obtain ⟨hcount, hkind, f, hcomp, hname⟩ := closeRegion_names h
  obtain ⟨_, hcompleted, _⟩ := closeRegion_completes h
  rw [hs] at hcomp hcompleted
  rw [modify_snoc] at hcomp
  obtain ⟨c', hcomp', hopening, hmain⟩ := hcompleted.snoc
  have hsame : f c = c' := by
    have := hcomp.symm.trans hcomp'
    exact (List.cons.inj (List.append_cancel_left this)).1
  exact ⟨hcount, hkind, c', hcomp', hsame ▸ hname c, hmain, calls_of_opening hopening⟩

/-! ### Filling a plan -/

/-- The composites `new` have been finished at the positions from `m` on while the members `ms` were
gathered, and the numbers from `n` on have been taken. -/
structure Grown (n m : Nat) (ms : List Member) (new : List Composite) : Prop where
  inner : ∀ c ∈ new, c.isMain = false
  /-- Each number is the name of one composite. -/
  named : (new.map Composite.name).Perm
    ((List.range' n new.length).map Composite.parallelName)
  /-- Each composite is called once, by a member or from another composite. -/
  called : (ms.filterMap Member.call? ++ new.flatMap Composite.calls).Perm
    (Composite.labels m new)
  /-- A composite calls earlier ones. -/
  earlier : ∀ i c, new[i]? = some c → ∀ call ∈ c.calls, call.1 < m + i

theorem Grown.nil : Grown n m [] [] := by
  refine ⟨by simp, .nil, .nil, fun i c hc => ?_⟩
  rw [List.getElem?_nil] at hc
  cases hc

theorem Grown.node (x : Handle) (h : Grown n m ms new) : Grown n m (.node x :: ms) new :=
  ⟨h.inner, h.named, h.called, h.earlier⟩

theorem Grown.call_lt (h : Grown n m ms new) {call : Nat × String}
    (hcall : call ∈ ms.filterMap Member.call?) : call.1 < m + new.length := by
  obtain ⟨i, c, hc, hk, _⟩ :=
    Composite.mem_labels.mp (h.called.mem_iff.mp (List.mem_append_left _ hcall))
  have hlt := (List.getElem?_eq_some_iff.mp hc).1
  omega

/-- A region: what is finished inside, its own composite, and what is finished behind it. -/
theorem Grown.region (h₁ : Grown (n + 1) m members new₁)
    (h₂ : Grown (n + 1 + new₁.length) (m + new₁.length + 1) others new₂)
    (hname : c.name = Composite.parallelName n) (hmain : c.isMain = false)
    (hcalls : c.calls = members.filterMap Member.call?)
    (hkind : op.kind = Composite.parallelName n) :
    Grown n m (.invocation op (m + new₁.length) :: others) (new₁ ++ c :: new₂) where
  inner := by
    simpa [or_imp, forall_and] using ⟨h₁.inner, hmain, h₂.inner⟩
  named := by
    have hrange : List.range' n (new₁ ++ c :: new₂).length =
        n :: (List.range' (n + 1) new₁.length ++
          List.range' (n + 1 + new₁.length) new₂.length) := by
      rw [List.range'_append_1, List.length_append, List.length_cons, ← List.range'_succ]
      congr 1
    rw [hrange, List.map_append, List.map_cons, List.map_cons, List.map_append, hname]
    exact List.perm_middle.trans ((h₁.named.append h₂.named).cons _)
  called := by
    -- the call of the region takes the place of its composite, and what its members call is what
    -- its composite calls
    have hboth := h₁.called.append (h₂.called.cons (m + new₁.length, c.name))
    rw [Composite.labels_append, Composite.labels_cons]
    refine List.Perm.trans ?_ hboth
    rw [← hcalls, List.perm_iff_count]
    intro call
    simp only [List.filterMap_cons, Member.call?, hkind, ← hname, List.flatMap_append,
      List.flatMap_cons, List.count_append, List.count_cons]
    omega
  earlier := by
    intro i d hd call hcall
    rcases Nat.lt_trichotomy i new₁.length with hi | rfl | hi
    · rw [List.getElem?_append_left hi] at hd
      exact h₁.earlier i d hd call hcall
    · rw [List.getElem?_append_right (Nat.le_refl _), Nat.sub_self, List.getElem?_cons_zero] at hd
      obtain rfl := Option.some.inj hd
      exact h₁.call_lt (hcalls ▸ hcall)
    · obtain ⟨j, rfl⟩ : ∃ j, i = new₁.length + (j + 1) := ⟨i - new₁.length - 1, by omega⟩
      rw [List.getElem?_append_right (by omega), Nat.add_sub_cancel_left,
        List.getElem?_cons_succ] at hd
      have := h₂.earlier j d hd call hcall
      omega

/-- **Filling a plan** takes as many numbers as it finishes composites. -/
theorem fill_grown (h : Yields (fill values P) s ms s') :
    ∃ new, s'.composites = s.composites ++ new ∧ s'.count = s.count + new.length ∧
      Grown s.count s.composites.length ms new := by
  induction P generalizing s s' ms with
  | done exit =>
    obtain ⟨rfl, rfl⟩ := yields_pure.mp h
    exact ⟨[], (List.append_nil _).symm, rfl, .nil⟩
  | node x rest ih =>
    simp only [fill, yields_bind, yields_pure] at h
    obtain ⟨ms', t, hrest, rfl, rfl⟩ := h
    obtain ⟨new, hcomp, hcount, hgrown⟩ := ih hrest
    exact ⟨new, hcomp, hcount, hgrown.node x⟩
  | region p inside rest ihInside ihRest =>
    simp only [fill, yields_bind, yields_pure] at h
    obtain ⟨⟨number, inv⟩, t₁, hopen, members, t₂, hinside, k, t₃, hfinish, op, t₄, hclose, others,
      t₅, hrest, rfl, rfl⟩ := h
    obtain ⟨rfl, hcount₁, hcomp₁, hkind⟩ := openRegion_numbers hopen
    obtain ⟨new₁, hcomp₂, hcount₂, hgrown₁⟩ := ihInside hinside
    obtain ⟨rfl, ps, _, rfl⟩ := yields_finish hfinish
    obtain ⟨hcount₄, hkind', c, hcomp₄, hname, hmain, hcalls⟩ := closeRegion_last hclose rfl
    obtain ⟨new₂, hcomp₅, hcount₅, hgrown₂⟩ := ihRest hrest
    rw [hcount₁, hcomp₁] at hgrown₁
    rw [hcomp₁] at hcomp₂
    have hlen : t₂.composites.length = s.composites.length + new₁.length := by
      rw [hcomp₂, List.length_append]
    have hnext : t₄.count = s.count + 1 + new₁.length := by
      rw [hcount₄, hcount₂, hcount₁]
    rw [hnext, hcomp₄, List.length_append, List.length_singleton, hlen] at hgrown₂
    refine ⟨new₁ ++ c :: new₂, ?_, ?_, ?_⟩
    · rw [hcomp₅, hcomp₄, hcomp₂, List.append_assoc, List.append_assoc, List.singleton_append]
    · rw [hcount₅, hnext, List.length_append, List.length_cons]
      omega
    · rw [hlen]
      exact hgrown₁.region hgrown₂ hname hmain hcalls (hkind'.trans hkind)

/-! ### The whole separation -/

/-- The composites are a tree of calls from the main one, which is the last, and the others have the
numbers from `n` on. -/
structure CallTree (n : Nat) (cs : List Composite) : Prop where
  nonempty : cs ≠ []
  /-- The last composite and only it is the main one. -/
  main : ∀ i c, cs[i]? = some c → (c.isMain = true ↔ i + 1 = cs.length)
  /-- The others are named with the numbers from `n` on, each once. -/
  named : (cs.dropLast.map Composite.name).Perm
    ((List.range' n (cs.length - 1)).map Composite.parallelName)
  distinct : (cs.dropLast.map Composite.name).Nodup
  /-- Each of the others is invoked by one member of one composite, which comes later, and under
  its own name. -/
  invoked : ∀ i c, cs[i]? = some c → i + 1 < cs.length →
    ∃ j d op, i < j ∧ cs[j]? = some d ∧ d.invocations i = [op] ∧ op.kind = c.name ∧
      ∀ j' d', cs[j']? = some d' → j' ≠ j → d'.invocations i = []
  /-- Nothing else is invoked. -/
  only : ∀ c ∈ cs, ∀ i, c.invocations i ≠ [] → i + 1 < cs.length

/-- Calls that are all different are one in each composite, and in one composite only. -/
theorem eq_of_call (hcalls : ((cs.flatMap Composite.calls).map Prod.fst).Nodup) {i j : Nat}
    {d : Composite} {name : String} (hd : cs[j]? = some d) (hcall : (i, name) ∈ d.calls) :
    (∃ op, d.invocations i = [op] ∧ op.kind = name) ∧
      ∀ j' d', cs[j']? = some d' → j' ≠ j → d'.invocations i = [] := by
  rw [List.map_flatMap, List.nodup_flatMap] at hcalls
  obtain ⟨hnodup, hpairwise⟩ := hcalls
  have hmem : i ∈ d.calls.map Prod.fst := List.mem_map_of_mem hcall
  constructor
  · have hlen : (d.invocations i).length = 1 := by
      rw [Composite.length_invocations]
      exact List.count_eq_one_of_mem (hnodup d (List.mem_of_getElem? hd)) hmem
    obtain ⟨op, hop⟩ := List.length_eq_one_iff.mp hlen
    obtain ⟨op', hop', hname⟩ := Composite.mem_calls.mp hcall
    rw [← mem_invocations, hop, List.mem_singleton] at hop'
    exact ⟨op, hop, hop' ▸ hname⟩
  · intro j' d' hd' hj
    rw [List.eq_nil_iff_length_eq_zero, Composite.length_invocations, List.count_eq_zero]
    intro hmem'
    rw [List.pairwise_iff_getElem] at hpairwise
    obtain ⟨hlt, rfl⟩ := List.getElem?_eq_some_iff.mp hd
    obtain ⟨hlt', rfl⟩ := List.getElem?_eq_some_iff.mp hd'
    rcases Nat.lt_or_gt_of_ne hj with hj | hj
    · exact hpairwise j' j hlt' hlt hj hmem' hmem
    · exact hpairwise j j' hlt hlt' hj hmem hmem'

/-- Only the last composite is the main one. -/
theorem isMain_iff (hinner : ∀ d ∈ new, d.isMain = false) (hmain : c.isMain = true) {i : Nat}
    {d : Composite} (hd : (new ++ [c])[i]? = some d) :
    d.isMain = true ↔ i + 1 = (new ++ [c]).length := by
  rw [List.length_append, List.length_singleton]
  rcases Nat.lt_or_ge i new.length with hi | hi
  · rw [List.getElem?_append_left hi] at hd
    rw [hinner d (List.mem_of_getElem? hd)]
    simp only [Bool.false_eq_true, false_iff]
    omega
  · have hlt := (List.getElem?_eq_some_iff.mp hd).1
    rw [List.length_append, List.length_singleton] at hlt
    obtain rfl : i = new.length := by omega
    rw [List.getElem?_append_right (Nat.le_refl _), Nat.sub_self] at hd
    obtain rfl := Option.some.inj hd
    simp [hmain]

/-- What has been finished while the members of the main composite were gathered, together with the
main composite. -/
theorem Grown.callTree (h : Grown n 0 c.members new) (hmain : c.isMain = true) :
    CallTree n (new ++ [c]) := by
  have hlength : (new ++ [c]).length = new.length + 1 := by simp
  have hcalled : ((new ++ [c]).flatMap Composite.calls).Perm (Composite.labels 0 new) := by
    rw [List.flatMap_append, List.flatMap_singleton]
    exact List.perm_append_comm.trans h.called
  have hpositions : ((new ++ [c]).flatMap Composite.calls).map Prod.fst |>.Perm
      (List.range' 0 new.length) := by
    rw [← Composite.map_fst_labels]
    exact hcalled.map _
  have hnodup := hpositions.nodup_iff.mpr List.nodup_range'
  refine ⟨by simp, fun i d hd => ?_, ?_, ?_, fun i d hd hi => ?_, fun d hd i hi => ?_⟩
  · exact isMain_iff h.inner hmain hd
  · rw [List.dropLast_concat, hlength, Nat.add_sub_cancel]
    exact h.named
  · rw [List.dropLast_concat]
    exact h.named.nodup_iff.mpr (List.Nodup.map Composite.parallelName_injective List.nodup_range')
  · rw [hlength] at hi
    rw [List.getElem?_append_left (by omega)] at hd
    have hlabel : (i, d.name) ∈ Composite.labels 0 new :=
      Composite.mem_labels.mpr ⟨i, d, hd, (Nat.zero_add i).symm, rfl⟩
    obtain ⟨e, he, hcall⟩ := List.mem_flatMap.mp (hcalled.mem_iff.mpr hlabel)
    obtain ⟨j, hj⟩ := List.mem_iff_getElem?.mp he
    obtain ⟨⟨op, hop, hname⟩, hothers⟩ := eq_of_call hnodup hj hcall
    refine ⟨j, e, op, ?_, hj, hop, hname, hothers⟩
    rcases Nat.lt_or_ge j new.length with hlt | hge
    · rw [List.getElem?_append_left hlt] at hj
      have := h.earlier j e hj _ hcall
      omega
    · omega
  · obtain ⟨op, hop⟩ := List.exists_mem_of_ne_nil _ hi
    have hcall : (i, op.kind) ∈ d.calls :=
      Composite.mem_calls.mpr ⟨op, mem_invocations.mp hop, rfl⟩
    have hi : i ∈ List.range' 0 new.length :=
      hpositions.mem_iff.mp (List.mem_map_of_mem (List.mem_flatMap.mpr ⟨d, hd, hcall⟩))
    rw [List.mem_range'_1] at hi
    omega

/-- **The main composite is the last one**, and the only one that is the main one. The others are
those of the parallel regions. -/
theorem separate_grown (hrun : Yields (separate values) { graph := g, count := n } cs s') :
    ∃ inner main, cs = inner ++ [main] ∧ main.isMain = true ∧ s'.count = n + inner.length ∧
      Grown n 0 main.members inner := by
  obtain ⟨root, ms, s₁, position, _, _, hfill, hfinish, rfl⟩ := yields_separate.mp hrun
  obtain ⟨new, hcomp, hcount, hgrown⟩ := fill_grown hfill
  obtain ⟨_, ps, _, rfl⟩ := yields_finish hfinish
  rw [List.nil_append] at hcomp
  refine ⟨new, { mainComposite g ms with parameters := ps }, ?_, rfl, hcount, hgrown⟩
  rw [hcomp]

/-- **Composites form a tree of calls.** If a separation that numbers regions from `n` on succeeds
with one composite more than `k`, then the next number is `n + k`, the last composite is the main
one, the others have the numbers between, and each of them is invoked exactly once, under its name
and by a composite that comes later. -/
theorem separate_callTree (hrun : Yields (separate values) { graph := g, count := n } cs s') :
    ∃ k, cs.length = k + 1 ∧ s'.count = n + k ∧ CallTree n cs := by
  obtain ⟨inner, main, rfl, hmain, hcount, hgrown⟩ := separate_grown hrun
  refine ⟨inner.length, ?_, hcount, hgrown.callTree hmain⟩
  rw [List.length_append, List.length_singleton]

theorem separate_callTree_nestedRegions :
    ∃ cs s', Yields (separate {}) { graph := nestedRegions, count := 3 } cs s' ∧
      ∃ k, cs.length = k + 1 ∧ s'.count = 3 + k ∧ CallTree 3 cs := by
  have hplan : nestedRegions.plan = .ok nestedPlan :=
    planFrom_of_within (n := 12) (by decide)
  have hseparate : ∃ cs s', Yields (separate {}) { graph := nestedRegions, count := 3 } cs s' :=
    exists_separate hplan rfl (by decide +kernel)
  obtain ⟨cs, s', hrun⟩ := hseparate
  exact ⟨cs, s', hrun, separate_callTree hrun⟩

end Separation

end StreamTopology
