import StreamTopology.Proofs.Endings
import StreamTopology.Proofs.Regions.Counters
import StreamTopology.Spl.Application
import Mathlib.Data.List.Sort

/-!
# Host pools

Pools are named by their positions, and a position is taken when a tag set comes up for the first
time. The table only grows at its end: the pool that a look-up finds is found as well in every table
that begins with the one it has left. A tag set is a sorted list, so two of them are the same list
if they are the same set.

## Main definitions

* `HostPools.register`: the table with the pool of an operator.
* `HostPools.Gathered`: the table after some operators.
* `HostPools.Names`: the pool that an operator names.
* `HostPools.Declares`: the table has one pool for each tag set of some operators, and no other.

## Main results

* `TagSet.mem_ofList`, `TagSet.eq_of_mem_iff`: tag sets are sets.
* `HostPools.names_register`: what is looked up for an operator is what it names.
* `HostPools.gathered_foldl`, `HostPools.Gathered.declares`: the table after some operators.
-/

namespace StreamTopology

/-! ### Tag sets -/

namespace TagSet

variable {tag x : String} {ts ts' tags : List String}

theorem mem_insert : x ∈ insert tag ts ↔ x = tag ∨ x ∈ ts := by
  induction ts with
  | nil => simp [insert]
  | cons t ts ih =>
    rw [insert]
    split
    · exact List.mem_cons
    · split
      · rename_i heq
        subst heq
        simp
      · rw [List.mem_cons, ih, List.mem_cons]
        tauto

/-- A sorted list without repetition. -/
def Sorted (ts : List String) : Prop := ts.Pairwise (· < ·)

theorem Sorted.insert (h : Sorted ts) (tag : String) : Sorted (insert tag ts) := by
  induction ts with
  | nil => exact List.pairwise_singleton _ _
  | cons t ts ih =>
    obtain ⟨hfirst, hrest⟩ := List.pairwise_cons.mp h
    rw [TagSet.insert]
    split
    next hlt =>
      refine List.pairwise_cons.mpr ⟨fun x hx => ?_, h⟩
      rcases List.mem_cons.mp hx with rfl | hx
      · exact hlt
      · exact String.lt_trans hlt (hfirst x hx)
    next hlt =>
      split
      · exact h
      · rename_i hne
        refine List.pairwise_cons.mpr ⟨fun x hx => ?_, ih hrest⟩
        rcases mem_insert.mp hx with rfl | hx
        · exact Std.lt_of_le_of_ne (String.not_lt.mp hlt) (Ne.symm hne)
        · exact hfirst x hx

theorem mem_foldl_insert :
    x ∈ tags.foldl (fun ts t => insert t ts) ts ↔ x ∈ ts ∨ x ∈ tags := by
  induction tags generalizing ts with
  | nil => simp
  | cons tag tags ih =>
    rw [List.foldl_cons, ih, mem_insert, List.mem_cons]
    tauto

theorem Sorted.foldl_insert (h : Sorted ts) :
    Sorted (tags.foldl (fun ts t => TagSet.insert t ts) ts) := by
  induction tags generalizing ts with
  | nil => exact h
  | cons tag tags ih => exact ih (h.insert tag)

/-- The tag set of a list has its tags that are not empty. -/
theorem mem_ofList : x ∈ ofList tags ↔ x ∈ tags ∧ x ≠ "" := by
  rw [ofList, mem_foldl_insert, List.mem_filter]
  simp

theorem sorted_ofList : Sorted (ofList tags) := Sorted.foldl_insert List.Pairwise.nil

/-- Tag sets with the same tags are the same. -/
theorem eq_of_mem_iff (h : Sorted ts) (h' : Sorted ts') (hmem : ∀ x, x ∈ ts ↔ x ∈ ts') :
    ts = ts' :=
  List.Pairwise.eq_of_mem_iff h h' hmem

theorem ofList_eq_nil : ofList tags = [] ↔ ∀ x ∈ tags, x = "" := by
  rw [List.eq_nil_iff_forall_not_mem]
  simp only [mem_ofList, not_and, not_not]

end TagSet

/-! ### The table -/

/-- The tag set of an operator. -/
def Operator.tagSet (op : Operator) : List String := TagSet.ofList op.placement.resourceTags

namespace HostPools

variable {ps qs : HostPools} {ts : List String} {p : HostPool} {op : Operator} {ops : List Operator}

theorem poolOf_of_find (h : ps.pools.find? (fun p => p.tags == ts) = some p) :
    ps.poolOf ts = (p.name, ps) := by
  simp only [poolOf, h]

theorem poolOf_of_new (h : ps.pools.find? (fun p => p.tags == ts) = none) :
    ps.poolOf ts = (poolName ps.pools.length,
      ⟨ps.pools ++ [{ name := poolName ps.pools.length, tags := ts }]⟩) := by
  simp only [poolOf, h]

/-- Looking up a tag set finds its pool in the table that it leaves, which begins with the one
before. -/
theorem poolOf_spec (ps : HostPools) (ts : List String) :
    ps.pools <+: (ps.poolOf ts).2.pools ∧
      ∃ p, (ps.poolOf ts).2.pools.find? (fun p => p.tags == ts) = some p ∧
        (ps.poolOf ts).1 = p.name := by
  rcases hfind : ps.pools.find? (fun p => p.tags == ts) with _ | p
  · rw [poolOf_of_new hfind]
    refine ⟨List.prefix_append _ _, { name := poolName ps.pools.length, tags := ts }, ?_, rfl⟩
    rw [List.find?_append, hfind]
    simp
  · rw [poolOf_of_find hfind]
    exact ⟨List.prefix_rfl, p, hfind, rfl⟩

/-- The table with the pool of an operator. -/
def register (ps : HostPools) (op : Operator) : HostPools := (Invocation.poolOf op ps).2

theorem poolOf_eq (op : Operator) (ps : HostPools) : Invocation.poolOf op ps =
    if op.tagSet = [] then (none, ps)
    else (some (ps.poolOf op.tagSet).1, (ps.poolOf op.tagSet).2) := by
  simp only [Invocation.poolOf, Operator.tagSet, List.isEmpty_iff]
  rfl

theorem prefix_register : ps.pools <+: (ps.register op).pools := by
  rw [register, poolOf_eq]
  split
  · exact List.prefix_rfl
  · exact (ps.poolOf_spec _).1

theorem prefix_foldl_register : ps.pools <+: (ops.foldl register ps).pools := by
  induction ops generalizing ps with
  | nil => exact List.prefix_rfl
  | cons op ops ih => exact prefix_register.trans ih

theorem mem_tagSet {tag : String} :
    tag ∈ op.tagSet ↔ tag ∈ op.placement.resourceTags ∧ tag ≠ "" := TagSet.mem_ofList

/-- The pool that an operator names: one whose tags are those of the operator, without the empty
ones. An operator that has no others names none. -/
def Names (ps : HostPools) (op : Operator) : Option String → Prop
  | none => ∀ tag ∈ op.placement.resourceTags, tag = ""
  | some name => (∃ tag ∈ op.placement.resourceTags, tag ≠ "") ∧ ∃ p ∈ ps.pools, p.name = name ∧
      ∀ tag, tag ∈ p.tags ↔ tag ∈ op.placement.resourceTags ∧ tag ≠ ""

theorem names_none (htags : op.tagSet = []) : ps.Names op none := TagSet.ofList_eq_nil.mp htags

theorem names_some (htags : op.tagSet ≠ []) (hp : p ∈ ps.pools) (hsame : p.tags = op.tagSet) :
    ps.Names op (some p.name) := by
  obtain ⟨tag, htag⟩ := List.exists_mem_of_ne_nil _ htags
  refine ⟨⟨tag, mem_tagSet.mp htag⟩, p, hp, rfl, fun tag => ?_⟩
  rw [hsame]
  exact mem_tagSet

/-- **What is looked up for an operator is what it names**, in every table that begins with the one
that the look-up leaves. -/
theorem names_register (h : (ps.register op).pools <+: qs.pools) :
    qs.Names op (Invocation.poolOf op ps).1 := by
  rw [register, poolOf_eq] at h
  rw [poolOf_eq]
  split at h
  next htags =>
    rw [if_pos htags]
    exact names_none htags
  next htags =>
    obtain ⟨_, p, hfind, hname⟩ := ps.poolOf_spec op.tagSet
    rw [if_neg htags, hname]
    exact names_some htags (h.subset (List.mem_of_find?_eq_some hfind))
      (by simpa using List.find?_some hfind)

/-- The table after some operators: pools are named by their positions, no two have one tag set, and
the tag sets are those of the operators that have tags. -/
structure Gathered (ps : HostPools) (ops : List Operator) : Prop where
  numbered : ps.pools.map HostPool.name = (List.range ps.pools.length).map poolName
  distinct : (ps.pools.map HostPool.tags).Nodup
  entered : ∀ op ∈ ops, op.tagSet ≠ [] → ∃ p ∈ ps.pools, p.tags = op.tagSet
  used : ∀ p ∈ ps.pools, ∃ op ∈ ops, op.tagSet ≠ [] ∧ p.tags = op.tagSet

theorem gathered_empty : Gathered {} [] := ⟨rfl, List.nodup_nil, by simp, by simp⟩

/-- **One operator more.** -/
theorem Gathered.register (h : ps.Gathered ops) (op : Operator) :
    (ps.register op).Gathered (ops ++ [op]) := by
  have hused : ∀ p ∈ ps.pools, ∃ op' ∈ ops ++ [op], op'.tagSet ≠ [] ∧ p.tags = op'.tagSet := by
    intro p hp
    obtain ⟨op', hop', hsame⟩ := h.used p hp
    exact ⟨op', List.mem_append_left _ hop', hsame⟩
  rw [HostPools.register, poolOf_eq]
  split
  next htags =>
    refine ⟨h.numbered, h.distinct, fun op' hop' hne => ?_, hused⟩
    rcases List.mem_append.mp hop' with hop' | hop'
    · exact h.entered op' hop' hne
    · exact absurd htags (List.mem_singleton.mp hop' ▸ hne)
  next htags =>
    rcases hfind : ps.pools.find? (fun p => p.tags == op.tagSet) with _ | p
    · have hnew : op.tagSet ∉ ps.pools.map HostPool.tags := by
        rintro hmem
        obtain ⟨p, hp, hsame⟩ := List.mem_map.mp hmem
        exact absurd (List.find?_eq_none.mp hfind p hp) (by simp [hsame])
      rw [poolOf_of_new hfind]
      refine ⟨?_, ?_, fun op' hop' hne => ?_, fun p hp => ?_⟩
      · rw [List.map_append, h.numbered, List.length_append, List.length_singleton,
          List.range_succ, List.map_append]
        rfl
      · rw [List.map_append]
        refine List.nodup_append.mpr ⟨h.distinct, List.nodup_singleton _, ?_⟩
        rintro a ha b hb rfl
        rw [List.mem_singleton.mp hb] at ha
        exact hnew ha
      · rcases List.mem_append.mp hop' with hop' | hop'
        · obtain ⟨p, hp, hsame⟩ := h.entered op' hop' hne
          exact ⟨p, List.mem_append_left _ hp, hsame⟩
        · obtain rfl := List.mem_singleton.mp hop'
          exact ⟨_, List.mem_append_right _ (List.mem_singleton_self _), rfl⟩
      · rcases List.mem_append.mp hp with hp | hp
        · exact hused p hp
        · obtain rfl := List.mem_singleton.mp hp
          exact ⟨op, List.mem_append_right _ (List.mem_singleton_self op), htags, rfl⟩
    · rw [poolOf_of_find hfind]
      refine ⟨h.numbered, h.distinct, fun op' hop' hne => ?_, hused⟩
      rcases List.mem_append.mp hop' with hop' | hop'
      · exact h.entered op' hop' hne
      · obtain rfl := List.mem_singleton.mp hop'
        exact ⟨p, List.mem_of_find?_eq_some hfind, by simpa using List.find?_some hfind⟩

/-- **All operators.** -/
theorem gathered_foldl : (ops.foldl HostPools.register {}).Gathered ops := by
  have hrun : ∀ (todo done : List Operator) (ps : HostPools), ps.Gathered done →
      (todo.foldl HostPools.register ps).Gathered (done ++ todo) := by
    intro todo
    induction todo with
    | nil =>
      intro done ps h
      rwa [List.append_nil]
    | cons op todo ih =>
      intro done ps h
      rw [List.append_cons]
      exact ih _ _ (h.register op)
  exact hrun ops [] {} gathered_empty

/-- The table has one pool for each tag set of the operators and no other, under different names,
and every operator names one of them or none. -/
structure Declares (ps : HostPools) (ops : List Operator) : Prop where
  names : (ps.pools.map HostPool.name).Nodup
  tagSets : ps.pools.Pairwise fun p q => ¬ ∀ tag, tag ∈ p.tags ↔ tag ∈ q.tags
  named : ∀ op ∈ ops, ∃! pool, ps.Names op pool
  used : ∀ p ∈ ps.pools, ∃ op ∈ ops, ps.Names op (some p.name)

theorem Gathered.sorted (h : ps.Gathered ops) (hp : p ∈ ps.pools) : TagSet.Sorted p.tags := by
  obtain ⟨op, _, _, hsame⟩ := h.used p hp
  rw [hsame]
  exact TagSet.sorted_ofList

/-- Pools with one tag set are one pool. -/
theorem Gathered.eq_of_tags {q : HostPool} (h : ps.Gathered ops) (hp : p ∈ ps.pools)
    (hq : q ∈ ps.pools) (hsame : p.tags = q.tags) : p = q :=
  List.inj_on_of_nodup_map h.distinct hp hq hsame

/-- **An operator names one pool or none.** -/
theorem Gathered.named (h : ps.Gathered ops) (hop : op ∈ ops) : ∃! pool, ps.Names op pool := by
  by_cases htags : op.tagSet = []
  · refine ⟨none, names_none htags, fun pool hpool => ?_⟩
    rcases pool with _ | name
    · rfl
    · obtain ⟨⟨tag, htag, hfull⟩, _⟩ := hpool
      exact absurd (TagSet.ofList_eq_nil.mp htags tag htag) hfull
  · obtain ⟨p, hp, hsame⟩ := h.entered op hop htags
    refine ⟨some p.name, names_some htags hp hsame, fun pool hpool => ?_⟩
    rcases pool with _ | name
    · exact absurd (TagSet.ofList_eq_nil.mpr hpool) htags
    · obtain ⟨_, q, hq, rfl, hmem⟩ := hpool
      have htagsq : q.tags = op.tagSet := TagSet.eq_of_mem_iff (h.sorted hq) TagSet.sorted_ofList
        fun tag => (hmem tag).trans mem_tagSet.symm
      rw [h.eq_of_tags hq hp (htagsq.trans hsame.symm)]

theorem Gathered.declares (h : ps.Gathered ops) : ps.Declares ops := by
  refine ⟨?_, ?_, fun op hop => h.named hop, fun p hp => ?_⟩
  · rw [h.numbered]
    exact List.nodup_range.map (Decimal.numbered_injective _)
  · have hdistinct : ps.pools.Pairwise fun p q => p.tags ≠ q.tags :=
      List.pairwise_map.mp h.distinct
    refine hdistinct.imp_of_mem fun hp hq hne hsame => hne ?_
    exact TagSet.eq_of_mem_iff (h.sorted hp) (h.sorted hq) hsame
  · obtain ⟨op, hop, htags, hsame⟩ := h.used p hp
    exact ⟨op, hop, names_some htags hp hsame⟩

end HostPools

end StreamTopology
