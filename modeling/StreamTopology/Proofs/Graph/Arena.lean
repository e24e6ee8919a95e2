import StreamTopology.Graph.Basic
import StreamTopology.Proofs.Outcome
import Mathlib.Data.List.Forall2
import Mathlib.Data.List.Nodup

/-!
# The arena of a graph

What a graph may rely on, whatever has been done to it: its order names every live operator once and
nothing else, and a vacant place is a place of the arena that holds nothing. `Graph.WellFormed` says
so. A description gives a well-formed graph, and every edit keeps it well formed.

The second half is about edits of operators in place. An edit of several operators, one after the
other, is one map over the arena (`Graph.mapAt`), and all that later statements need of it is what
it does to look-up.

## Main definitions

* `Graph.WellFormed`
* `Graph.mapAt`

## Main results

* `Graph.WellFormed.ofDescription`, `Graph.WellFormed.add`, `Graph.WellFormed.insertBefore`,
  `Graph.WellFormed.vacate`, `Graph.WellFormed.mapAt`
* `yields_forM_update`: updates of different operators succeed if and only if all of them are live.
-/

namespace StreamTopology

/-- What does not depend on a part of the operators is the same where they are the same without that
part. -/
theorem map_eq_of_map_eq {α : Type} {bare : Operator → Operator} {f : Operator → α}
    {a b : Option Operator} (h : a.map bare = b.map bare) (hf : ∀ op, f (bare op) = f op) :
    a.map f = b.map f := by
  have hcomp : f ∘ bare = f := funext hf
  rw [← hcomp, ← Option.map_map, h, Option.map_map]

/-- A relation that is transitive is transitive on lists. -/
theorem forall₂_trans {α : Type} {R : α → α → Prop} {xs ys zs : List α}
    (htrans : ∀ x y z, R x y → R y z → R x z) (h : List.Forall₂ R xs ys)
    (h' : List.Forall₂ R ys zs) : List.Forall₂ R xs zs := by
  induction h generalizing zs with
  | nil => exact h'
  | cons hxy _ ih =>
    cases h' with
    | cons hyz hrest => exact .cons (htrans _ _ _ hxy hyz) (ih hrest)

namespace Graph

variable {g : Graph} {id x : Handle} {op : Operator}

/-! ### Look-up -/

theorem contains_iff : g.contains id = true ↔ ∃ op, g.get? id = some op := by
  simp [contains, Option.isSome_iff_exists]

theorem lt_of_get? (h : g.get? id = some op) : id.index < g.slots.length := by
  by_contra hlt
  have hnone : g.slots[id.index]? = none := List.getElem?_eq_none (Nat.le_of_not_lt hlt)
  simp [get?, hnone] at h

@[simp] theorem get?_reindexed : g.reindexed.get? x = g.get? x := rfl

@[simp] theorem order_reindexed : g.reindexed.order = g.order := rfl

theorem get?_set (h : g.contains id = true) :
    (g.set id op).get? x = if x = id then some op else g.get? x := by
  obtain ⟨old, hold⟩ := contains_iff.mp h
  have hlt := lt_of_get? hold
  by_cases hx : x = id
  · subst hx
    simp [get?, set, List.getElem?_set_self hlt]
  · have hne : id.index ≠ x.index := fun he => hx (by cases x; cases id; simp_all)
    simp [get?, set, List.getElem?_set_ne hne, hx]

theorem get?_vacate : (g.vacate id).get? x = if x = id then none else g.get? x := by
  by_cases hc : g.contains id = true
  · obtain ⟨old, hold⟩ := contains_iff.mp hc
    have hlt := lt_of_get? hold
    rw [vacate, if_pos hc, get?_reindexed]
    by_cases hx : x = id
    · subst hx
      simp [get?, List.getElem?_set_self hlt]
    · have hne : id.index ≠ x.index := fun he => hx (by cases x; cases id; simp_all)
      simp [get?, List.getElem?_set_ne hne, hx]
  · rw [vacate, if_neg hc]
    by_cases hx : x = id
    · subst hx
      simpa [contains] using hc
    · rw [if_neg hx]

theorem get?_allocate :
    (g.allocate op).2.get? x = if x = (g.allocate op).1 ∧ x.index < (g.allocate op).2.slots.length
      then some op else g.get? x := by
  unfold allocate
  split
  next id rest _ =>
    by_cases hx : x = id
    · subst hx
      by_cases hlt : x.index < g.slots.length
      · simp [get?, hlt]
      · simp [get?, hlt]
    · have hne : id.index ≠ x.index := fun he => hx (by cases x; cases id; simp_all)
      simp [get?, List.getElem?_set_ne hne, hx]
  next =>
    by_cases hx : x = ⟨g.slots.length⟩
    · subst hx
      simp [get?]
    · have hne : x.index ≠ g.slots.length := fun he => hx (by cases x; simp_all)
      rcases Nat.lt_or_gt_of_ne hne with hlt | hgt
      · simp [get?, hx, List.getElem?_append_left hlt]
      · have hge : g.slots.length ≤ x.index := Nat.le_of_lt hgt
        have hge' : (g.slots ++ [some op]).length ≤ x.index := by
          rw [List.length_append]
          exact hgt
        simp [get?, hx, List.getElem?_eq_none hge, List.getElem?_eq_none hge']

/-! ### Well-formed graphs -/

/-- The order names the live operators, each once, and the vacant places are free places of the
arena. -/
structure WellFormed (g : Graph) : Prop where
  order_nodup : g.order.Nodup
  mem_order : ∀ x, x ∈ g.order ↔ g.contains x = true
  vacant_nodup : g.vacant.Nodup
  vacant_free : ∀ x ∈ g.vacant, x.index < g.slots.length ∧ g.get? x = none

theorem WellFormed.mem_order_iff (hg : g.WellFormed) :
    x ∈ g.order ↔ ∃ op, g.get? x = some op :=
  (hg.mem_order x).trans contains_iff

theorem WellFormed.reindexed (hg : g.WellFormed) : g.reindexed.WellFormed :=
  ⟨hg.order_nodup, hg.mem_order, hg.vacant_nodup, hg.vacant_free⟩

theorem mem_range_handles {n : Nat} :
    x ∈ (List.range n).map Handle.mk ↔ x.index < n := by
  cases x
  simp

/-- **A description gives a well-formed graph.** -/
theorem WellFormed.ofDescription {d : Description} (h : ofDescription d = .ok g) :
    g.WellFormed := by
  unfold Graph.ofDescription at h
  split at h
  · cases h
  · cases h
    refine WellFormed.reindexed ⟨?_, fun x => ?_, List.nodup_nil, fun x hx => ?_⟩
    · exact List.nodup_range.map fun a b hab => Handle.mk.inj hab
    · rw [mem_range_handles, contains_iff]
      simp only [get?, List.getElem?_map]
      rcases Nat.lt_or_ge x.index d.operators.length with hlt | hge
      · simp [hlt]
      · simp [Nat.not_lt.mpr hge]
    · cases hx

theorem WellFormed.allocate_fst (hg : g.WellFormed) (op : Operator) :
    g.get? (g.allocate op).1 = none ∧
      (g.allocate op).1.index < (g.allocate op).2.slots.length := by
  unfold allocate
  split
  next id rest hv =>
    obtain ⟨hlt, hfree⟩ := hg.vacant_free id (by rw [hv]; exact List.mem_cons_self)
    exact ⟨hfree, by simpa using hlt⟩
  next => simp [get?]

theorem WellFormed.get?_allocate (hg : g.WellFormed) :
    (g.allocate op).2.get? x = if x = (g.allocate op).1 then some op else g.get? x := by
  rw [Graph.get?_allocate]
  by_cases hx : x = (g.allocate op).1
  · subst hx
    simp [(hg.allocate_fst op).2]
  · simp [hx]

theorem order_allocate (op : Operator) : (g.allocate op).2.order = g.order := by
  unfold allocate
  split <;> rfl

/-- The places that are vacant after an operator has been put into the arena were vacant before, and
its own place is none of them. -/
theorem WellFormed.vacant_allocate (hg : g.WellFormed) (op : Operator) :
    (g.allocate op).2.vacant.Nodup ∧ ∀ x ∈ (g.allocate op).2.vacant,
      x ≠ (g.allocate op).1 ∧ x.index < (g.allocate op).2.slots.length ∧ g.get? x = none := by
  unfold allocate
  split
  next id rest hv =>
    have hnd := hg.vacant_nodup
    rw [hv] at hnd
    obtain ⟨hid, hnd⟩ := List.nodup_cons.mp hnd
    refine ⟨hnd, fun x hx => ?_⟩
    obtain ⟨hlt, hfree⟩ := hg.vacant_free x (by rw [hv]; exact List.mem_cons_of_mem _ hx)
    have hne : x ≠ id := fun he => hid (he ▸ hx)
    exact ⟨hne, by simpa using hlt, hfree⟩
  next hv =>
    refine ⟨hg.vacant_nodup, fun x hx => ?_⟩
    have hnil : x ∈ g.vacant := hx
    rw [hv] at hnil
    cases hnil

/-- An operator put into the arena, with any order that names it besides the others, gives a
well-formed graph. -/
theorem WellFormed.allocated (hg : g.WellFormed) (op : Operator) {order : List Handle}
    (hperm : order.Perm ((g.allocate op).1 :: g.order)) :
    ({ (g.allocate op).2 with order := order } : Graph).WellFormed := by
  have hnone := (hg.allocate_fst op).1
  have hnot : (g.allocate op).1 ∉ g.order := by
    rw [hg.mem_order_iff, hnone]
    simp
  refine ⟨?_, fun x => ?_, ?_, fun x hx => ?_⟩
  · exact (hperm.nodup_iff).mpr (List.nodup_cons.mpr ⟨hnot, hg.order_nodup⟩)
  · have hcontains : ({ (g.allocate op).2 with order := order } : Graph).contains x =
        ((g.allocate op).2.get? x).isSome := rfl
    rw [hperm.mem_iff, List.mem_cons, hcontains, hg.get?_allocate, hg.mem_order x]
    by_cases hx : x = (g.allocate op).1
    · simp [hx]
    · simp [hx, contains]
  · exact (hg.vacant_allocate op).1
  · show x.index < (g.allocate op).2.slots.length ∧ (g.allocate op).2.get? x = none
    obtain ⟨hne, hlt, hfree⟩ := (hg.vacant_allocate op).2 x hx
    rw [hg.get?_allocate, if_neg hne]
    exact ⟨hlt, hfree⟩

theorem perm_insertInFront (anchor new : Handle) :
    ∀ order : List Handle, (insertInFront anchor new order).Perm (new :: order)
  | [] => List.Perm.refl _
  | y :: order => by
    unfold insertInFront
    split
    · exact List.Perm.refl _
    · exact ((perm_insertInFront anchor new order).cons y).trans (List.Perm.swap new y order)

theorem WellFormed.add (hg : g.WellFormed) (op : Operator) : (g.add op).2.WellFormed := by
  have hperm : (g.order ++ [(g.allocate op).1]).Perm ((g.allocate op).1 :: g.order) :=
    List.perm_append_singleton ..
  have := (hg.allocated op hperm).reindexed
  simpa only [Graph.add, order_allocate] using this

theorem WellFormed.insertBefore (hg : g.WellFormed) (anchor : Handle) (op : Operator) :
    (g.insertBefore anchor op).2.WellFormed := by
  have := (hg.allocated op (perm_insertInFront anchor (g.allocate op).1 g.order)).reindexed
  simpa only [Graph.insertBefore, order_allocate] using this

theorem WellFormed.get?_insertBefore (hg : g.WellFormed) {anchor : Handle} :
    (g.insertBefore anchor op).2.get? x =
      if x = (g.insertBefore anchor op).1 then some op else g.get? x :=
  hg.get?_allocate

/-- The place vacated last is given away first. -/
theorem insertBefore_fst {anchor : Handle} {rest : List Handle} (h : g.vacant = id :: rest) :
    (g.insertBefore anchor op).1 = id := by
  simp only [insertBefore, allocate, h]

theorem WellFormed.order_vacate (hg : g.WellFormed) :
    (g.vacate id).order = g.order.filter fun x => x != id := by
  by_cases hc : g.contains id = true
  · rw [vacate, if_pos hc]
    rfl
  · rw [vacate, if_neg hc, eq_comm, List.filter_eq_self]
    intro x hx
    have hne : x ≠ id := fun he => hc ((hg.mem_order id).mp (he ▸ hx))
    simpa using hne

theorem WellFormed.vacate (hg : g.WellFormed) (id : Handle) : (g.vacate id).WellFormed := by
  refine ⟨?_, fun x => ?_, ?_, fun x hx => ?_⟩
  · rw [hg.order_vacate]
    exact hg.order_nodup.filter _
  · rw [hg.order_vacate, List.mem_filter, hg.mem_order, contains_iff, contains_iff, get?_vacate]
    by_cases hx : x = id <;> simp [hx]
  · unfold Graph.vacate
    split
    next hc =>
      obtain ⟨op, hop⟩ := contains_iff.mp hc
      refine List.nodup_cons.mpr ⟨fun hmem => ?_, hg.vacant_nodup⟩
      rw [(hg.vacant_free id hmem).2] at hop
      cases hop
    next => exact hg.vacant_nodup
  · rw [get?_vacate]
    revert hx
    unfold Graph.vacate
    split
    next hc =>
      obtain ⟨op, hop⟩ := contains_iff.mp hc
      intro hx
      rcases List.mem_cons.mp hx with rfl | hx
      · exact ⟨by simpa [Graph.reindexed] using lt_of_get? hop, by simp⟩
      · obtain ⟨hlt, hfree⟩ := hg.vacant_free x hx
        exact ⟨by simpa [Graph.reindexed] using hlt, by simp [hfree]⟩
    next =>
      intro hx
      obtain ⟨hlt, hfree⟩ := hg.vacant_free x hx
      exact ⟨hlt, by simp [hfree]⟩

/-! ### Edits in place -/

/-- The graph with some operators changed. The index stays as it is. -/
def mapAt (g : Graph) (ids : List Handle) (f : Operator → Operator) : Graph :=
  { g with slots := g.slots.mapIdx fun i slot => if Handle.mk i ∈ ids then slot.map f else slot }

variable {ids : List Handle} {f : Operator → Operator}

@[simp] theorem order_mapAt : (g.mapAt ids f).order = g.order := rfl

@[simp] theorem links_mapAt : (g.mapAt ids f).links = g.links := rfl

theorem get?_mapAt :
    (g.mapAt ids f).get? x = if x ∈ ids then (g.get? x).map f else g.get? x := by
  have hx : Handle.mk x.index = x := rfl
  simp only [get?, mapAt, List.getElem?_mapIdx, hx]
  rcases g.slots[x.index]? with _ | slot
  · by_cases hm : x ∈ ids <;> simp [hm]
  · by_cases hm : x ∈ ids <;> simp [hm]

@[simp] theorem contains_mapAt : (g.mapAt ids f).contains x = g.contains x := by
  simp only [contains, get?_mapAt]
  split <;> simp

theorem WellFormed.mapAt (hg : g.WellFormed) (ids : List Handle) (f : Operator → Operator) :
    (g.mapAt ids f).WellFormed := by
  refine ⟨hg.order_nodup, fun x => ?_, hg.vacant_nodup, fun x hx => ?_⟩
  · rw [contains_mapAt]
    exact hg.mem_order x
  · obtain ⟨hlt, hfree⟩ := hg.vacant_free x hx
    refine ⟨by simpa [Graph.mapAt] using hlt, ?_⟩
    rw [get?_mapAt, hfree]
    simp

theorem mapAt_nil : g.mapAt [] f = g := by
  have hslots : g.slots.mapIdx (fun i slot => if Handle.mk i ∈ [] then slot.map f else slot)
      = g.slots := by
    refine List.ext_getElem? fun i => ?_
    simp [List.getElem?_mapIdx]
  rw [mapAt, hslots]

/-- Changing one operator and then others, which differ from it, is changing them all. -/
theorem mapAt_set (h : g.get? id = some op) (hid : id ∉ ids) :
    (g.set id (f op)).mapAt ids f = g.mapAt (id :: ids) f := by
  have hlt := lt_of_get? h
  simp only [mapAt, set]
  congr 1
  refine List.ext_getElem? fun i => ?_
  simp only [List.getElem?_mapIdx, List.mem_cons]
  by_cases hi : id.index = i
  · subst hi
    have hslot : g.slots[id.index]? = some (some op) := by
      have h' : g.slots[id.index]?.join = some op := h
      rcases hs : g.slots[id.index]? with _ | slot
      · simp [hs] at h'
      · simpa [hs] using h'
    have hid' : Handle.mk id.index = id := rfl
    simp [List.getElem?_set_self hlt, hslot, hid', hid]
  · have hne : ¬ Handle.mk i = id := fun he => hi (by rw [← he])
    simp [List.getElem?_set_ne hi, hne]

/-- Overwriting an operator by what becomes of it is changing it. -/
theorem set_eq_mapAt (h : g.get? id = some op) : g.set id (f op) = g.mapAt [id] f := by
  have hset := mapAt_set (f := f) h List.not_mem_nil
  rwa [mapAt_nil] at hset

end Graph

/-! ### The operations on one operator -/

section

variable {g g' : Graph} {id : Handle} {ids : List Handle} {op : Operator} {ops : List Operator}
  {f : Operator → Operator} {u : PUnit} {β : Type} {b : β}

theorem yields_lookup : Yields (GraphM.lookup id) g op g' ↔ g.get? id = some op ∧ g' = g := by
  rw [GraphM.lookup, yields_get_bind]
  rcases g.get? id with _ | op'
  · exact ⟨fun h => absurd h not_yields_throw, fun h => absurd h.1 (by simp)⟩
  · rw [yields_pure, Option.some.injEq, eq_comm]

/-- Looking up a live operator goes on with it. -/
theorem yields_lookup_bind {rest : Operator → GraphM β} (h : g.get? id = some op) :
    Yields (GraphM.lookup id >>= rest) g b g' ↔ Yields (rest op) g b g' := by
  rw [yields_bind]
  constructor
  · rintro ⟨op', t, hop, hrest⟩
    obtain ⟨hop', rfl⟩ := yields_lookup.mp hop
    obtain rfl := Option.some.inj (h.symm.trans hop')
    exact hrest
  · exact fun hrest => ⟨op, g, yields_lookup.mpr ⟨h, rfl⟩, hrest⟩

theorem yields_update :
    Yields (GraphM.update id f) g u g' ↔ ∃ op, g.get? id = some op ∧ g' = g.set id (f op) := by
  simp only [GraphM.update, yields_bind, yields_lookup, yields_modify]
  constructor
  · rintro ⟨op, _, ⟨h, rfl⟩, rfl⟩
    exact ⟨op, h, rfl⟩
  · rintro ⟨op, h, rfl⟩
    exact ⟨op, g, ⟨h, rfl⟩, rfl⟩

theorem yields_update_mapAt :
    Yields (GraphM.update id f) g u g' ↔ g.contains id = true ∧ g' = g.mapAt [id] f := by
  rw [yields_update, Graph.contains_iff]
  constructor
  · rintro ⟨op, hop, rfl⟩
    exact ⟨⟨op, hop⟩, Graph.set_eq_mapAt hop⟩
  · rintro ⟨⟨op, hop⟩, rfl⟩
    exact ⟨op, hop, (Graph.set_eq_mapAt hop).symm⟩

theorem yields_mapM_lookup :
    Yields (ids.mapM GraphM.lookup) g ops g' ↔ ids.map g.get? = ops.map some ∧ g' = g := by
  induction ids generalizing ops with
  | nil =>
    rw [yields_mapM_nil, List.map_nil, @eq_comm _ [], List.map_eq_nil_iff]
  | cons id ids ih =>
    rw [yields_mapM_cons]
    simp only [yields_lookup]
    constructor
    · rintro ⟨op, _, rest, ⟨hop, rfl⟩, hrest, rfl⟩
      obtain ⟨hmap, rfl⟩ := ih.mp hrest
      exact ⟨by simp [hop, hmap], rfl⟩
    · rintro ⟨hmap, rfl⟩
      obtain _ | ⟨op, rest⟩ := ops
      · simp at hmap
      · simp only [List.map_cons, List.cons.injEq] at hmap
        exact ⟨op, _, rest, ⟨hmap.1, rfl⟩, ih.mpr ⟨hmap.2, rfl⟩, rfl⟩

/-- **Updates of different operators** succeed if and only if all of them are live, and then each
is changed once. -/
theorem yields_forM_update (hids : ids.Nodup) :
    Yields (ids.forM fun id => GraphM.update id f) g u g' ↔
      (∀ id ∈ ids, g.contains id = true) ∧ g' = g.mapAt ids f := by
  induction ids generalizing g with
  | nil =>
    rw [yields_forM_nil, Graph.mapAt_nil]
    simp
  | cons id ids ih =>
    obtain ⟨hid, hnd⟩ := List.nodup_cons.mp hids
    rw [yields_forM_cons]
    simp only [yields_update, ih hnd]
    have hlive : ∀ op, g.get? id = some op → ∀ x,
        (g.set id (f op)).contains x = true ↔ g.contains x = true := by
      intro op hop x
      have hc : g.contains id = true := Graph.contains_iff.mpr ⟨op, hop⟩
      simp only [Graph.contains, Graph.get?_set hc]
      by_cases hx : x = id
      · simp [hx, hop]
      · simp [hx]
    constructor
    · rintro ⟨_, ⟨op, hop, rfl⟩, hall, rfl⟩
      refine ⟨fun x hx => ?_, Graph.mapAt_set hop hid⟩
      rcases List.mem_cons.mp hx with rfl | hx
      · exact Graph.contains_iff.mpr ⟨op, hop⟩
      · exact (hlive op hop x).mp (hall x hx)
    · rintro ⟨hall, rfl⟩
      obtain ⟨op, hop⟩ := Graph.contains_iff.mp (hall id List.mem_cons_self)
      refine ⟨_, ⟨op, hop, rfl⟩, fun x hx => ?_, (Graph.mapAt_set hop hid).symm⟩
      exact (hlive op hop x).mpr (hall x (List.mem_cons_of_mem _ hx))

/-- Looking up live operators gives what they are. -/
theorem yields_lookups (h : ∀ id ∈ ids, g.contains id = true) :
    Yields (ids.mapM GraphM.lookup) g (ids.filterMap g.get?) g := by
  refine yields_mapM_lookup.mpr ⟨?_, rfl⟩
  induction ids with
  | nil => rfl
  | cons id ids ih =>
    obtain ⟨op, hop⟩ := Graph.contains_iff.mp (h id List.mem_cons_self)
    simp [hop, ih fun x hx => h x (List.mem_cons_of_mem _ hx)]

/-- Looking up live operators goes on with what they are. -/
theorem yields_lookups_bind {rest : List Operator → GraphM β}
    (h : ∀ id ∈ ids, g.contains id = true) :
    Yields (ids.mapM GraphM.lookup >>= rest) g b g' ↔
      Yields (rest (ids.filterMap g.get?)) g b g' := by
  rw [yields_bind]
  constructor
  · rintro ⟨ops, t, hops, hrest⟩
    obtain ⟨rfl, rfl⟩ := hops.unique (yields_lookups h)
    exact hrest
  · exact fun hrest => ⟨_, _, yields_lookups h, hrest⟩

/-- Updating live operators, each once, goes on with all of them changed. -/
theorem yields_updates_bind {rest : PUnit → GraphM β} (hnd : ids.Nodup)
    (h : ∀ id ∈ ids, g.contains id = true) :
    Yields ((ids.forM fun id => GraphM.update id f) >>= rest) g b g' ↔
      Yields (rest ⟨⟩) (g.mapAt ids f) b g' := by
  rw [yields_bind]
  constructor
  · rintro ⟨_, t, hupdates, hrest⟩
    obtain ⟨_, rfl⟩ := (yields_forM_update hnd).mp hupdates
    exact hrest
  · exact fun hrest => ⟨⟨⟩, _, (yields_forM_update hnd).mpr ⟨h, rfl⟩, hrest⟩

end

end StreamTopology
