import StreamTopology.Proofs.Composite.CallTree
import StreamTopology.Proofs.Spl.Emission
import Mathlib.Data.List.Induction

/-!
# Colocation keys that are scoped to a channel

A table tells which keys are scoped to a channel: for each key that comes up, whether the main
composite has it and how many parallel composites have it. A composite enters a key once, however
many of its operators have the key. So the table counts composites, and a key is scoped if one
parallel composite has it and no other composite.

All operators with a key are emitted with one table, so they get the same colocation.

## Main definitions

* `Composite.Uses`: a composite has an operator with a key.
* `Composite.usage?`: the use of a key as the table should have it.
* `Invocation.Places`: the text of an operator that is colocated at an expression.
* `Separation.Colocated`: the colocation of the operators with a key.

## Main results

* `Composite.lookup_noteKeys`, `Composite.lookup_colocationUsages`: the table after a composite, and
  after all of them.
* `Composite.mem_scopedKeys`: when a key is scoped.
* `Separation.separate_colocated`: the colocations of a separation that succeeds.
-/

namespace StreamTopology

/-! ### The table -/

/-- The use of a key with one composite more that has it. -/
def ColocationUsage.entered (isMain : Bool) (u : ColocationUsage) : ColocationUsage :=
  if isMain then { u with main := true } else { u with parallel := u.parallel + 1 }

namespace ColocationUsages

variable {us : ColocationUsages} {u : ColocationUsage} {seen keys : List String} {key k : String}
  {f : ColocationUsage → ColocationUsage} {isMain : Bool}

theorem lookup_cons :
    List.lookup key ((k, u) :: us) = if key = k then some u else us.lookup key := by
  rw [List.lookup_cons]
  by_cases hk : key = k
  · simp [hk]
  · rw [if_neg hk, beq_false_of_ne hk]

theorem lookup_alter : (us.alter k f).lookup key =
    if key = k then some (f ((us.lookup key).getD {})) else us.lookup key := by
  induction us with
  | nil => exact lookup_cons
  | cons e us ih =>
    obtain ⟨k', u⟩ := e
    rw [alter]
    split
    next hk =>
      subst hk
      rw [lookup_cons, lookup_cons]
      by_cases h : key = k' <;> simp [h]
    next hk =>
      rw [lookup_cons, lookup_cons, ih]
      by_cases h : key = k'
      · subst h
        simp [hk]
      · simp [h]

theorem map_fst_alter : (us.alter k f).map Prod.fst =
    if k ∈ us.map Prod.fst then us.map Prod.fst else us.map Prod.fst ++ [k] := by
  induction us with
  | nil => rfl
  | cons e us ih =>
    obtain ⟨k', u⟩ := e
    rw [alter]
    by_cases hk : k' = k
    · simp [hk]
    · rw [if_neg hk, List.map_cons, ih, List.map_cons]
      by_cases h : k ∈ us.map Prod.fst
      · simp [h]
      · simp [h, Ne.symm hk]

theorem nodup_alter (h : (us.map Prod.fst).Nodup) : ((us.alter k f).map Prod.fst).Nodup := by
  rw [map_fst_alter]
  split
  · exact h
  · rename_i hk
    exact List.nodup_append.mpr ⟨h, List.nodup_singleton k, fun a ha b hb hab =>
      hk (List.mem_singleton.mp hb ▸ hab ▸ ha)⟩

/-- In a table with each key once, what is found is what is there. -/
theorem mem_iff_lookup (h : (us.map Prod.fst).Nodup) : (key, u) ∈ us ↔ us.lookup key = some u := by
  induction us with
  | nil => simp
  | cons e us ih =>
    obtain ⟨k, u'⟩ := e
    obtain ⟨hk, hnodup⟩ := List.nodup_cons.mp h
    rw [lookup_cons, List.mem_cons, ih hnodup]
    split
    next heq =>
      subst heq
      have habsent : (key, u) ∉ us := fun hmem => hk (List.mem_map.mpr ⟨_, hmem, rfl⟩)
      simp [(ih hnodup).not.mp habsent, eq_comm]
    next hne => simp [hne]

/-- **One operator.** Its key is entered unless the composite has entered it before. -/
theorem lookup_noteKey : (noteKey isMain (us, seen) k).1.lookup key =
    if key = k ∧ (isMain = true ∨ key ∉ seen) then
      some (((us.lookup key).getD {}).entered isMain) else us.lookup key := by
  rw [noteKey]
  cases isMain with
  | true =>
    simp only [if_true, true_or, and_true, lookup_alter]
    rfl
  | false =>
    by_cases hk : k ∈ seen
    · simp only [Bool.false_eq_true, if_false, List.contains_iff_mem, hk, if_true, false_or]
      rw [if_neg]
      rintro ⟨rfl, hnot⟩
      exact hnot hk
    · simp only [Bool.false_eq_true, if_false, List.contains_iff_mem, hk, false_or, lookup_alter]
      by_cases h : key = k
      · subst h
        simp only [hk, not_false_eq_true, and_self, if_true]
        rfl
      · simp only [h, false_and, if_false]

/-- The keys that the composite has entered. -/
theorem mem_noteKey : key ∈ (noteKey isMain (us, seen) k).2 ↔
    key ∈ seen ∨ key = k ∧ isMain = false := by
  rw [noteKey]
  cases isMain with
  | true => simp
  | false =>
    by_cases hk : k ∈ seen
    · simp only [Bool.false_eq_true, if_false, List.contains_iff_mem, hk, if_true, and_true]
      exact ⟨Or.inl, fun h => h.elim id fun h => h ▸ hk⟩
    · simp only [Bool.false_eq_true, if_false, List.contains_iff_mem, hk, and_true, List.mem_cons]
      exact or_comm

theorem nodup_noteKey (h : (us.map Prod.fst).Nodup) :
    ((noteKey isMain (us, seen) k).1.map Prod.fst).Nodup := by
  rw [noteKey]
  split
  · exact nodup_alter h
  · split
    · exact h
    · exact nodup_alter h

/-- **All operators of a composite.** A key is entered once, however often it comes up. -/
theorem lookup_foldl_noteKey : (keys.foldl (noteKey isMain) (us, seen)).1.lookup key =
    if key ∈ keys ∧ (isMain = true ∨ key ∉ seen) then
      some (((us.lookup key).getD {}).entered isMain) else us.lookup key := by
  induction keys generalizing us seen with
  | nil => simp
  | cons k keys ih =>
    rw [List.foldl_cons, ← Prod.mk.eta (p := noteKey isMain (us, seen) k), ih]
    simp only [mem_noteKey, lookup_noteKey, List.mem_cons]
    by_cases h : key = k
    · -- it counts the first time, and in the main composite once more makes no difference
      subst h
      cases isMain <;> by_cases hmem : key ∈ keys <;> by_cases hseen : key ∈ seen <;>
        simp [hmem, hseen, ColocationUsage.entered]
    · simp [h]

theorem nodup_foldl_noteKey (h : (us.map Prod.fst).Nodup) :
    ((keys.foldl (noteKey isMain) (us, seen)).1.map Prod.fst).Nodup := by
  induction keys generalizing us seen with
  | nil => exact h
  | cons k keys ih => exact ih (nodup_noteKey h)

end ColocationUsages

/-! ### Composites -/

namespace Composite

variable {g : Graph} {us : ColocationUsages} {c main : Composite} {cs inner : List Composite}
  {key : String}

/-- An operator of the graph that is a member of the composite has the key. -/
def Uses (g : Graph) (c : Composite) (key : String) : Prop :=
  ∃ x op, Member.node x ∈ c.members ∧ g.get? x = some op ∧ op.placement.colocateKey = some key

theorem mem_nodes {x : Handle} : x ∈ c.nodes ↔ Member.node x ∈ c.members := by
  rw [nodes, List.mem_filterMap]
  constructor
  · rintro ⟨m, hm, hx⟩
    cases m with
    | node y =>
      obtain rfl := Option.some.inj hx
      exact hm
    | invocation op k => cases hx
  · exact fun hx => ⟨_, hx, rfl⟩

theorem mem_keys : key ∈ c.keys g ↔ c.Uses g key := by
  simp only [keys, List.mem_filterMap, mem_nodes, Option.bind_eq_some_iff, Uses]
  exact ⟨fun ⟨x, hx, op, hop⟩ => ⟨x, op, hx, hop⟩, fun ⟨x, op, hx, hop⟩ => ⟨x, hx, op, hop⟩⟩

/-- The composite has the key. -/
def hasKey (g : Graph) (key : String) (c : Composite) : Bool := (c.keys g).contains key

theorem hasKey_iff : c.hasKey g key = true ↔ c.Uses g key := by
  rw [hasKey, List.contains_iff_mem, mem_keys]

/-- The use of a key, if any composite has it. -/
def usage? (g : Graph) (cs : List Composite) (key : String) : Option ColocationUsage :=
  if cs.any (hasKey g key) then
    some { main := cs.any fun c => c.isMain && c.hasKey g key
           parallel := cs.countP fun c => !c.isMain && c.hasKey g key }
  else none

/-- A key that no composite has has not been used. -/
theorem getD_usage? : (usage? g cs key).getD {} =
    { main := cs.any fun c => c.isMain && c.hasKey g key
      parallel := cs.countP fun c => !c.isMain && c.hasKey g key } := by
  rw [usage?]
  split
  · rfl
  · rename_i hnone
    have hkey : ∀ c ∈ cs, c.hasKey g key = false := by simpa using hnone
    have hmain : (cs.any fun c => c.isMain && c.hasKey g key) = false := by
      simpa using fun c hc _ => hkey c hc
    have hparallel : cs.countP (fun c => !c.isMain && c.hasKey g key) = 0 :=
      List.countP_eq_zero.mpr fun c hc => by simp [hkey c hc]
    rw [hmain, hparallel]
    rfl

/-- **The table after one composite more.** -/
theorem lookup_noteKeys : (noteKeys g us c).lookup key =
    if c.hasKey g key then some (((us.lookup key).getD {}).entered c.isMain)
    else us.lookup key := by
  rw [noteKeys, ColocationUsages.lookup_foldl_noteKey]
  simp [hasKey]

/-- **The table after all composites.** -/
theorem lookup_colocationUsages : (colocationUsages g cs).lookup key = usage? g cs key := by
  induction cs using List.reverseRecOn with
  | nil => rfl
  | append_singleton cs c ih =>
    rw [colocationUsages, List.foldl_concat, ← colocationUsages, lookup_noteKeys, ih, getD_usage?]
    by_cases hkey : c.hasKey g key = true
    · cases hmain : c.isMain <;> simp [usage?, hkey, hmain, ColocationUsage.entered]
    · simp [usage?, hkey]

theorem nodup_colocationUsages : ((colocationUsages g cs).map Prod.fst).Nodup := by
  induction cs using List.reverseRecOn with
  | nil => exact List.nodup_nil
  | append_singleton cs c ih =>
    rw [colocationUsages, List.foldl_concat]
    exact ColocationUsages.nodup_foldl_noteKey ih

/-- A predicate that holds at most once in a list. -/
theorem countP_lt_two {α : Type} {p : α → Bool} {xs : List α} : xs.countP p < 2 ↔
    ∀ (i j : Nat) (a b : α), xs[i]? = some a → xs[j]? = some b → p a = true → p b = true →
      i = j := by
  induction xs with
  | nil => simp
  | cons x xs ih =>
    by_cases hx : p x = true
    · have hnone : (x :: xs).countP p < 2 ↔ ∀ a ∈ xs, ¬ p a = true := by
        rw [List.countP_cons_of_pos hx, ← List.countP_eq_zero]
        omega
      rw [hnone]
      constructor
      · intro hrest i j a b ha hb hpa hpb
        cases i with
        | zero =>
          cases j with
          | zero => rfl
          | succ j => exact absurd hpb (hrest b (List.mem_of_getElem? hb))
        | succ i => exact absurd hpa (hrest a (List.mem_of_getElem? ha))
      · intro honce a ha hpa
        obtain ⟨i, hi⟩ := List.mem_iff_getElem?.mp ha
        cases honce 0 (i + 1) x a rfl hi hx hpa
    · rw [List.countP_cons_of_neg hx, ih]
      constructor
      · intro honce i j a b ha hb hpa hpb
        cases i with
        | zero =>
          obtain rfl := Option.some.inj ha
          exact absurd hpa hx
        | succ i =>
          cases j with
          | zero =>
            obtain rfl := Option.some.inj hb
            exact absurd hpb hx
          | succ j => rw [honce i j a b ha hb hpa hpb]
      · intro honce i j a b ha hb hpa hpb
        exact Nat.succ.inj (honce (i + 1) (j + 1) a b ha hb hpa hpb)

/-- The key is scoped as the table has it. -/
theorem mem_scopedKeys_iff : key ∈ scopedKeys g cs ↔
    cs.any (hasKey g key) = true ∧ (cs.any fun c => c.isMain && c.hasKey g key) = false ∧
      (cs.countP fun c => !c.isMain && c.hasKey g key) < 2 := by
  have hentry : key ∈ scopedKeys g cs ↔
      ∃ u, usage? g cs key = some u ∧ u.main = false ∧ u.parallel < 2 := by
    simp only [scopedKeys, List.mem_map, List.mem_filter, Prod.exists, exists_and_right,
      exists_eq_right, ColocationUsages.mem_iff_lookup nodup_colocationUsages,
      lookup_colocationUsages, Bool.and_eq_true, Bool.not_eq_true', decide_eq_true_eq]
  rw [hentry, usage?]
  split
  next hany => simp [hany]
  next hany => simp [hany]

/-- **When a key is scoped**: one parallel composite has it, at one position, and the main one does
not. -/
theorem mem_scopedKeys (hmain : main.isMain = true) (hinner : ∀ c ∈ inner, c.isMain = false) :
    key ∈ scopedKeys g (inner ++ [main]) ↔
      (∃ (i : Nat) (c : Composite), inner[i]? = some c ∧ c.Uses g key ∧
        ∀ (j : Nat) (d : Composite), inner[j]? = some d → d.Uses g key → j = i) ∧
      ¬ main.Uses g key := by
  have hnoMain : (inner.any fun c => c.isMain && c.hasKey g key) = false :=
    List.any_eq_false.mpr fun c hc => by simp [hinner c hc]
  have hcount : inner.countP (fun c => !c.isMain && c.hasKey g key) =
      inner.countP (hasKey g key) :=
    List.countP_congr fun c hc => by simp [hinner c hc]
  rw [mem_scopedKeys_iff, List.any_append, List.any_append, List.countP_append, hnoMain, hcount]
  simp only [List.any_cons, List.any_nil, List.countP_singleton, hmain, Bool.or_false,
    Bool.false_or, Bool.true_and, Bool.not_true, Bool.false_and, Bool.false_eq_true, if_false,
    Nat.add_zero, countP_lt_two]
  rw [← hasKey_iff, Bool.not_eq_true]
  constructor
  · rintro ⟨hany, hnot, honce⟩
    rw [hnot, Bool.or_false] at hany
    obtain ⟨c, hc, hkey⟩ := List.any_eq_true.mp hany
    obtain ⟨i, hi⟩ := List.mem_iff_getElem?.mp hc
    exact ⟨⟨i, c, hi, hasKey_iff.mp hkey, fun j d hj hd =>
      honce j i d c hj hi (hasKey_iff.mpr hd) hkey⟩, hnot⟩
  · rintro ⟨⟨i, c, hi, hc, honce⟩, hnot⟩
    refine ⟨?_, hnot, fun j k a b ha hb hpa hpb => ?_⟩
    · rw [hnot, Bool.or_false]
      exact List.any_eq_true.mpr ⟨c, List.mem_of_getElem? hi, hasKey_iff.mpr hc⟩
    · rw [honce j a ha (hasKey_iff.mp hpa), honce k b hb (hasKey_iff.mp hpb)]

end Composite

/-! ### Emission -/

namespace Invocation

variable {ctx : Context} {op : Operator} {pool : Option String} {key expression text : String}

/-- The text ends with the placement of an operator that is colocated at the expression, on a host
pool or on none. -/
def Places (expression text : String) : Prop :=
  ∃ start placement pool, PlacementClause (some expression) pool placement ∧
    text = start ++ placement ++ "  \x7d\n"

theorem PlacementClause.ne_empty (h : PlacementClause (some expression) pool text) : text ≠ "" := by
  cases h <;> simp

/-- **An operator with a key is placed at the colocation of its key.** -/
theorem Reads.places (h : Reads ctx op pool text) (hkey : op.placement.colocateKey = some key) :
    Places (colocation ctx.isScoped key) text := by
  obtain ⟨annotations, window, params, output, _, _, _, _, _, hconfig, rfl⟩ := h
  obtain ⟨viewability, queue, placement, _, _, hplacement, rfl⟩ := hconfig
  rw [hkey, Option.map_some, ← colocation_eq] at hplacement
  rw [if_neg fun hempty => hplacement.ne_empty (String.append_eq_empty_iff.mp hempty).2,
    ← String.append_assoc]
  exact ⟨_, placement, pool, hplacement, rfl⟩

end Invocation

/-! ### The whole separation -/

namespace Separation

variable {g : Graph} {values : SubmissionValues} {ctx : Invocation.Context} {n : Nat}
  {cs inner : List Composite} {main : Composite} {s' : Separation} {key expression : String}

/-- The operators with the key are all placed at one expression. It colocates them by the key, which
the number of the channel completes if the key is scoped, and then they are members of one parallel
composite. -/
structure Colocated (g : Graph) (ctx : Invocation.Context) (cs : List Composite)
    (key expression : String) : Prop where
  rendered : ∀ c ∈ cs, ∀ x op, Member.node x ∈ c.members → g.get? x = some op →
    op.placement.colocateKey = some key → ∀ pools text pools',
      Yields (Application.emitMember g ctx (.node x)) pools text pools' →
        ∃ line, Invocation.Places expression line ∧ text = line ++ "\n"
  form : ∃ perChannel, Invocation.ColocationText key perChannel expression
  perChannel : Invocation.ColocationText key true expression ↔ key ∈ Composite.scopedKeys g cs
  together : Invocation.ColocationText key true expression →
    ∃ i c, cs[i]? = some c ∧ c.isMain = false ∧
      ∀ (j : Nat) (d : Composite), cs[j]? = some d → d.Uses g key → j = i

theorem colocated (hmain : main.isMain = true) (hinner : ∀ c ∈ inner, c.isMain = false)
    (hctx : ctx.isScoped = Composite.isChannelScoped g (inner ++ [main])) :
    Colocated g ctx (inner ++ [main]) key (Invocation.colocation ctx.isScoped key) := by
  have hscoped : ctx.isScoped key = true ↔ key ∈ Composite.scopedKeys g (inner ++ [main]) := by
    rw [hctx, Composite.isChannelScoped, List.contains_iff_mem]
  have hform : Invocation.ColocationText key (ctx.isScoped key)
      (Invocation.colocation ctx.isScoped key) := Invocation.colocationText_colocation
  have hchannel : Invocation.ColocationText key true (Invocation.colocation ctx.isScoped key) ↔
      ctx.isScoped key = true := ⟨fun h => hform.unique h, fun h => h ▸ hform⟩
  refine ⟨fun c _ x op _ hop hkey pools text pools' hrun => ?_, ⟨_, hform⟩,
    hchannel.trans hscoped, fun h => ?_⟩
  · have ⟨_, hreads⟩ := Application.registers_emitMember _ pools text pools' hrun
    obtain ⟨op', pool, line, hop', _, hline, rfl⟩ := hreads pools' List.prefix_rfl
    obtain rfl := Option.some.inj (hop.symm.trans hop')
    exact ⟨line, hline.places hkey, rfl⟩
  · obtain ⟨⟨i, c, hi, _, honce⟩, hnot⟩ :=
      (Composite.mem_scopedKeys hmain hinner).mp (hscoped.mp (hchannel.mp h))
    refine ⟨i, c, ?_, hinner c (List.mem_of_getElem? hi), fun j d hj hd => ?_⟩
    · rw [List.getElem?_append_left (List.getElem?_eq_some_iff.mp hi).1]
      exact hi
    · rcases Nat.lt_or_ge j inner.length with hlt | hge
      · rw [List.getElem?_append_left hlt] at hj
        exact honce j d hj hd
      · rw [List.getElem?_append_right hge] at hj
        rw [List.mem_singleton.mp (List.mem_of_getElem? hj)] at hd
        exact absurd hd hnot

/-- **Channel scoping is consistent.** After a separation that succeeds, the last composite is the
main one and only it. A key is scoped exactly if some parallel composite has an operator with it, no
other parallel composite has one, and the main one has none. All operators with one key are placed
at one expression, and if that is completed by the number of the channel, they are members of one
parallel composite. -/
theorem separate_colocated
    (hrun : Yields (separate values) { graph := g, count := n } cs s') :
    ∃ inner main, cs = inner ++ [main] ∧ main.isMain = true ∧ (∀ c ∈ inner, c.isMain = false) ∧
      (∀ key, key ∈ Composite.scopedKeys s'.graph cs ↔
        (∃ (i : Nat) (c : Composite), inner[i]? = some c ∧ c.Uses s'.graph key ∧
          ∀ (j : Nat) (d : Composite), inner[j]? = some d → d.Uses s'.graph key → j = i) ∧
        ¬ main.Uses s'.graph key) ∧
      ∀ key, ∃ expression, Colocated s'.graph
        ⟨s'.graph.config, values, Composite.isChannelScoped s'.graph cs⟩ cs key expression := by
  obtain ⟨inner, main, rfl, hmain, _, hgrown⟩ := separate_grown hrun
  exact ⟨inner, main, rfl, hmain, hgrown.inner,
    fun key => Composite.mem_scopedKeys hmain hgrown.inner,
    fun key => ⟨_, colocated hmain hgrown.inner rfl⟩⟩

/-- Two operators with one key inside a region, and two with another around it. -/
def keyedRegion : Graph := Graph.reindexed
  { name := "keyedRegion"
    slots := [
      some { name := "s", kind := "Beacon"
             outputs := [{ name := "so", connections := ["pi"] }]
             config := { placement := { colocateKey := some "around" } } },
      some { name := "p", kind := "$Parallel$"
             inputs := [{ name := "pi", connections := ["so"] }]
             outputs := [{ name := "po", connections := ["ai"], width := some (.fixed 2) }] },
      some { name := "a", kind := "Custom"
             inputs := [{ name := "ai", connections := ["po"] }]
             outputs := [{ name := "ao", connections := ["bi"] }]
             config := { placement := { colocateKey := some "inside" } } },
      some { name := "b", kind := "Custom"
             inputs := [{ name := "bi", connections := ["ao"] }]
             outputs := [{ name := "bo", connections := ["ei"] }]
             config := { placement := { colocateKey := some "inside" } } },
      some { name := "e", kind := "$EndParallel$"
             inputs := [{ name := "ei", connections := ["bo"] }]
             outputs := [{ name := "eo", connections := ["zi"] }] },
      some { name := "z", kind := "Custom"
             inputs := [{ name := "zi", connections := ["eo"] }]
             config := { placement := { colocateKey := some "around" } } }]
    order := (List.range 6).map Handle.mk }

theorem separate_colocated_keyedRegion :
    ∃ cs s', Yields (separate {}) { graph := keyedRegion, count := 0 } cs s' ∧
      ∃ inner main, cs = inner ++ [main] ∧ main.isMain = true ∧ (∀ c ∈ inner, c.isMain = false) ∧
        (∀ key, key ∈ Composite.scopedKeys s'.graph cs ↔
          (∃ (i : Nat) (c : Composite), inner[i]? = some c ∧ c.Uses s'.graph key ∧
            ∀ (j : Nat) (d : Composite), inner[j]? = some d → d.Uses s'.graph key → j = i) ∧
          ¬ main.Uses s'.graph key) ∧
        ∀ key, ∃ expression, Colocated s'.graph
          ⟨s'.graph.config, {}, Composite.isChannelScoped s'.graph cs⟩ cs key expression := by
  have hplan : keyedRegion.plan = .ok
      (.node ⟨0⟩ (.region ⟨1⟩ (.node ⟨2⟩ (.node ⟨3⟩ (.done (some ⟨4⟩))))
        (.node ⟨5⟩ (.done none)))) :=
    Graph.planFrom_of_within (n := 8) (by decide)
  have hseparate : ∃ cs s', Yields (separate {}) { graph := keyedRegion, count := 0 } cs s' :=
    exists_separate hplan rfl (by decide)
  obtain ⟨cs, s', hrun⟩ := hseparate
  exact ⟨cs, s', hrun, separate_colocated hrun⟩

end Separation

end StreamTopology
