import StreamTopology.Spl.Annotation
import StreamTopology.Proofs.Json.Members
import StreamTopology.Proofs.Text.Identifier

/-!
# Names in layouts

A layout may give names to what it draws, under the names of the topology. The generated source has
identifiers instead, so the entry of a name that is escaped moves to its identifier, and a name
without an entry gets one that says what it was.

Names are taken one after the other, and each of them looks for its entry in what the ones before
have left. Different names do not get into each other's way: an identifier is not escaped itself,
and escaped names are told apart by their identifiers. But a name may come up twice, as that of an
operator and of its port do; then the entry has moved away, the name is taken for one without an
entry, and what the layout said is overwritten.

## Main definitions

* `Annotation.meaningOf`: what a name stands for.
* `Annotation.Recorded`: the names of a layout when some names have had their turn.

## Main results

* `Annotation.layoutOf_meaning_iff`: when an identifier stands for what its name stood for.
* `Annotation.layoutOf_forgets`: a layout whose entry is overwritten.
-/

namespace StreamTopology

namespace Annotation

open Identifier (ofName ofName_inj ne_ofName)

variable {op : Operator} {layout own names : Json.Members} {done : List String} {name n k : String}
  {v : Json}

/-- The names object of a layout, if it has one. -/
def namesOf (layout : Json.Members) : Json.Members :=
  match layout.get? "names" with
  | some (.object names) => names
  | _ => []

/-- What a name stands for: its entry, else itself. -/
def meaningOf (names : Json.Members) (name : String) : Json := (names.get? name).getD (.string name)

/-! ### One name -/

/-- An entry can only be found in a names object. -/
theorem get?_names (h : (namesOf layout).get? k = some v) :
    layout.get? "names" = some (.object (namesOf layout)) := by
  by_cases hnames : ∃ ms, layout.get? "names" = some (.object ms)
  · obtain ⟨ms, hms⟩ := hnames
    rw [namesOf, hms]
  · have hnil : namesOf layout = [] := by
      unfold namesOf
      split
      next ms hms => exact absurd ⟨ms, hms⟩ hnames
      next => rfl
    rw [hnil] at h
    cases h

theorem mapName_of_unchanged (h : ofName name = name) : mapName layout name = layout := if_pos h

/-- A name that is changed moves its entry. -/
theorem namesOf_mapName (h : ofName name ≠ name) :
    namesOf (mapName layout name) =
      ((namesOf layout).swapRemove name).insert (ofName name)
        (meaningOf (namesOf layout) name) := by
  have hmap : mapName layout name = layout.insert "names"
      (.object (((namesOf layout).swapRemove name).insert (ofName name)
        (meaningOf (namesOf layout) name))) := if_neg h
  rw [hmap, namesOf, Json.Members.get?_insert, if_pos rfl]

/-! ### Names one after the other -/

/-- What has become of the layout's own names after some names: those that are still to come have
their entries, and those that have come up are recorded under their identifiers. -/
structure Recorded (own : Json.Members) (done : List String) (names : Json.Members) : Prop where
  nodup : (names.map Prod.fst).Nodup
  waiting : ∀ n, ofName n ≠ n → n ∉ done → names.get? n = own.get? n
  moved : ∀ n, ofName n ≠ n → n ∈ done → names.get? n = none
  recorded : ∀ n, ofName n ≠ n → n ∈ done →
    names.get? (ofName n) = some (if done.count n = 1 then meaningOf own n else .string n)

theorem mem_snoc_of_ne (h : n ≠ name) : n ∈ done ++ [name] ↔ n ∈ done := by
  rw [List.mem_append, List.mem_singleton, or_iff_left h]

theorem count_snoc_of_ne (h : n ≠ name) : (done ++ [name]).count n = done.count n := by
  rw [List.count_append, List.count_singleton, if_neg (by simpa using Ne.symm h), Nat.add_zero]

theorem Recorded.init (h : (own.map Prod.fst).Nodup) : Recorded own [] own :=
  ⟨h, fun _ _ _ => rfl, fun _ _ hn => (List.not_mem_nil hn).elim,
    fun _ _ hn => (List.not_mem_nil hn).elim⟩

/-- A name that is not changed is not recorded. -/
theorem Recorded.skip (h : Recorded own done names) (hname : ofName name = name) :
    Recorded own (done ++ [name]) names := by
  have hother : ∀ {n}, ofName n ≠ n → n ≠ name := by
    rintro n hn rfl
    exact hn hname
  refine ⟨h.nodup, fun n hn hnew => h.waiting n hn ((mem_snoc_of_ne (hother hn)).not.mp hnew),
    fun n hn hdone => h.moved n hn ((mem_snoc_of_ne (hother hn)).mp hdone), fun n hn hdone => ?_⟩
  rw [count_snoc_of_ne (hother hn)]
  exact h.recorded n hn ((mem_snoc_of_ne (hother hn)).mp hdone)

/-- **One more name.** It finds its entry if it comes up for the first time, and none later. -/
theorem Recorded.step (h : Recorded own done names) (hname : ofName name ≠ name) :
    Recorded own (done ++ [name])
      ((names.swapRemove name).insert (ofName name) (meaningOf names name)) := by
  -- neither a changed name nor the identifier of another one is touched
  have hraw : ∀ {n}, ofName n ≠ n →
      ((names.swapRemove name).insert (ofName name) (meaningOf names name)).get? n =
        if n = name then none else names.get? n := by
    intro n hn
    rw [Json.Members.get?_insert, if_neg (ne_ofName hn)]
    split
    next heq => rw [heq, Json.Members.get?_swapRemove_self h.nodup]
    next hne => exact Json.Members.get?_swapRemove_of_ne h.nodup hne
  have hid : ∀ {n}, ofName n ≠ n → n ≠ name →
      ((names.swapRemove name).insert (ofName name) (meaningOf names name)).get? (ofName n) =
        names.get? (ofName n) := by
    intro n hn hne
    rw [Json.Members.get?_insert, if_neg fun heq => hne (ofName_inj hn hname heq),
      Json.Members.get?_swapRemove_of_ne h.nodup (Ne.symm (ne_ofName hname))]
  refine ⟨Json.Members.nodup_insert (Json.Members.nodup_swapRemove h.nodup), fun n hn hnew => ?_,
    fun n hn hdone => ?_, fun n hn hdone => ?_⟩
  · have hne : n ≠ name := fun heq => hnew (by simp [heq])
    rw [hraw hn, if_neg hne]
    exact h.waiting n hn ((mem_snoc_of_ne hne).not.mp hnew)
  · rw [hraw hn]
    split
    · rfl
    next hne => exact h.moved n hn ((mem_snoc_of_ne hne).mp hdone)
  · by_cases heq : n = name
    · subst heq
      rw [Json.Members.get?_insert, if_pos rfl, List.count_append, List.count_singleton_self]
      by_cases hfirst : n ∈ done
      · have hcount : done.count n + 1 ≠ 1 := by
          have hpos := List.count_pos_iff.mpr hfirst
          omega
        rw [if_neg hcount, meaningOf, h.moved n hn hfirst, Option.getD_none]
      · rw [List.count_eq_zero.mpr hfirst, if_pos rfl, meaningOf, h.waiting n hn hfirst, meaningOf]
    · rw [hid hn heq, count_snoc_of_ne heq]
      exact h.recorded n hn ((mem_snoc_of_ne heq).mp hdone)

/-- **All names**, in their order. -/
theorem recorded_foldl (h : ((namesOf layout).map Prod.fst).Nodup) (ns : List String) :
    Recorded (namesOf layout) ns (namesOf (ns.foldl mapName layout)) := by
  induction ns using List.reverseRecOn with
  | nil => exact .init h
  | append_singleton ns name ih =>
    rw [List.foldl_append, List.foldl_cons, List.foldl_nil]
    by_cases hname : ofName name = name
    · rw [mapName_of_unchanged hname]
      exact ih.skip hname
    · rw [namesOf_mapName hname]
      exact ih.step hname

/-- No object in a layout repeats a key, and its names object does not either. -/
theorem nodup_namesOf (h : (Json.object layout).Distinct) :
    ((namesOf layout).map Prod.fst).Nodup := by
  unfold namesOf
  split
  next names hnames =>
    cases h.get? hnames with
    | object hkeys _ => exact hkeys
  next => exact List.nodup_nil

/-! ### The layout of an operator -/

/-- **When an identifier stands for what its name stood for.** Each name that is changed is recorded
in the names object of the layout. The record says what the name stood for exactly if the name came
up once, or stood for itself anyway; a name that came up more often is recorded as itself. -/
theorem layoutOf_meaning_iff (hlayout : (Json.object layout).Distinct)
    (hn : n ∈ introducedNames op) (hchanged : ofName n ≠ n) :
    ∃ names : Json.Members, (layoutOf op layout).get? "names" = some (.object names) ∧
      (names.get? (ofName n) = some (meaningOf (namesOf layout) n) ↔
        (introducedNames op).count n = 1 ∨ meaningOf (namesOf layout) n = .string n) ∧
      ((introducedNames op).count n ≠ 1 → names.get? (ofName n) = some (.string n)) := by
  have hrecorded := (recorded_foldl (nodup_namesOf hlayout) (introducedNames op)).recorded n
    hchanged hn
  refine ⟨_, get?_names hrecorded, ?_, fun hcount => ?_⟩
  · rw [layoutOf, hrecorded, Option.some.injEq]
    split
    next hcount => exact iff_of_true rfl (Or.inl hcount)
    next hcount => rw [or_iff_right hcount, eq_comm]
  · rw [layoutOf, hrecorded, if_neg hcount]

/-! ### A name that comes up twice -/

/-- An operator with an output port of the same name. -/
def sameName : Operator :=
  { name := "my-op", kind := "K", outputs := [{ name := "my-op" }] }

/-- A layout with an entry for that name. -/
def titled : Json.Members := [("names", .object [("my-op", .string "My Op")])]

theorem titled_distinct : (Json.object titled).Distinct := by
  refine .object (by decide) fun m hm => ?_
  obtain rfl := List.mem_singleton.mp hm
  refine .object (by decide) fun m hm => ?_
  obtain rfl := List.mem_singleton.mp hm
  exact .string _

theorem layoutOf_meaning_iff_titled :
    (Json.object titled).Distinct ∧ "my-op" ∈ introducedNames { sameName with outputs := [] } ∧
      ofName "my-op" ≠ "my-op" ∧
      ∃ names : Json.Members, (layoutOf { sameName with outputs := [] } titled).get? "names" =
          some (.object names) ∧
        names.get? (ofName "my-op") = some (.string "My Op") := by
  have hchanged : ofName "my-op" ≠ "my-op" := by decide
  have hmem : "my-op" ∈ introducedNames { sameName with outputs := [] } := by decide
  obtain ⟨names, hget, hmeaning, _⟩ := layoutOf_meaning_iff titled_distinct hmem hchanged
  exact ⟨titled_distinct, hmem, hchanged, names, hget, hmeaning.mpr (Or.inl (by decide))⟩

/-- **A layout whose entry is overwritten.** The layout calls the operator `My Op`; the port of the
same name makes it `my-op` again. -/
theorem layoutOf_forgets :
    (Json.object titled).Distinct ∧ "my-op" ∈ introducedNames sameName ∧
      ofName "my-op" ≠ "my-op" ∧
      meaningOf (namesOf titled) "my-op" = .string "My Op" ∧
      ∃ names : Json.Members, (layoutOf sameName titled).get? "names" = some (.object names) ∧
        names.get? (ofName "my-op") = some (.string "my-op") :=
  ⟨titled_distinct, by decide, by decide, rfl, [("my_u002dop", .string "my-op")], by decide,
    by decide⟩

end Annotation

end StreamTopology
