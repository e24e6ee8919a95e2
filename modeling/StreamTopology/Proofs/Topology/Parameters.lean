import StreamTopology.Topology.Parameter
import Mathlib.Data.List.Induction

/-!
# Maps of parameters

Setting and removing a parameter, as seen by looking names up and by listing the entries of some
names. Both leave the entries of all other names as they are, in their order. Setting a name that is
present leaves the list of names as it is, and one that is absent comes to its end.
-/

namespace StreamTopology

namespace Parameters

variable {ps : Parameters} {name n : String} {v : Parameter} {es : List (String × Parameter)}
  {e : String × Parameter} {p : String → Bool}

theorem get?_insert : (ps.insert name v).get? n = if n = name then some v else ps.get? n := by
  obtain ⟨es⟩ := ps
  simp only [get?, insert]
  induction es with
  | nil =>
    by_cases hn : n = name
    · simp [insertEntry, hn]
    · simp [insertEntry, hn, Ne.symm hn]
  | cons e es ih =>
    unfold insertEntry
    by_cases he : e.1 = name
    · by_cases hn : n = name
      · simp [he, hn]
      · simp [he, hn, Ne.symm hn]
    · by_cases hen : e.1 = n
      · have hn : n ≠ name := fun h => he (hen.trans h)
        simp [hen, hn]
      · simpa [he, hen] using ih

theorem mem_insertEntry (h : e ∈ insertEntry name v es) : e = (name, v) ∨ e ∈ es := by
  induction es with
  | nil => exact Or.inl (List.mem_singleton.mp h)
  | cons d es ih =>
    unfold insertEntry at h
    split at h
    · exact (List.mem_cons.mp h).imp_right (List.mem_cons_of_mem _)
    · rcases List.mem_cons.mp h with rfl | h
      · exact Or.inr List.mem_cons_self
      · exact (ih h).imp_right (List.mem_cons_of_mem _)

theorem get?_erase (hn : n ≠ name) : (ps.erase name).get? n = ps.get? n := by
  obtain ⟨es⟩ := ps
  simp only [get?, erase]
  induction es with
  | nil => rfl
  | cons e es ih =>
    by_cases he : e.1 = name
    · have hen : e.1 ≠ n := fun h => hn (h.symm.trans he)
      simp [he, Ne.symm hn]
    · by_cases hen : e.1 = n
      · simp [hen, hn]
      · simpa [he, hen] using ih

/-! ### Entries of some names -/

/-- The entries whose names have a property, in order. -/
def named (ps : Parameters) (p : String → Bool) : List (String × Parameter) :=
  ps.entries.filter fun e => p e.1

theorem named_insert (hname : p name = false) : (ps.insert name v).named p = ps.named p := by
  obtain ⟨es⟩ := ps
  simp only [named, insert]
  induction es with
  | nil => simp [insertEntry, hname]
  | cons e es ih =>
    unfold insertEntry
    by_cases he : e.1 = name
    · simp [he, hname]
    · simp only [he, if_false, List.filter_cons, ih]

theorem named_erase (hname : p name = false) : (ps.erase name).named p = ps.named p := by
  obtain ⟨es⟩ := ps
  simp only [named, erase]
  induction es with
  | nil => rfl
  | cons e es ih =>
    by_cases he : e.1 = name
    · simp [he, hname]
    · simp only [beq_eq_false_iff_ne.mpr he, List.eraseP_cons_of_neg, Bool.false_eq_true,
        not_false_eq_true, List.filter_cons, ih]

theorem named_erase_sublist : ((ps.erase name).named p).Sublist (ps.named p) :=
  List.eraseP_sublist.filter _

/-! ### Names -/

/-- The names, in order. -/
def names (ps : Parameters) : List String := ps.entries.map Prod.fst

theorem mem_names_iff : name ∈ ps.names ↔ ∃ v, ps.get? name = some v := by
  rw [← Option.isSome_iff_exists, get?, Option.isSome_map, List.find?_isSome, names]
  simp

theorem insertEntry_of_notMem (h : name ∉ es.map Prod.fst) :
    insertEntry name v es = es ++ [(name, v)] := by
  induction es with
  | nil => rfl
  | cons e es ih =>
    rw [List.map_cons, List.mem_cons, not_or] at h
    rw [insertEntry, if_neg (Ne.symm h.1), ih h.2, List.cons_append]

theorem names_insert_of_mem (h : name ∈ ps.names) : (ps.insert name v).names = ps.names := by
  obtain ⟨es⟩ := ps
  simp only [names, insert] at h ⊢
  induction es with
  | nil => cases h
  | cons e es ih =>
    rw [insertEntry]
    by_cases he : e.1 = name
    · rw [if_pos he, List.map_cons, List.map_cons, he]
    · rw [if_neg he, List.map_cons, List.map_cons,
        ih ((List.mem_cons.mp h).resolve_left (Ne.symm he))]

theorem names_insert_of_notMem (h : name ∉ ps.names) :
    (ps.insert name v).names = ps.names ++ [name] := by
  rw [names, insert, insertEntry_of_notMem h, List.map_append]
  rfl

/-- **A removal takes out the entry of a name** and leaves all others as they are, in their
order. -/
theorem entries_erase (h : ps.names.Nodup) :
    (ps.erase name).entries = ps.entries.filter fun e => e.1 ≠ name := by
  obtain ⟨es⟩ := ps
  simp only [names, erase] at h ⊢
  induction es with
  | nil => rfl
  | cons e es ih =>
    obtain ⟨hnotMem, hnodup⟩ := List.nodup_cons.mp h
    by_cases he : e.1 = name
    · have hothers : ∀ d ∈ es, d.1 ≠ name := by
        intro d hd hdn
        exact hnotMem (List.mem_map.mpr ⟨d, hd, hdn.trans he.symm⟩)
      rw [List.eraseP_cons_of_pos (by simp [he]), List.filter_cons_of_neg (by simp [he]),
        List.filter_eq_self.mpr (by simpa using hothers)]
    · rw [List.eraseP_cons_of_neg (by simp [he]), List.filter_cons_of_pos (by simp [he]),
        ih hnodup]

theorem names_erase (h : ps.names.Nodup) :
    (ps.erase name).names = ps.names.filter fun n => n ≠ name := by
  rw [names, entries_erase h, names, List.filter_map]
  rfl

theorem get?_erase_self (h : ps.names.Nodup) : (ps.erase name).get? name = none := by
  rw [Option.eq_none_iff_forall_ne_some]
  intro v hv
  have hmem : name ∈ (ps.erase name).names := mem_names_iff.mpr ⟨v, hv⟩
  rw [names_erase h] at hmem
  simp at hmem

/-- Pairs with different names are collected as they stand. -/
theorem ofList_entries (h : ps.names.Nodup) : ofList ps.entries = ps := by
  obtain ⟨es⟩ := ps
  simp only [names] at h
  induction es using List.reverseRecOn with
  | nil => rfl
  | append_singleton es e ih =>
    rw [List.map_append, List.map_singleton, List.nodup_append] at h
    have hname : e.1 ∉ es.map Prod.fst := fun hmem => h.2.2 _ hmem _ List.mem_cons_self rfl
    rw [ofList, List.foldl_append, ← ofList, ih h.1]
    exact congrArg Parameters.mk (insertEntry_of_notMem hname)

end Parameters

end StreamTopology
