import StreamTopology.Proofs.Json.Distinct
import Mathlib.Data.List.Perm.Basic

/-!
# Setting and removing members

A removal moves the last member into the gap, so it changes the order of members and nothing else:
up to a permutation it erases one member. What a key stands for is read off membership, if no key is
repeated, and membership does not see the order.

## Main results

* `lookup_eq_some_iff`
* `Json.Members.get?_insert`
* `Json.Members.get?_swapRemove_of_ne`, `Json.Members.get?_swapRemove_self`
-/

namespace StreamTopology

/-- In a list of pairs that repeats no key, a key is looked up as the value that stands with it. -/
theorem lookup_eq_some_iff {α : Type} {es : List (String × α)} {k : String} {v : α}
    (h : (es.map Prod.fst).Nodup) :
    (es.find? fun e => e.1 == k).map Prod.snd = some v ↔ (k, v) ∈ es := by
  rw [Option.map_eq_some_iff]
  constructor
  · rintro ⟨e, he, rfl⟩
    obtain rfl : e.1 = k := by simpa using List.find?_some he
    exact List.mem_of_find?_eq_some he
  · intro hmem
    have hsome : (es.find? fun e => e.1 == k).isSome := by
      rw [List.find?_isSome]
      exact ⟨_, hmem, beq_self_eq_true k⟩
    obtain ⟨e, he⟩ := Option.isSome_iff_exists.mp hsome
    have hkey : e.1 = k := by simpa using List.find?_some he
    rw [List.inj_on_of_nodup_map h (List.mem_of_find?_eq_some he) hmem hkey] at he
    exact ⟨_, he, rfl⟩

namespace Json

namespace Members

variable {ms : Members} {key k : String} {value v : Json}

theorem get?_insert : (ms.insert key value).get? k = if k = key then some value else ms.get? k := by
  simp only [get?]
  induction ms with
  | nil =>
    by_cases hk : k = key
    · simp [insert, hk]
    · simp [insert, hk, Ne.symm hk]
  | cons m ms ih =>
    rw [insert]
    by_cases hm : m.1 = key
    · by_cases hk : k = key
      · simp [hm, hk]
      · simp [hm, hk, Ne.symm hk]
    · by_cases hmk : m.1 = k
      · have hk : k ≠ key := fun h => hm (hmk.trans h)
        simp [hmk, hk]
      · simpa [hm, hmk] using ih

theorem get?_eq_some_iff (h : (ms.map Prod.fst).Nodup) : ms.get? k = some v ↔ (k, v) ∈ ms :=
  lookup_eq_some_iff h

/-- **A removal erases one member** and changes the order of the others. -/
theorem swapRemove_perm : (ms.swapRemove key).Perm (ms.eraseP fun m => key == m.1) := by
  induction ms with
  | nil => exact .nil
  | cons m ms ih =>
    rw [swapRemove]
    by_cases hm : m.1 = key
    · rw [if_pos hm, List.eraseP_cons_of_pos (by simpa using hm.symm)]
      cases hlast : ms.getLast? with
      | none =>
        rw [List.getLast?_eq_none_iff.mp hlast]
      | some last =>
        obtain ⟨front, rfl⟩ := List.getLast?_eq_some_iff.mp hlast
        rw [List.dropLast_concat]
        exact (List.perm_append_singleton last front).symm
    · rw [if_neg hm, List.eraseP_cons_of_neg (by simpa using Ne.symm hm)]
      exact ih.cons m

theorem keys_swapRemove :
    ((ms.swapRemove key).map Prod.fst).Perm ((ms.map Prod.fst).erase key) := by
  rw [List.erase_eq_eraseP, List.eraseP_map]
  exact swapRemove_perm.map Prod.fst

section

variable (h : (ms.map Prod.fst).Nodup)

include h

theorem nodup_swapRemove : ((ms.swapRemove key).map Prod.fst).Nodup :=
  keys_swapRemove.nodup_iff.mpr (h.erase key)

/-- Other keys than the one that is removed keep their values. -/
theorem get?_swapRemove_of_ne (hk : k ≠ key) : (ms.swapRemove key).get? k = ms.get? k := by
  refine Option.ext fun v => ?_
  rw [get?_eq_some_iff (nodup_swapRemove h), get?_eq_some_iff h, swapRemove_perm.mem_iff,
    List.mem_eraseP_of_neg (by simpa using Ne.symm hk)]

theorem get?_swapRemove_self : (ms.swapRemove key).get? key = none := by
  refine Option.eq_none_iff_forall_ne_some.mpr fun v hv => ?_
  have hmem := (get?_eq_some_iff (nodup_swapRemove h)).mp hv
  have hkey := keys_swapRemove.mem_iff.mp (List.mem_map_of_mem (f := Prod.fst) hmem)
  exact h.not_mem_erase hkey

end

end Members

end Json

end StreamTopology
