import StreamTopology.Json.Source
import StreamTopology.Proofs.Outcome
import Mathlib.Data.List.Induction
import Mathlib.Data.List.Nodup

/-!
# Values whose objects repeat no key

Not every value is read from itself. Of members with the same key only the last is read, so an
object that repeats a key comes back shorter. This is the only obstacle: what has been read repeats
no key, at no depth, and whatever repeats no key is read as it stands. So reading any source a
second time, from the value that it was read as, changes nothing.

## Main definitions

* `Json.Distinct`: no object in the value repeats a key.

## Main results

* `Source.distinct_of_toJson`: what has been read is such a value.
* `Source.toJson_ofJson`: such a value is read as it stands.
-/

namespace StreamTopology

namespace Json

/-! ### Members with different keys -/

namespace Members

variable {ms ns : Members} {key : String} {value : Json} {m : String × Json}

theorem insert_of_notMem (h : key ∉ ms.map Prod.fst) :
    ms.insert key value = ms ++ [(key, value)] := by
  induction ms with
  | nil => rfl
  | cons m ms ih =>
    rw [List.map_cons, List.mem_cons, not_or] at h
    rw [insert, if_neg (Ne.symm h.1), ih h.2, List.cons_append]

theorem keys_insert_of_mem (h : key ∈ ms.map Prod.fst) :
    (ms.insert key value).map Prod.fst = ms.map Prod.fst := by
  induction ms with
  | nil => cases h
  | cons m ms ih =>
    rw [insert]
    by_cases hm : m.1 = key
    · rw [if_pos hm, List.map_cons, List.map_cons, hm]
    · rw [if_neg hm, List.map_cons, List.map_cons,
        ih ((List.mem_cons.mp h).resolve_left (Ne.symm hm))]

theorem nodup_insert (h : (ms.map Prod.fst).Nodup) :
    ((ms.insert key value).map Prod.fst).Nodup := by
  by_cases hkey : key ∈ ms.map Prod.fst
  · rwa [keys_insert_of_mem hkey]
  · rw [insert_of_notMem hkey, List.map_append, List.map_singleton]
    refine List.nodup_append.mpr ⟨h, List.nodup_singleton _, fun a ha b hb hab => ?_⟩
    rw [hab, List.mem_singleton.mp hb] at ha
    exact hkey ha

theorem mem_insert (h : m ∈ ms.insert key value) : m = (key, value) ∨ m ∈ ms := by
  induction ms with
  | nil => exact Or.inl (List.mem_singleton.mp h)
  | cons n ms ih =>
    rw [insert] at h
    split at h
    · exact (List.mem_cons.mp h).imp_right (List.mem_cons_of_mem _)
    · rcases List.mem_cons.mp h with rfl | h
      · exact Or.inr List.mem_cons_self
      · exact (ih h).imp_right (List.mem_cons_of_mem _)

theorem ofPairs_snoc : ofPairs (ms ++ [m]) = (ofPairs ms).insert m.1 m.2 := by
  rw [ofPairs, List.foldl_append]
  rfl

/-- **Pairs become members** that repeat no key and are among the pairs. -/
theorem nodup_ofPairs (ms : List (String × Json)) : ((ofPairs ms).map Prod.fst).Nodup := by
  induction ms using List.reverseRecOn with
  | nil => exact List.nodup_nil
  | append_singleton ms m ih =>
    rw [ofPairs_snoc]
    exact nodup_insert ih

theorem mem_of_mem_ofPairs (h : m ∈ ofPairs ms) : m ∈ ms := by
  induction ms using List.reverseRecOn with
  | nil => cases h
  | append_singleton ms n ih =>
    rw [ofPairs_snoc] at h
    rcases mem_insert h with rfl | h
    · exact List.mem_append_right _ List.mem_cons_self
    · exact List.mem_append_left _ (ih h)

/-- Members that repeat no key stay as they are. -/
theorem ofPairs_eq_self (h : (ms.map Prod.fst).Nodup) : ofPairs ms = ms := by
  induction ms using List.reverseRecOn with
  | nil => rfl
  | append_singleton ms m ih =>
    rw [List.map_append, List.map_singleton, List.nodup_append] at h
    have hkey : m.1 ∉ ms.map Prod.fst := fun hm => h.2.2 _ hm _ List.mem_cons_self rfl
    rw [ofPairs_snoc, ih h.1, insert_of_notMem hkey]

end Members

/-! ### Values without repetitions -/

/-- No object in the value repeats a key. -/
inductive Distinct : Json → Prop where
  | null : Distinct .null
  | bool (b : Bool) : Distinct (.bool b)
  | number (n : Number) : Distinct (.number n)
  | string (s : String) : Distinct (.string s)
  | array {items : List Json} (hitems : ∀ v ∈ items, Distinct v) : Distinct (.array items)
  | object {members : Members} (hkeys : (members.map Prod.fst).Nodup)
      (hvalues : ∀ m ∈ members, Distinct m.2) : Distinct (.object members)

/-- The value of a key in such an object. -/
theorem Distinct.get? {ms : Members} {key : String} {v : Json} (h : Distinct (.object ms))
    (hget : ms.get? key = some v) : v.Distinct := by
  obtain ⟨m, hm, rfl⟩ := Option.map_eq_some_iff.mp hget
  cases h with
  | object _ hvalues => exact hvalues m (List.mem_of_find?_eq_some hm)

end Json

namespace Source

open Json (Distinct)

mutual

/-- **What has been read repeats no key.** -/
theorem distinct_of_toJson : (source : Source) → {v : Json} → source.toJson = .ok v → v.Distinct
  | .null, _, rfl => .null
  | .bool b, _, rfl => .bool b
  | .number n, _, rfl => .number n
  | .string s, _, rfl => .string s
  | .array items ending, v, h => by
    rw [toJson] at h
    obtain ⟨vs, hvs, h⟩ := bind_eq_ok.mp h
    obtain ⟨_, _, h⟩ := bind_eq_ok.mp h
    obtain rfl := pure_eq_ok.mp h
    exact .array (distinct_of_itemsToJson items hvs)
  | .object members ending, v, h => by
    rw [toJson] at h
    obtain ⟨pairs, hpairs, h⟩ := bind_eq_ok.mp h
    obtain ⟨_, _, h⟩ := bind_eq_ok.mp h
    obtain rfl := pure_eq_ok.mp h
    exact .object (Json.Members.nodup_ofPairs pairs) fun m hm =>
      distinct_of_membersToJson members hpairs m (Json.Members.mem_of_mem_ofPairs hm)

theorem distinct_of_itemsToJson : (items : List Source) → {vs : List Json} →
    itemsToJson items = .ok vs → ∀ v ∈ vs, v.Distinct
  | [], _, rfl => nofun
  | source :: items, vs, h => by
    rw [itemsToJson] at h
    obtain ⟨w, hw, h⟩ := bind_eq_ok.mp h
    obtain ⟨ws, hws, h⟩ := bind_eq_ok.mp h
    obtain rfl := pure_eq_ok.mp h
    intro v hv
    rcases List.mem_cons.mp hv with rfl | hv
    · exact distinct_of_toJson source hw
    · exact distinct_of_itemsToJson items hws v hv

theorem distinct_of_membersToJson : (members : List (Except TextFault String × Source)) →
    {pairs : List (String × Json)} → membersToJson members = .ok pairs →
    ∀ m ∈ pairs, m.2.Distinct
  | [], _, rfl => nofun
  | (key, source) :: members, pairs, h => by
    rw [membersToJson] at h
    obtain ⟨name, _, h⟩ := bind_eq_ok.mp h
    obtain ⟨w, hw, h⟩ := bind_eq_ok.mp h
    obtain ⟨ws, hws, h⟩ := bind_eq_ok.mp h
    obtain rfl := pure_eq_ok.mp h
    intro m hm
    rcases List.mem_cons.mp hm with rfl | hm
    · exact distinct_of_toJson source hw
    · exact distinct_of_membersToJson members hws m hm

end

mutual

/-- **A value that repeats no key is read as it stands.** -/
theorem toJson_ofJson : (v : Json) → v.Distinct → (ofJson v).toJson = .ok v
  | .null, _ => rfl
  | .bool _, _ => rfl
  | .number _, _ => rfl
  | .string _, _ => rfl
  | .array items, .array hitems => by
    rw [ofJson, toJson, itemsToJson_ofItems items hitems]
    rfl
  | .object members, .object hkeys hvalues => by
    rw [ofJson, toJson, membersToJson_ofMembers members hvalues]
    exact congrArg (fun ms => Except.ok (Json.object ms)) (Json.Members.ofPairs_eq_self hkeys)

theorem itemsToJson_ofItems : (items : List Json) → (∀ v ∈ items, v.Distinct) →
    itemsToJson (ofItems items) = .ok items
  | [], _ => rfl
  | v :: items, h => by
    rw [ofItems, itemsToJson, toJson_ofJson v (h v List.mem_cons_self),
      itemsToJson_ofItems items fun w hw => h w (List.mem_cons_of_mem _ hw)]
    rfl

theorem membersToJson_ofMembers : (members : List (String × Json)) →
    (∀ m ∈ members, m.2.Distinct) → membersToJson (ofMembers members) = .ok members
  | [], _ => rfl
  | (key, v) :: members, h => by
    rw [ofMembers, membersToJson, toJson_ofJson v (h (key, v) List.mem_cons_self),
      membersToJson_ofMembers members fun m hm => h m (List.mem_cons_of_mem _ hm)]
    rfl

end

end Source

end StreamTopology
