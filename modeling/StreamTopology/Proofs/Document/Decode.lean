import StreamTopology.Document.Parameter
import StreamTopology.Proofs.Json.Distinct

/-!
# Reading what was written

A reader accepts more than a writer writes: structures as arrays, numbers of another kind, null in
place of an absent field. So reading and writing are inverse on one side only: a value that was read
is read again from what it is written as. `Decoder.ReadsBack` says this of a reader and a writer,
for values that come from any source, be it a broken text.

For a structure it is not enough that each field is read back. A field that is left out when it says
nothing must have said what the structure says before any field is read. `Record.Spelled` follows
the writer from field to field, with the structure that a reader has assembled by then; the list of
fields that it comes to at the end is the list that the reader knows.

## Main definitions

* `Decoder.Reads`, `Decoder.ReadsBack`.
* `Encode.Writes`: members that are one field, or nothing where the field has its default.
* `Record.Spelled`: members that a structure is read from.

## Main results

* `Decoder.ReadsBack.optional`, `Decoder.ReadsBack.list`: parts that are read back make a whole that
  is.
* `Record.Spelled.reads`: a structure is read from members that spell it.
* `Record.decode_induction`: what setting a field keeps, holds of what has been read.
-/

namespace StreamTopology

variable {α β : Type}

/-! ### Readers and writers -/

namespace Decoder

variable {decode : Decoder α} {encode : α → Json} {source : Source} {v : Json} {a : α}
  {name expected : String}

/-- The value is read as `a`. -/
def Reads (decode : Decoder α) (v : Json) (a : α) : Prop := decode (Source.ofJson v) = .ok a

/-- What has been read, from any source, is read again from what it is written as. -/
def ReadsBack (decode : Decoder α) (encode : α → Json) : Prop :=
  ∀ source a, decode source = .ok a → decode.Reads (encode a) a

theorem ReadsBack.of_reads (h : ∀ a, decode.Reads (encode a) a) : decode.ReadsBack encode :=
  fun _ a _ => h a

theorem unexpected_ne_ok : source.unexpected expected ≠ .ok a := by
  intro h
  obtain ⟨_, _, h⟩ := bind_eq_ok.mp h
  cases h

theorem reads_string (s : String) : string.Reads (.string s) s := rfl

theorem reads_bool (b : Bool) : bool.Reads (.bool b) b := rfl

theorem readsBack_integer {low high : Int} :
    (integer name low high).ReadsBack fun n => .number (.int n) := by
  intro source n h
  unfold integer at h
  split at h
  · split at h
    · obtain rfl := Except.ok.inj h
      exact if_pos ‹_›
    · cases h
  · exact absurd h unexpected_ne_ok

theorem integer_bounds {low high n : Int} (h : integer name low high source = .ok n) :
    low ≤ n ∧ n ≤ high := by
  unfold integer at h
  split at h
  · split at h
    · obtain rfl := Except.ok.inj h
      assumption
    · cases h
  · exact absurd h unexpected_ne_ok

/-- Unsigned integers are kept as natural numbers. -/
theorem readsBack_unsigned {high : Int} :
    ReadsBack (fun source => (integer name 0 high source).map Int.toNat) Encode.nat := by
  intro source n h
  rcases hn : integer name 0 high source with e | i
  · simp only [hn] at h
    cases h
  · simp only [hn] at h
    obtain rfl := Except.ok.inj h
    have hnat : Encode.nat i.toNat = .number (.int i) :=
      congrArg (fun i => Json.number (.int i)) (Int.toNat_of_nonneg (integer_bounds hn).1)
    have hread : (integer name 0 high).Reads (.number (.int i)) i := readsBack_integer source i hn
    rw [hnat]
    exact congrArg (Except.map Int.toNat) hread

theorem json_eq_ok : json source = .ok v ↔ source.toJson = .ok v := mapError_eq_ok

/-- A value is read as it stands if it repeats no key, and only then. -/
theorem reads_json : json.Reads v v ↔ v.Distinct :=
  json_eq_ok.trans ⟨Source.distinct_of_toJson _, Source.toJson_ofJson v⟩

theorem distinct_of_json (h : json source = .ok v) : v.Distinct :=
  Source.distinct_of_toJson source (json_eq_ok.mp h)

theorem readsBack_json : json.ReadsBack id := fun _ _ h => reads_json.mpr (distinct_of_json h)

theorem distinct_of_members {ms : Json.Members} (h : members source = .ok ms) :
    (Json.object ms).Distinct := by
  unfold members at h
  split at h
  · obtain ⟨v, hv, h⟩ := bind_eq_ok.mp h
    cases v with
    | object ns =>
      obtain rfl := pure_eq_ok.mp h
      exact distinct_of_json hv
    | _ =>
      obtain rfl := pure_eq_ok.mp h
      exact .object List.nodup_nil nofun
  · exact absurd h unexpected_ne_ok

theorem reads_members {ms : Json.Members} (h : (Json.object ms).Distinct) :
    members.Reads (.object ms) ms := by
  have hjson : json (.object (Source.ofMembers ms) none) = .ok (.object ms) := reads_json.mpr h
  rw [Reads, Source.ofJson, members, hjson]
  rfl

theorem readsBack_members : members.ReadsBack .object :=
  fun _ _ h => reads_members (distinct_of_members h)

end Decoder

/-! ### Options and lists -/

/-- A value that may be absent, with null where it is. -/
def Encode.orNull (encode : α → Json) (x : Option α) : Json := x.elim .null encode

namespace Decoder

variable {decode : Decoder α} {encode : α → Json} {source : Source} {v : Json} {a : α}

theorem optional_eq_ok {x : Option α} (h : optional decode source = .ok x) :
    x = none ∨ ∃ a, x = some a ∧ source ≠ .null ∧ decode source = .ok a := by
  unfold optional at h
  split at h
  · obtain rfl := Except.ok.inj h
    exact Or.inl rfl
  · cases h
  · rename_i hnull _
    rcases ha : decode source with e | a
    · rw [ha] at h
      cases h
    · rw [ha] at h
      obtain rfl := Except.ok.inj h
      exact Or.inr ⟨a, rfl, hnull, rfl⟩

theorem reads_some (h : decode.Reads v a) (hv : v ≠ .null) :
    (optional decode).Reads v (some a) := by
  have hmap : (decode (Source.ofJson v)).map some = .ok (some a) := congrArg (Except.map some) h
  cases v with
  | null => exact absurd rfl hv
  | _ => exact hmap

/-- A value that may be absent is read back, if only null is written as null. -/
theorem ReadsBack.optional (h : decode.ReadsBack encode)
    (hnull : ∀ source a, decode source = .ok a → encode a = .null → source = .null) :
    (optional decode).ReadsBack (Encode.orNull encode) := by
  intro source x hx
  rcases optional_eq_ok hx with rfl | ⟨a, rfl, hsource, ha⟩
  · rfl
  · exact reads_some (h source a ha) fun hv => hsource (hnull source a ha hv)

/-- Present values are read back, where none is written as null. -/
theorem reads_orNull {x : Option α} (h : ∀ a ∈ x, decode.Reads (encode a) a ∧ encode a ≠ .null) :
    (Decoder.optional decode).Reads (Encode.orNull encode x) x := by
  cases x with
  | none => rfl
  | some a => exact reads_some (h a rfl).1 (h a rfl).2

/-- What is read as a value that may be absent repeats no key. -/
theorem distinct_of_optional_json {x : Option Json} (h : Decoder.optional json source = .ok x) :
    ∀ v ∈ x, v.Distinct := by
  rintro v rfl
  rcases optional_eq_ok h with h | ⟨w, hw, _, hread⟩
  · cases h
  · obtain rfl := Option.some.inj hw
    exact distinct_of_json hread

theorem toJson_eq_null (h : source.toJson = .ok .null) : source = .null := by
  cases source with
  | null => rfl
  | array items ending =>
    rw [Source.toJson] at h
    obtain ⟨_, _, h⟩ := bind_eq_ok.mp h
    obtain ⟨_, _, h⟩ := bind_eq_ok.mp h
    cases h
  | object members ending =>
    rw [Source.toJson] at h
    obtain ⟨_, _, h⟩ := bind_eq_ok.mp h
    obtain ⟨_, _, h⟩ := bind_eq_ok.mp h
    cases h
  | _ => cases h

theorem readsBack_optional_json : (Decoder.optional json).ReadsBack (Encode.orNull id) :=
  readsBack_json.optional fun _ _ h hnull => toJson_eq_null (hnull ▸ json_eq_ok.mp h)

theorem of_mapM_eq_ok {sources : List Source} {xs : List α} (h : sources.mapM decode = .ok xs) :
    ∀ a ∈ xs, ∃ source, decode source = .ok a := by
  induction sources generalizing xs with
  | nil =>
    rw [List.mapM_nil] at h
    obtain rfl := pure_eq_ok.mp h
    exact nofun
  | cons source sources ih =>
    rw [List.mapM_cons] at h
    obtain ⟨b, hb, h⟩ := bind_eq_ok.mp h
    obtain ⟨bs, hbs, h⟩ := bind_eq_ok.mp h
    obtain rfl := pure_eq_ok.mp h
    intro a ha
    rcases List.mem_cons.mp ha with rfl | ha
    · exact ⟨source, hb⟩
    · exact ih hbs a ha

theorem of_list_eq_ok {xs : List α} (h : list decode source = .ok xs) :
    ∀ a ∈ xs, ∃ source, decode source = .ok a := by
  unfold list at h
  split at h
  · obtain ⟨ys, hys, h⟩ := bind_eq_ok.mp h
    obtain ⟨_, _, h⟩ := bind_eq_ok.mp h
    obtain rfl := pure_eq_ok.mp h
    exact of_mapM_eq_ok hys
  · exact absurd h unexpected_ne_ok

theorem reads_list {xs : List α} (h : ∀ a ∈ xs, decode.Reads (encode a) a) :
    (list decode).Reads (Encode.list encode xs) xs := by
  have hitems : (Source.ofItems (xs.map encode)).mapM decode = .ok xs := by
    induction xs with
    | nil => rfl
    | cons a xs ih =>
      have ha : decode (Source.ofJson (encode a)) = .ok a := h a List.mem_cons_self
      rw [List.map_cons, Source.ofItems, List.mapM_cons, ha,
        ih fun b hb => h b (List.mem_cons_of_mem _ hb)]
      rfl
  rw [Reads, Encode.list, Source.ofJson, list, hitems]
  rfl

/-- A list of what is read back is read back. -/
theorem ReadsBack.list (h : decode.ReadsBack encode) :
    (list decode).ReadsBack (Encode.list encode) := by
  intro source xs hxs
  refine reads_list fun a ha => ?_
  obtain ⟨item, hitem⟩ := of_list_eq_ok hxs a ha
  exact h item a hitem

theorem reads_strings (xs : List String) :
    (Decoder.list string).Reads (Encode.strings xs) xs :=
  reads_list fun s _ => reads_string s

end Decoder

/-! ### Fields that are written -/

namespace Encode

variable {name : String} {v : Json}

/-- The members are the field with this value, or none where its value `b` is the default. -/
def Writes (ms : Json.Members) (name : String) (v : Json) (b default : β) : Prop :=
  ms = [(name, v)] ∨ ms = [] ∧ b = default

theorem writes_optional {encode : β → Json} {x : Option β} :
    Writes (optional name encode x) name (orNull encode x) x none := by
  cases x with
  | none => exact Or.inr ⟨rfl, rfl⟩
  | some b => exact Or.inl rfl

theorem writes_flag {b : Bool} : Writes (flag name b) name (.bool b) b false := by
  cases b with
  | false => exact Or.inr ⟨rfl, rfl⟩
  | true => exact Or.inl rfl

theorem writes_ite {c : Bool} {b default : β} (h : c = true → b = default) :
    Writes (if c then [] else field name v) name v b default := by
  cases c with
  | false => exact Or.inl rfl
  | true => exact Or.inr ⟨rfl, h rfl⟩

theorem writes_list {xs : List β} :
    Writes (if xs.isEmpty then [] else field name v) name v xs [] :=
  writes_ite List.isEmpty_iff.mp

theorem forall_mem_field {P : String × Json → Prop} :
    (∀ m ∈ field name v, P m) ↔ P (name, v) := List.forall_mem_singleton

theorem forall_mem_optional {P : String × Json → Prop} {encode : β → Json} {x : Option β} :
    (∀ m ∈ optional name encode x, P m) ↔ ∀ b ∈ x, P (name, encode b) := by
  cases x <;> simp [optional]

end Encode

/-! ### Records -/

namespace Record

open Source (ofMembers)

variable {r : Record α} {ms ns : Json.Members} {fields : List (String × Bool)}
  {name : String} {v : Json} {source : Source} {seen : List String} {required : Bool} {x y : α}
  {b default : β} {decode : Decoder β}

/-- Sets the fields that members give, one after the other. -/
def assign (r : Record α) (ms : Json.Members) (x : α) : Except DecodeError α :=
  ms.foldlM (fun x m => r.set m.1 (Source.ofJson m.2) x) x

theorem readMembers_cons {members : List (Except TextFault String × Source)}
    (hfield : r.hasField name = true) (hseen : name ∉ seen) :
    r.readMembers ((.ok name, source) :: members) seen x =
      r.set name source x >>= fun y => r.readMembers members (name :: seen) y := by
  have hnew : seen.contains name = false := by
    rwa [List.contains_eq_mem, decide_eq_false_iff_not]
  rw [readMembers]
  simp only [Except.mapError, ok_bind, hfield, hnew, if_true]
  rfl

theorem readMembers_ofMembers (hfields : ∀ key ∈ ms.map Prod.fst, r.hasField key = true)
    (hkeys : (ms.map Prod.fst).Nodup) (hseen : ∀ key ∈ ms.map Prod.fst, key ∉ seen)
    (h : r.assign ms x = .ok y) :
    r.readMembers (ofMembers ms) seen x = .ok ((ms.map Prod.fst).reverse ++ seen, y) := by
  induction ms generalizing seen x with
  | nil =>
    obtain rfl := pure_eq_ok.mp h
    rfl
  | cons m ms ih =>
    rw [assign, List.foldlM_cons] at h
    obtain ⟨z, hz, h⟩ := bind_eq_ok.mp h
    rw [List.map_cons, List.nodup_cons] at hkeys
    have hrest : ∀ key ∈ ms.map Prod.fst, key ∉ m.1 :: seen := by
      intro key hkey hmem
      rcases List.mem_cons.mp hmem with rfl | hmem
      · exact hkeys.1 hkey
      · exact hseen key (List.mem_cons_of_mem _ hkey) hmem
    rw [ofMembers, readMembers_cons (hfields m.1 List.mem_cons_self) (hseen m.1 List.mem_cons_self),
      hz, ok_bind, ih (fun key hkey => hfields key (List.mem_cons_of_mem _ hkey)) hkeys.2
        hrest h,
      List.map_cons, List.reverse_cons, List.append_assoc, List.singleton_append]

/-- The members spell the structure, in terms of the fields gone by: no field is written twice,
those that are required are written, and the structure is what a reader has assembled. -/
structure Spelled (r : Record α) (fields : List (String × Bool)) (ms : Json.Members) (x : α) :
    Prop where
  keys : (ms.map Prod.fst).Sublist (fields.map Prod.fst)
  required : ∀ f ∈ fields, f.2 = true → f.1 ∈ ms.map Prod.fst
  assigned : r.assign ms r.blank = .ok x

theorem Spelled.nil (r : Record α) : r.Spelled [] [] r.blank := ⟨.refl _, nofun, rfl⟩

theorem Spelled.snoc (h : r.Spelled fields ms x) (hset : r.set name (Source.ofJson v) x = .ok y) :
    r.Spelled (fields ++ [(name, required)]) (ms ++ [(name, v)]) y where
  keys := by
    rw [List.map_append, List.map_append]
    exact h.keys.append (.refl _)
  required f hf hrequired := by
    rw [List.map_append]
    rcases List.mem_append.mp hf with hf | hf
    · exact List.mem_append_left _ (h.required f hf hrequired)
    · obtain rfl := List.mem_singleton.mp hf
      exact List.mem_append_right _ List.mem_cons_self
  assigned := by
    have hassigned := h.assigned
    rw [assign] at hassigned ⊢
    rw [List.foldlM_append, hassigned, ok_bind, List.foldlM_cons, hset]
    rfl

/-- A structure with a field set. The update is an argument here, so that a structure after many
updates is not spelled out field by field. -/
def put (update : β → α → α) (b : β) (x : α) : α := update b x

theorem Spelled.put_snoc {update : β → α → α} (h : r.Spelled fields ms x)
    (hread : decode.Reads v b)
    (hset : ∀ source y, r.set name source y = do return update (← decode source) y) :
    r.Spelled (fields ++ [(name, required)]) (ms ++ [(name, v)]) (put update b x) := by
  refine h.snoc ?_
  rw [hset, show decode (Source.ofJson v) = .ok b from hread]
  rfl

/-- A field that must be present. -/
theorem Spelled.required_field (h : r.Spelled fields ms x) (name : String) (update : β → α → α)
    (hread : decode.Reads v b)
    (hset : ∀ source y, r.set name source y = do return update (← decode source) y := by
      exact fun _ _ => rfl) :
    r.Spelled (fields ++ [(name, true)]) (ms ++ Encode.field name v) (put update b x) :=
  h.put_snoc hread hset

/-- A field that need not be present and is always written. -/
theorem Spelled.field (h : r.Spelled fields ms x) (name : String) (update : β → α → α)
    (hread : decode.Reads v b)
    (hset : ∀ source y, r.set name source y = do return update (← decode source) y := by
      exact fun _ _ => rfl) :
    r.Spelled (fields ++ [(name, false)]) (ms ++ Encode.field name v) (put update b x) :=
  h.put_snoc hread hset

/-- A field that is left out when it has its default, which must be what it is then read as. -/
theorem Spelled.part (h : r.Spelled fields ms x) (name : String) (get : α → β)
    (update : β → α → α) (hread : decode.Reads v b)
    (hwritten : Encode.Writes ns name v b default)
    (hset : ∀ source y, r.set name source y = do return update (← decode source) y := by
      exact fun _ _ => rfl)
    (hget : ∀ y, update (get y) y = y := by exact fun _ => rfl)
    (hdefault : get x = default := by rfl) :
    r.Spelled (fields ++ [(name, false)]) (ms ++ ns) (put update b x) := by
  rcases hwritten with rfl | ⟨rfl, rfl⟩
  · exact h.put_snoc hread hset
  · rw [List.append_nil, put, ← hdefault, hget]
    refine ⟨h.keys.trans ?_, fun f hf hrequired => ?_, h.assigned⟩
    · rw [List.map_append]
      exact List.sublist_append_left _ _
    · rcases List.mem_append.mp hf with hf | hf
      · exact h.required f hf hrequired
      · obtain rfl := List.mem_singleton.mp hf
        cases hrequired

/-- **A structure is read from members that spell it**, with the fields that the reader knows. -/
theorem Spelled.reads (h : r.Spelled r.fields ms x) (hfields : (r.fields.map Prod.fst).Nodup)
    (hx : x = y) : Decoder.Reads r.decode (.object ms) y := by
  subst hx
  have hknown : ∀ key ∈ ms.map Prod.fst, r.hasField key = true := by
    intro key hkey
    obtain ⟨f, hf, rfl⟩ := List.mem_map.mp (h.keys.subset hkey)
    exact List.any_eq_true.mpr ⟨f, hf, beq_self_eq_true _⟩
  have hrun : r.readMembers (ofMembers ms) [] r.blank = _ :=
    readMembers_ofMembers hknown (h.keys.nodup hfields) (fun _ _ => List.not_mem_nil) h.assigned
  have hpresent : r.checkRequired ((ms.map Prod.fst).reverse ++ []) = .ok () := by
    have hnone : (r.fields.find? fun f =>
        f.2 && !((ms.map Prod.fst).reverse ++ []).contains f.1) = none := by
      rw [List.find?_eq_none]
      intro f hf hmissing
      simp only [List.append_nil, List.contains_eq_mem, List.mem_reverse, Bool.and_eq_true,
        Bool.not_eq_true', decide_eq_false_iff_not] at hmissing
      exact hmissing.2 (h.required f hf hmissing.1)
    rw [checkRequired, hnone]
  rw [Decoder.Reads, Source.ofJson]
  show r.decodeObject (.object (ofMembers ms) none) = .ok x
  simp only [decodeObject, hrun]
  show (do r.checkRequired ((ms.map Prod.fst).reverse ++ []); pure x) = Except.ok x
  rw [hpresent]
  rfl

/-- Members that spell a structure repeat no key. -/
theorem Spelled.distinct (h : r.Spelled r.fields ms x) (hfields : (r.fields.map Prod.fst).Nodup)
    (hvalues : ∀ m ∈ ms, m.2.Distinct) : (Json.object ms).Distinct :=
  .object (h.keys.nodup hfields) hvalues

/-! ### What has been read -/

section

variable {P : α → Prop} (hset : ∀ name source x y, P x → r.set name source x = .ok y → P y)

include hset

theorem readMembers_induction {members : List (Except TextFault String × Source)}
    {p : List String × α} (hx : P x) (h : r.readMembers members seen x = .ok p) : P p.2 := by
  induction members generalizing seen x with
  | nil =>
    obtain rfl := Except.ok.inj h
    exact hx
  | cons m members ih =>
    obtain ⟨key, source⟩ := m
    rw [readMembers] at h
    obtain ⟨name, _, h⟩ := bind_eq_ok.mp h
    split at h
    · split at h
      · cases h
      · obtain ⟨y, hy, h⟩ := bind_eq_ok.mp h
        exact ih (hset name source x y hx hy) h
    · obtain ⟨_, _, h⟩ := bind_eq_ok.mp h
      exact ih hx h

theorem readItems_induction {ending : Option TextFault} {items : List Source} {position : Nat}
    {p : List Source × α} (hx : P x)
    (h : r.readItems ending fields items position x = .ok p) : P p.2 := by
  induction fields generalizing items position x with
  | nil =>
    rw [readItems] at h
    obtain rfl := Except.ok.inj h
    exact hx
  | cons f fields ih =>
    cases items with
    | nil =>
      rw [readItems] at h
      obtain ⟨_, _, h⟩ := bind_eq_ok.mp h
      split at h
      · cases h
      · exact ih hx h
    | cons item items =>
      rw [readItems] at h
      obtain ⟨y, hy, h⟩ := bind_eq_ok.mp h
      exact ih (hset f.1 item x y hx hy) h

variable (r) in
/-- **What setting a field keeps, holds of what has been read**, from an object or an array. -/
theorem decode_induction (hblank : P r.blank) (h : r.decode source = .ok x) : P x := by
  unfold decode at h
  split at h
  · obtain ⟨⟨rest, y⟩, hy, h⟩ := bind_eq_ok.mp h
    have hkept : P y := readItems_induction hset hblank hy
    simp only at h
    split at h
    · obtain ⟨_, _, h⟩ := bind_eq_ok.mp h
      obtain rfl := pure_eq_ok.mp h
      exact hkept
    · cases h
  · unfold decodeObject at h
    split at h
    · obtain ⟨⟨seen, y⟩, hy, h⟩ := bind_eq_ok.mp h
      have hkept : P y := readMembers_induction hset hblank hy
      obtain ⟨_, _, h⟩ := bind_eq_ok.mp h
      obtain ⟨_, _, h⟩ := bind_eq_ok.mp h
      obtain rfl := pure_eq_ok.mp h
      exact hkept
    · exact absurd h Decoder.unexpected_ne_ok

end

/-- What a field is set to has been read. -/
theorem returns_eq_ok {read : Except DecodeError β} {f : β → α} :
    (do return f (← read)) = (.ok y : Except DecodeError α) ↔ ∃ b, read = .ok b ∧ f b = y := by
  rw [bind_eq_ok]
  exact exists_congr fun b => and_congr_right fun _ => pure_eq_ok

end Record

end StreamTopology
