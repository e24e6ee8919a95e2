import StreamTopology.Proofs.Document.Decode

/-!
# Reading written parameters

A parameter has several spellings: its fields may come as an array, and a typed value may be wrapped
together with its type. It is written in one of them. The values inside are arbitrary, and a map of
parameters is read as a value before its members are, so a parameter is read again only if what it
is written as repeats no key; `TaggedValue.Faithful` keeps both together.

## Main results

* `SubmissionParameter.readsBack`, `Parameter.readsBack`, `Parameters.readsBack`.
-/

namespace StreamTopology

open Encode Record

theorem Decoder.reads_strings? (x : Option String) :
    (optional string).Reads (orNull .string x) x :=
  reads_orNull fun s _ => ⟨reads_string s, nofun⟩

/-! ### Submission parameters -/

namespace SubmissionParameter

open Decoder

variable {p : SubmissionParameter} {source : Source}

/-- The default value is read from what it is written as. -/
structure Legible (p : SubmissionParameter) : Prop where
  defaultValue : (Decoder.optional json).Reads (orNull id p.defaultValue) p.defaultValue

theorem legible_of_decode (h : decode source = .ok p) : p.Legible := by
  refine record.decode_induction (fun name source x y hx h => ?_) ⟨rfl⟩ h
  simp only [record] at h
  split at h
  case h_4 =>
    obtain ⟨v, hv, rfl⟩ := returns_eq_ok.mp h
    exact { hx with defaultValue := readsBack_optional_json _ _ hv }
  case h_6 =>
    -- a name that is no field
    obtain rfl := Except.ok.inj h
    exact hx
  all_goals
    obtain ⟨_, _, rfl⟩ := returns_eq_ok.mp h
    exact { hx with }

/-- The members that a submission parameter is written as. -/
theorem Legible.spelled (h : p.Legible) : ∃ ms, p.encode = .object ms ∧
    record.Spelled record.fields ms p ∧ ∀ m ∈ ms, m.2.Distinct := by
  have hspelled := Spelled.nil record
    |>.required_field "name" (fun s p => { p with name := s }) (reads_string p.name)
    |>.part "metaType" (·.metaType) (fun s p => { p with metaType := s })
      (reads_strings? p.metaType) writes_optional
    |>.part "valueClass" (·.valueClass) (fun s p => { p with valueClass := s })
      (reads_strings? p.valueClass) writes_optional
    |>.part "defaultValue" (·.defaultValue) (fun v p => { p with defaultValue := v })
      h.defaultValue writes_optional
    |>.part "typeModifier" (·.typeModifier) (fun s p => { p with typeModifier := s })
      (reads_strings? p.typeModifier) writes_optional
  refine ⟨_, rfl, hspelled, ?_⟩
  simp only [List.forall_mem_append, forall_mem_field, forall_mem_optional]
  exact ⟨⟨⟨⟨.string _, fun s _ => .string s⟩, fun s _ => .string s⟩,
    distinct_of_optional_json h.defaultValue⟩, fun s _ => .string s⟩

theorem reads (h : p.Legible) : decode.Reads p.encode p := by
  obtain ⟨ms, hms, hspelled, _⟩ := h.spelled
  rw [hms]
  exact hspelled.reads (by decide) rfl

theorem Legible.distinct (h : p.Legible) : p.encode.Distinct := by
  obtain ⟨ms, hms, hspelled, hvalues⟩ := h.spelled
  rw [hms]
  exact hspelled.distinct (by decide) hvalues

/-- **Submission parameters are read back.** -/
theorem readsBack : decode.ReadsBack encode := fun _ _ h => reads (legible_of_decode h)

end SubmissionParameter

/-! ### Parameters -/

namespace TaggedValue

open Decoder

variable {x : TaggedValue} {p : Parameter} {source : Source}

theorem distinct_of_decode (h : record.decode source = .ok x) : x.value.Distinct := by
  refine record.decode_induction (P := fun x => x.value.Distinct) (fun name source x y hx h => ?_)
    .null h
  simp only [record] at h
  split at h
  case h_1 =>
    obtain ⟨v, hv, rfl⟩ := returns_eq_ok.mp h
    exact distinct_of_json hv
  case h_2 =>
    obtain ⟨_, _, rfl⟩ := returns_eq_ok.mp h
    exact hx
  case h_3 =>
    obtain rfl := Except.ok.inj h
    exact hx

theorem spelled (h : x.value.Distinct) : record.Spelled record.fields
    (Encode.field "value" x.value ++ Encode.optional "type" .string x.type) x :=
  Spelled.nil record
    |>.required_field "value" (fun v x => { x with value := v }) (reads_json.mpr h)
    |>.part "type" (·.type) (fun s x => { x with type := s })
      (reads_strings? x.type) writes_optional

/-- What a parameter is written as stands for that parameter, and repeats no key. -/
structure Faithful (p : Parameter) : Prop where
  distinct : (ofParameter p).value.Distinct
  toParameter : (ofParameter p).toParameter = .ok p

/-- The names of meta types are not those of the other types of parameters. -/
theorem faithful_typed {m : MetaType} {v : Json} (hv : v.Distinct) : Faithful (.typed m v) :=
  ⟨hv, by cases m <;> rfl⟩

theorem faithful_unwrap {v : Json} (hv : v.Distinct) (h : unwrap v = .ok p) : Faithful p := by
  unfold unwrap at h
  split at h
  · rename_i members
    split at h
    · obtain ⟨m, _, h⟩ := bind_eq_ok.mp h
      obtain rfl := pure_eq_ok.mp h
      refine faithful_typed ?_
      rcases hvalue : Json.Members.get? members "value" with _ | w
      · exact .null
      · exact hv.get? hvalue
    · cases h
  · cases h

theorem faithful_symbol {type : String} {v : Json} {f : String → Parameter}
    (hf : ∀ text, Faithful (f text)) (h : (symbol type v).map f = .ok p) : Faithful p := by
  obtain ⟨text, _, rfl⟩ := map_eq_ok.mp h
  exact hf text

theorem faithful_submission {q : SubmissionParameter} (hq : q.Legible) :
    Faithful (.submission q) := by
  refine ⟨hq.distinct, ?_⟩
  have hread : SubmissionParameter.decode (Source.ofJson q.encode) = .ok q :=
    SubmissionParameter.reads hq
  simp only [ofParameter, toParameter, hread]

/-- **Whatever fields stand for a parameter**, the fields that it is written as do. -/
theorem faithful_of_toParameter (hx : x.value.Distinct) (h : x.toParameter = .ok p) :
    Faithful p := by
  unfold toParameter at h
  split at h
  case h_1 =>
    obtain rfl := Except.ok.inj h
    exact ⟨hx, rfl⟩
  case h_2 => exact faithful_unwrap hx h
  case h_7 =>
    split at h
    · rename_i q hq
      obtain rfl := Except.ok.inj h
      exact faithful_submission (SubmissionParameter.legible_of_decode hq)
    · cases h
  case h_8 =>
    obtain ⟨m, _, rfl⟩ := map_eq_ok.mp h
    exact faithful_typed hx
  all_goals
    refine faithful_symbol (fun text => ?_) h
    exact ⟨.string text, rfl⟩

end TaggedValue

namespace Parameter

open Decoder TaggedValue

variable {p : Parameter} {source : Source}

theorem faithful_of_decode (h : decode source = .ok p) : Faithful p := by
  obtain ⟨x, hx, h⟩ := bind_eq_ok.mp h
  exact faithful_of_toParameter (distinct_of_decode hx) h

theorem reads (h : Faithful p) : decode.Reads p.encode p := by
  have hread : TaggedValue.record.decode (Source.ofJson p.encode) = .ok (ofParameter p) :=
    (TaggedValue.spelled h.distinct).reads (by decide) rfl
  rw [Reads, decode, hread, ok_bind, h.toParameter]

/-- **Parameters are read back.** -/
theorem readsBack : decode.ReadsBack encode := fun _ _ h => reads (faithful_of_decode h)

theorem distinct_encode (h : Faithful p) : p.encode.Distinct := by
  refine (TaggedValue.spelled h.distinct).distinct (by decide) ?_
  simp only [List.forall_mem_append, forall_mem_field, forall_mem_optional]
  exact ⟨h.distinct, fun s _ => .string s⟩

end Parameter

/-! ### Maps of parameters -/

namespace Parameters

open Decoder TaggedValue

variable {ps : Parameters} {source : Source}

/-- The names are different, and each parameter is read from what it is written as. -/
structure Legible (ps : Parameters) : Prop where
  names : (ps.entries.map Prod.fst).Nodup
  faithful : ∀ e ∈ ps.entries, Faithful e.2

theorem decodeMembers_eq_ok {ms : Json.Members} {es : List (String × Parameter)}
    (h : decodeMembers ms = .ok es) :
    es.map Prod.fst = ms.map Prod.fst ∧ ∀ e ∈ es, Faithful e.2 := by
  induction ms generalizing es with
  | nil =>
    obtain rfl := Except.ok.inj h
    exact ⟨rfl, nofun⟩
  | cons m ms ih =>
    rw [decodeMembers] at h
    obtain ⟨p, hp, h⟩ := bind_eq_ok.mp h
    obtain ⟨ps, hps, h⟩ := bind_eq_ok.mp h
    obtain rfl := pure_eq_ok.mp h
    obtain ⟨hnames, hfaithful⟩ := ih hps
    refine ⟨congrArg (m.1 :: ·) hnames, fun e he => ?_⟩
    rcases List.mem_cons.mp he with rfl | he
    · exact Parameter.faithful_of_decode (mapError_eq_ok.mp hp)
    · exact hfaithful e he

theorem legible_of_decode (h : decode source = .ok ps) : ps.Legible := by
  obtain ⟨ms, hms, h⟩ := bind_eq_ok.mp h
  obtain ⟨es, hes, h⟩ := bind_eq_ok.mp h
  obtain rfl := pure_eq_ok.mp h
  obtain ⟨hnames, hfaithful⟩ := decodeMembers_eq_ok hes
  cases distinct_of_members hms with
  | object hkeys _ => exact ⟨hnames ▸ hkeys, hfaithful⟩

theorem decodeMembers_encode {es : List (String × Parameter)} (h : ∀ e ∈ es, Faithful e.2) :
    decodeMembers (es.map fun e => (e.1, e.2.encode)) = .ok es := by
  induction es with
  | nil => rfl
  | cons e es ih =>
    have he : Parameter.decode (Source.ofJson e.2.encode) = .ok e.2 :=
      Parameter.reads (h e List.mem_cons_self)
    rw [List.map_cons, decodeMembers, he, ih fun d hd => h d (List.mem_cons_of_mem _ hd)]
    rfl

theorem reads (h : ps.Legible) : decode.Reads ps.encode ps := by
  have hdistinct : ps.encode.Distinct := by
    refine .object ?_ fun m hm => ?_
    · rw [List.map_map]
      exact h.names
    · obtain ⟨e, he, rfl⟩ := List.mem_map.mp hm
      exact Parameter.distinct_encode (h.faithful e he)
  have hmembers : members (Source.ofJson ps.encode) = .ok _ := reads_members hdistinct
  rw [Reads, decode, hmembers, ok_bind, decodeMembers_encode h.faithful]
  rfl

/-- **Maps of parameters are read back.** -/
theorem readsBack : decode.ReadsBack encode := fun _ _ h => reads (legible_of_decode h)

theorem writes_someParameters {name : String} :
    Writes (someParameters name ps) name ps.encode ps {} := by
  rcases ps with ⟨es⟩
  cases es with
  | nil => exact Or.inr ⟨rfl, rfl⟩
  | cons e es => exact Or.inl rfl

end Parameters

end StreamTopology
