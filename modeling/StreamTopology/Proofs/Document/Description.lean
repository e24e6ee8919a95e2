import StreamTopology.Graph.Basic
import StreamTopology.Proofs.Document.Operator
import StreamTopology.Proofs.Graph.Insertion

/-!
# Reading written topologies

The settings of a topology share one object with settings that have no meaning here, which are kept
and written behind them. They are read back because none of these has the name of a setting, and
none comes twice.

A graph adds nothing to the description that it was made from but handles and an index, and both
follow from the order of the operators. So a graph that was made from a document is the graph that
its own document describes.

## Main results

* `GraphConfig.readsBack`, `Description.readsBack`.
* `Graph.documents_readBack`: graphs, and all parts of their documents, are read back.
-/

namespace StreamTopology

open Encode

variable {source : Source}

/-! ### Settings -/

namespace Checkpoint

open Decoder Record

variable {c : Checkpoint}

/-- The period is read from what it is written as. -/
structure Legible (c : Checkpoint) : Prop where
  period : int64.Reads (.number (.int c.period)) c.period

theorem legible_of_decode (h : decode source = .ok c) : c.Legible := by
  refine record.decode_induction (fun name source x y hx h => ?_) ⟨rfl⟩ h
  simp only [record] at h
  split at h
  case h_1 =>
    obtain ⟨n, hn, rfl⟩ := returns_eq_ok.mp h
    exact ⟨readsBack_integer _ _ hn⟩
  case h_2 =>
    obtain ⟨_, _, rfl⟩ := returns_eq_ok.mp h
    exact { hx with }
  case h_3 =>
    obtain rfl := Except.ok.inj h
    exact hx

theorem reads (h : c.Legible) : decode.Reads c.encode c := by
  have hspelled := Spelled.nil record
    |>.required_field "period" (fun n c => { c with period := n }) h.period
    |>.required_field "unit" (fun u c => { c with unit := u }) c.unit.reads
  exact hspelled.reads (by decide) (by cases c; rfl)

theorem readsBack : decode.ReadsBack encode := fun _ _ h => reads (legible_of_decode h)

end Checkpoint

namespace GraphConfig

open Decoder

variable {c x : GraphConfig} {seen : List String} {ms : Json.Members}

/-- The names of the settings with a meaning. -/
def names : List String := ["topology.vmArgs", "checkpoint"]

/-- The checkpoint is read from what it is written as. The other settings are no settings with a
meaning, none comes twice, and their values repeat no key. -/
structure Legible (c : GraphConfig) : Prop where
  checkpoint : (Decoder.optional Checkpoint.decode).Reads
    (orNull Checkpoint.encode c.checkpoint) c.checkpoint
  keys : (c.extra.map Prod.fst).Nodup
  others : ∀ m ∈ c.extra, m.1 ∉ names
  values : ∀ m ∈ c.extra, m.2.Distinct

section

variable {members : List (Except TextFault String × Source)} {name : String}

theorem exists_of_readMembers {key : Except TextFault String}
    (h : readMembers ((key, source) :: members) seen x = .ok c) :
    ∃ name, key = .ok name ∧ name ∉ seen := by
  rw [readMembers] at h
  obtain ⟨name, hname, h⟩ := bind_eq_ok.mp h
  refine ⟨name, mapError_eq_ok.mp hname, fun hmem => ?_⟩
  simp only [List.contains_eq_mem, hmem, decide_true, if_true] at h
  cases h

theorem readMembers_vmArgs (hseen : "topology.vmArgs" ∉ seen) :
    readMembers ((.ok "topology.vmArgs", source) :: members) seen x =
      Decoder.list string source >>= fun args =>
        readMembers members ("topology.vmArgs" :: seen) { x with vmArgs := args } := by
  rw [readMembers]
  simp only [Except.mapError, ok_bind, List.contains_eq_mem, hseen, decide_false]
  rfl

theorem readMembers_checkpoint (hseen : "checkpoint" ∉ seen) :
    readMembers ((.ok "checkpoint", source) :: members) seen x =
      Decoder.optional Checkpoint.decode source >>= fun checkpoint =>
        readMembers members ("checkpoint" :: seen) { x with checkpoint := checkpoint } := by
  rw [readMembers]
  simp only [Except.mapError, ok_bind, List.contains_eq_mem, hseen, decide_false]
  rfl

theorem readMembers_other (hseen : name ∉ seen) (hname : name ∉ names) :
    readMembers ((.ok name, source) :: members) seen x =
      json source >>= fun setting =>
        readMembers members seen { x with extra := x.extra.insert name setting } := by
  simp only [names, List.mem_cons, List.not_mem_nil, or_false, not_or] at hname
  obtain ⟨hargs, hcheckpoint⟩ := hname
  rw [readMembers]
  simp only [Except.mapError, ok_bind, List.contains_eq_mem, hseen, decide_false]
  rfl

theorem legible_of_readMembers (hx : x.Legible) (h : readMembers members seen x = .ok c) :
    c.Legible := by
  induction members generalizing seen x with
  | nil =>
    obtain rfl := Except.ok.inj h
    exact hx
  | cons m members ih =>
    obtain ⟨key, source⟩ := m
    obtain ⟨name, rfl, hseen⟩ := exists_of_readMembers h
    by_cases hname : name ∈ names
    · simp only [names, List.mem_cons, List.not_mem_nil, or_false] at hname
      rcases hname with rfl | rfl
      · rw [readMembers_vmArgs hseen] at h
        obtain ⟨args, _, h⟩ := bind_eq_ok.mp h
        refine ih ?_ h
        exact ⟨hx.checkpoint, hx.keys, hx.others, hx.values⟩
      · rw [readMembers_checkpoint hseen] at h
        obtain ⟨y, hy, h⟩ := bind_eq_ok.mp h
        refine ih ?_ h
        exact ⟨Checkpoint.readsBack.optional (fun _ _ _ => nofun) _ _ hy, hx.keys, hx.others,
          hx.values⟩
    · rw [readMembers_other hseen hname] at h
      obtain ⟨v, hv, h⟩ := bind_eq_ok.mp h
      refine ih ?_ h
      refine ⟨hx.checkpoint, Json.Members.nodup_insert hx.keys, fun m hm => ?_, fun m hm => ?_⟩
      · rcases Json.Members.mem_insert hm with rfl | hm
        · exact hname
        · exact hx.others m hm
      · rcases Json.Members.mem_insert hm with rfl | hm
        · exact distinct_of_json hv
        · exact hx.values m hm

end

theorem legible_of_decode (h : decode source = .ok c) : c.Legible := by
  unfold decode at h
  split at h
  · obtain ⟨y, hy, h⟩ := bind_eq_ok.mp h
    obtain ⟨_, _, h⟩ := bind_eq_ok.mp h
    obtain rfl := pure_eq_ok.mp h
    exact legible_of_readMembers (x := {}) ⟨rfl, List.nodup_nil, nofun, nofun⟩ hy
  · exact absurd h unexpected_ne_ok

/-- Settings without a meaning are added behind those that are there. -/
theorem readMembers_others (hseen : ∀ m ∈ ms, m.1 ∉ seen) (hothers : ∀ m ∈ ms, m.1 ∉ names)
    (hvalues : ∀ m ∈ ms, m.2.Distinct) (hkeys : ((x.extra ++ ms).map Prod.fst).Nodup) :
    readMembers (Source.ofMembers ms) seen x = .ok { x with extra := x.extra ++ ms } := by
  induction ms generalizing x with
  | nil =>
    rw [List.append_nil]
    rfl
  | cons m ms ih =>
    have hsplit : x.extra ++ m :: ms = x.extra ++ [m] ++ ms := by simp
    have hnew : m.1 ∉ x.extra.map Prod.fst := by
      rw [List.map_append, List.map_cons, List.nodup_append] at hkeys
      exact fun hm => hkeys.2.2 _ hm _ List.mem_cons_self rfl
    have hread : json (Source.ofJson m.2) = .ok m.2 :=
      reads_json.mpr (hvalues m List.mem_cons_self)
    rw [Source.ofMembers, readMembers_other (hseen m List.mem_cons_self)
      (hothers m List.mem_cons_self), hread, ok_bind, Json.Members.insert_of_notMem hnew]
    rw [hsplit] at hkeys ⊢
    exact ih (fun m hm => hseen m (List.mem_cons_of_mem _ hm))
      (fun m hm => hothers m (List.mem_cons_of_mem _ hm))
      (fun m hm => hvalues m (List.mem_cons_of_mem _ hm)) hkeys

section

variable {args : List String} {checkpoint : Option Checkpoint} (h : c.Legible)

include h

theorem Legible.reads_others (hseen : seen ⊆ names) :
    readMembers (Source.ofMembers c.extra) seen { vmArgs := args, checkpoint := checkpoint } =
      .ok { vmArgs := args, checkpoint := checkpoint, extra := c.extra } :=
  readMembers_others (fun m hm hmem => h.others m hm (hseen hmem)) h.others h.values h.keys

theorem Legible.reads_checkpoint (hseen : seen ⊆ ["topology.vmArgs"]) :
    readMembers (Source.ofMembers
      (Encode.optional "checkpoint" Checkpoint.encode c.checkpoint ++ c.extra)) seen
        { vmArgs := args } =
      .ok { vmArgs := args, checkpoint := c.checkpoint, extra := c.extra } := by
  have hnew : "checkpoint" ∉ seen := fun hmem => absurd (hseen hmem) (by decide)
  have hread : Decoder.optional Checkpoint.decode
      (Source.ofJson (orNull Checkpoint.encode c.checkpoint)) = .ok c.checkpoint := h.checkpoint
  rcases writes_optional with hwritten | ⟨hwritten, hnone⟩
  · rw [hwritten, List.singleton_append, Source.ofMembers, readMembers_checkpoint hnew, hread,
      ok_bind]
    exact h.reads_others (List.cons_subset.mpr ⟨by decide, List.Subset.trans hseen (by decide)⟩)
  · rw [hwritten, List.nil_append, hnone]
    exact h.reads_others (List.Subset.trans hseen (by decide))

theorem reads : decode.Reads c.encode c := by
  have hread : Decoder.list string (Source.ofJson (strings c.vmArgs)) = .ok c.vmArgs :=
    reads_strings c.vmArgs
  have hrun : readMembers (Source.ofMembers
      ((if c.vmArgs.isEmpty then [] else field "topology.vmArgs" (strings c.vmArgs)) ++
        (Encode.optional "checkpoint" Checkpoint.encode c.checkpoint ++ c.extra))) [] {} =
      .ok c := by
    rcases writes_list with hwritten | ⟨hwritten, hnil⟩
    · rw [hwritten, List.singleton_append, Source.ofMembers, readMembers_vmArgs List.not_mem_nil,
        hread,
        ok_bind]
      exact h.reads_checkpoint (List.Subset.refl _)
    · have hc : c = { vmArgs := [], checkpoint := c.checkpoint, extra := c.extra } := by
        rw [← hnil]
      rw [hwritten, List.nil_append, h.reads_checkpoint (List.nil_subset _), ← hc]
  rw [Reads, encode, Source.ofJson, List.append_assoc, decode, hrun]
  rfl

end

/-- **Settings are read back.** -/
theorem readsBack : decode.ReadsBack encode := fun _ _ h => reads (legible_of_decode h)

end GraphConfig

/-! ### Descriptions -/

namespace Description

open Decoder Record

variable {d : Description}

/-- The parts of the description are read from what they are written as. -/
structure Legible (d : Description) : Prop where
  parameters : Parameters.decode.Reads d.parameters.encode d.parameters
  config : GraphConfig.decode.Reads d.config.encode d.config
  operators : (Decoder.list Operator.decode).Reads (Encode.list Operator.encode d.operators)
    d.operators

theorem legible_of_decode (h : decode source = .ok d) : d.Legible := by
  refine record.decode_induction (fun name source x y hx h => ?_) ⟨rfl, rfl, rfl⟩ h
  simp only [record] at h
  split at h
  case h_4 =>
    obtain ⟨ps, hps, rfl⟩ := returns_eq_ok.mp h
    exact { hx with parameters := Parameters.readsBack _ _ hps }
  case h_5 =>
    obtain ⟨c, hc, rfl⟩ := returns_eq_ok.mp h
    exact { hx with config := GraphConfig.readsBack _ _ hc }
  case h_6 =>
    obtain ⟨ops, hops, rfl⟩ := returns_eq_ok.mp h
    exact { hx with operators := Operator.readsBack.list _ _ hops }
  case h_7 =>
    obtain rfl := Except.ok.inj h
    exact hx
  all_goals
    obtain ⟨_, _, rfl⟩ := returns_eq_ok.mp h
    exact { hx with }

theorem reads (h : d.Legible) : decode.Reads d.encode d := by
  have hspelled := Spelled.nil record
    |>.required_field "name" (fun s d => { d with name := s }) (reads_string d.name)
    |>.part "namespace" (·.splNamespace) (fun s d => { d with splNamespace := s })
      (reads_strings? d.splNamespace) writes_optional
    |>.field "public" (fun b d => { d with isPublic := b }) (reads_bool d.isPublic)
    |>.field "parameters" (fun ps d => { d with parameters := ps }) h.parameters
    |>.field "config" (fun c d => { d with config := c }) h.config
    |>.field "operators" (fun ops d => { d with operators := ops }) h.operators
  exact hspelled.reads (by decide) (by cases d; rfl)

/-- **Descriptions are read back.** -/
theorem readsBack : decode.ReadsBack encode := fun _ _ h => reads (legible_of_decode h)

end Description

/-! ### Graphs -/

namespace Graph

variable {g : Graph} {d : Description}

/-- Looking up all places of an arena in their order gives what is in it. -/
theorem filterMap_range (ops : List Operator) :
    (List.range ops.length).filterMap (fun i => ops[i]?) = ops := by
  induction ops using List.reverseRecOn with
  | nil => rfl
  | append_singleton ops op ih =>
    have hbefore : (List.range ops.length).filterMap (fun i => (ops ++ [op])[i]?) =
        (List.range ops.length).filterMap fun i => ops[i]? :=
      List.filterMap_congr fun i hi => List.getElem?_append_left (List.mem_range.mp hi)
    have hlast : [ops.length].filterMap (fun i => (ops ++ [op])[i]?) = [op] := by simp
    rw [List.length_append, List.length_singleton, List.range_succ, List.filterMap_append, hbefore,
      ih, hlast]

/-- An arena without gaps, in its own order. -/
theorem operators_of_slots {ops : List Operator} (hslots : g.slots = ops.map some)
    (horder : g.order = (List.range ops.length).map Handle.mk) : g.operators = ops := by
  have hget (i : Nat) : g.get? ⟨i⟩ = ops[i]? := by
    rw [get?, hslots, List.getElem?_map]
    cases ops[i]? <;> rfl
  have hlookup : g.get? ∘ Handle.mk = fun i => ops[i]? := funext hget
  rw [operators_eq_filterMap, horder, List.filterMap_map, hlookup, filterMap_range]

/-- The graph of a description describes it. -/
theorem toDescription_of_ofDescription (h : ofDescription d = .ok g) : g.toDescription = d := by
  unfold ofDescription at h
  split at h
  · cases h
  · obtain rfl := Except.ok.inj h
    have hoperators := operators_of_slots (g := reindexed
      { name := d.name
        splNamespace := d.splNamespace
        isPublic := d.isPublic
        parameters := d.parameters
        config := d.config
        slots := d.operators.map some
        order := (List.range d.operators.length).map Handle.mk }) rfl rfl
    rw [toDescription, hoperators]
    rfl

theorem ofJson_toJson_of_decode (hd : Description.decode source = .ok d)
    (h : ofDescription d = .ok g) : ofJson g.toJson = .ok g := by
  have hread : Description.ofJson d.encode = .ok d := Description.readsBack source d hd
  rw [toJson, toDescription_of_ofDescription h, ofJson, hread]
  exact h

/-- A graph that was read from a document is the graph of its own document. -/
theorem ofJson_toJson {v : Json} (h : ofJson v = .ok g) : ofJson g.toJson = .ok g := by
  obtain ⟨d, hd, h⟩ := bind_eq_ok.mp h
  exact ofJson_toJson_of_decode (mapError_eq_ok.mp hd) h

/-- So is a graph that was read from a text. -/
theorem ofJson_toJson_of_ofText {text : String} (h : ofText text = .ok g) :
    ofJson g.toJson = .ok g := by
  obtain ⟨d, hd, h⟩ := bind_eq_ok.mp h
  have hd := mapError_eq_ok.mp hd
  rcases hsource : Source.ofText text with ⟨source, more⟩
  rw [Description.ofText, hsource] at hd
  obtain ⟨d', hread, hd⟩ := bind_eq_ok.mp hd
  cases more with
  | true => cases hd
  | false =>
    obtain rfl := pure_eq_ok.mp hd
    exact ofJson_toJson_of_decode hread h

/-- **Reading and writing are inverse on what has been read.** A document that is accepted as a
graph is written as a document that is accepted as the same graph. All parts of documents are read
from what they are written as, once they have been read from any source. -/
theorem documents_readBack :
    (∀ v g, ofJson v = .ok g → ofJson g.toJson = .ok g) ∧
      Operator.decode.ReadsBack Operator.encode ∧
      InputPort.decode.ReadsBack InputPort.encode ∧
      OutputPort.decode.ReadsBack OutputPort.encode ∧
      Window.decode.ReadsBack Window.encode ∧
      Placement.decode.ReadsBack Placement.encode ∧
      Width.decode.ReadsBack Width.encode ∧
      SubmissionParameter.decode.ReadsBack SubmissionParameter.encode ∧
      Parameter.decode.ReadsBack Parameter.encode ∧
      Parameters.decode.ReadsBack Parameters.encode :=
  ⟨fun _ _ => ofJson_toJson, Operator.readsBack, InputPort.readsBack, OutputPort.readsBack,
    Window.readsBack, .of_reads Placement.reads, Width.readsBack, SubmissionParameter.readsBack,
    Parameter.readsBack, Parameters.readsBack⟩

/-- A document with an array for a structure, null for a field, a wrapped value, integers for
doubles, and fields in another order. -/
def spellings : Json := .object [
  ("namespace", .null),
  ("operators", .array [
    .array [.string "s", .string "Beacon"],
    .object [
      ("kind", .string "Custom"),
      ("name", .string "t"),
      ("parameters", .object [("count", .object [
        ("type", .string "__spl_value"),
        ("value", .object [("metaType", .string "INT32"), ("value", .number (.int 3))])])]),
      ("consistent", .object [
        ("drainTimeout", .number (.int 1)),
        ("resetTimeout", .number (.int 2)),
        ("maxConsecutiveResetAttempts", .number (.int 5))])]]),
  ("name", .string "spellings")]

/-- The graph of that document. -/
def spellingsGraph : Graph := Graph.reindexed
  { name := "spellings"
    slots := [
      some { name := "s", kind := "Beacon" },
      some { name := "t", kind := "Custom"
             parameters := ⟨[("count", .typed .int32 (.number (.int 3)))]⟩
             consistent := some {
               drainTimeout := Binary64.ofInt 1
               resetTimeout := Binary64.ofInt 2
               maxConsecutiveResetAttempts := Binary64.ofInt 5 } }]
    order := (List.range 2).map Handle.mk }

theorem documents_readBack_spellings :
    ofJson spellings = .ok spellingsGraph ∧ spellingsGraph.toJson ≠ spellings ∧
      ofJson spellingsGraph.toJson = .ok spellingsGraph := by
  have hread : ofJson spellings = .ok spellingsGraph := by decide
  exact ⟨hread, by decide, documents_readBack.1 spellings spellingsGraph hread⟩

end Graph

end StreamTopology
