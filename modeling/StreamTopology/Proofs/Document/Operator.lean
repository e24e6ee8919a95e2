import StreamTopology.Document.Operator
import StreamTopology.Proofs.Document.Parameter

/-!
# Reading written operators

Structures without numbers and without values from outside are read from what they are written as,
whatever they hold. Of the others this holds once they have been read: numbers are within bounds
then, and values repeat no key. `Legible` collects, for each of these structures, the fields of
which it has to be known.

## Main results

* `Placement.reads`, `Consistent.reads`, `Threading.reads`: structures that are always read.
* `Window.readsBack`, `InputPort.readsBack`, `Width.readsBack`, `OutputPort.readsBack`,
  `OperatorConfig.readsBack`, `Operator.readsBack`.
-/

namespace StreamTopology

open Encode Record

variable {source : Source}

/-! ### Windows -/

theorem WindowType.reads (t : WindowType) : decode.Reads t.encode t := by cases t <;> rfl

theorem WindowPolicy.reads (p : WindowPolicy) : decode.Reads p.encode p := by cases p <;> rfl

theorem TimeUnit.reads (u : TimeUnit) : decode.Reads u.encode u := by cases u <;> rfl

theorem WindowPolicy.encode_ne_null (p : WindowPolicy) : p.encode ≠ .null := by cases p <;> nofun

theorem TimeUnit.encode_ne_null (u : TimeUnit) : u.encode ≠ .null := by cases u <;> nofun

namespace Window

open Decoder

variable {w : Window}

/-- The values in the window are read from what they are written as. -/
structure Legible (w : Window) : Prop where
  evictConfig : (Decoder.optional json).Reads (orNull id w.evictConfig) w.evictConfig
  triggerConfig : (Decoder.optional json).Reads (orNull id w.triggerConfig) w.triggerConfig

theorem legible_of_decode (h : decode source = .ok w) : w.Legible := by
  refine record.decode_induction (fun name source x y hx h => ?_) ⟨rfl, rfl⟩ h
  simp only [record] at h
  split at h
  case h_3 =>
    obtain ⟨v, hv, rfl⟩ := returns_eq_ok.mp h
    exact { hx with evictConfig := readsBack_optional_json _ _ hv }
  case h_6 =>
    obtain ⟨v, hv, rfl⟩ := returns_eq_ok.mp h
    exact { hx with triggerConfig := readsBack_optional_json _ _ hv }
  case h_9 =>
    obtain rfl := Except.ok.inj h
    exact hx
  all_goals
    obtain ⟨_, _, rfl⟩ := returns_eq_ok.mp h
    exact { hx with }

theorem reads (h : w.Legible) : decode.Reads w.encode w := by
  have hpolicies (x : Option WindowPolicy) :
      (Decoder.optional WindowPolicy.decode).Reads (orNull WindowPolicy.encode x) x :=
    reads_orNull fun p _ => ⟨p.reads, p.encode_ne_null⟩
  have hunits (x : Option TimeUnit) :
      (Decoder.optional TimeUnit.decode).Reads (orNull TimeUnit.encode x) x :=
    reads_orNull fun u _ => ⟨u.reads, u.encode_ne_null⟩
  have hspelled := Spelled.nil record
    |>.required_field "type" (fun t w => { w with kind := t }) w.kind.reads
    |>.part "evictPolicy" (·.evictPolicy) (fun p w => { w with evictPolicy := p })
      (hpolicies w.evictPolicy) writes_optional
    |>.part "evictConfig" (·.evictConfig) (fun v w => { w with evictConfig := v })
      h.evictConfig writes_optional
    |>.part "evictTimeUnit" (·.evictTimeUnit) (fun u w => { w with evictTimeUnit := u })
      (hunits w.evictTimeUnit) writes_optional
    |>.part "triggerPolicy" (·.triggerPolicy) (fun p w => { w with triggerPolicy := p })
      (hpolicies w.triggerPolicy) writes_optional
    |>.part "triggerConfig" (·.triggerConfig) (fun v w => { w with triggerConfig := v })
      h.triggerConfig writes_optional
    |>.part "triggerTimeUnit" (·.triggerTimeUnit) (fun u w => { w with triggerTimeUnit := u })
      (hunits w.triggerTimeUnit) writes_optional
    |>.field "partitioned" (fun b w => { w with partitioned := b }) (reads_bool w.partitioned)
  exact hspelled.reads (by decide) (by cases w; rfl)

/-- **Windows are read back.** -/
theorem readsBack : decode.ReadsBack encode := fun _ _ h => reads (legible_of_decode h)

end Window

/-! ### Input ports -/

theorem ThreadedPort.reads (t : ThreadedPort) : decode.Reads t.encode t := by
  have hspelled := Spelled.nil record
    |>.field "functional" (fun b t => { t with functional := b }) (Decoder.reads_bool t.functional)
  exact hspelled.reads (by decide) (by cases t; rfl)

namespace InputPort

open Decoder

variable {p : InputPort}

/-- The index and the window are read from what they are written as. -/
structure Legible (p : InputPort) : Prop where
  index : (Decoder.optional size).Reads (orNull nat p.index) p.index
  window : (Decoder.optional Window.decode).Reads (orNull Window.encode p.window) p.window

theorem legible_of_decode (h : decode source = .ok p) : p.Legible := by
  refine record.decode_induction (fun name source x y hx h => ?_) ⟨rfl, rfl⟩ h
  simp only [record] at h
  split at h
  case h_3 =>
    obtain ⟨n, hn, rfl⟩ := returns_eq_ok.mp h
    exact { hx with index := readsBack_unsigned.optional (fun _ _ _ => nofun) _ _ hn }
  case h_6 =>
    obtain ⟨w, hw, rfl⟩ := returns_eq_ok.mp h
    exact { hx with window := Window.readsBack.optional (fun _ _ _ => nofun) _ _ hw }
  case h_8 =>
    obtain rfl := Except.ok.inj h
    exact hx
  all_goals
    obtain ⟨_, _, rfl⟩ := returns_eq_ok.mp h
    exact { hx with }

theorem reads (h : p.Legible) : decode.Reads p.encode p := by
  have hqueue : (Decoder.optional ThreadedPort.decode).Reads (orNull ThreadedPort.encode p.queue)
      p.queue :=
    reads_orNull fun t _ => ⟨t.reads, nofun⟩
  have hspelled := Spelled.nil record
    |>.required_field "name" (fun s p => { p with name := s }) (reads_string p.name)
    |>.field "type" (fun s p => { p with schema := s }) (reads_string p.schema)
    |>.part "index" (·.index) (fun n p => { p with index := n })
      h.index writes_optional
    |>.field "connections" (fun xs p => { p with connections := xs }) (reads_strings p.connections)
    |>.part "alias" (·.aliasName) (fun s p => { p with aliasName := s })
      (reads_strings? p.aliasName) writes_optional
    |>.part "window" (·.window) (fun w p => { p with window := w })
      h.window writes_optional
    |>.part "queue" (·.queue) (fun t p => { p with queue := t })
      hqueue writes_optional
  exact hspelled.reads (by decide) (by cases p; rfl)

/-- **Input ports are read back.** -/
theorem readsBack : decode.ReadsBack encode := fun _ _ h => reads (legible_of_decode h)

end InputPort

/-! ### Output ports -/

namespace Width

open Decoder TaggedValue

variable {w : Width}

theorem reads_fixed (n : Nat) : decode.Reads (encode (.fixed n)) (.fixed n) := by
  have hwidth : ofJson? (encode (.fixed n)) = some (.fixed n) := by
    simp [encode, nat, ofJson?]
  have hjson : json (Source.ofJson (encode (.fixed n))) = .ok (encode (.fixed n)) := rfl
  rw [Reads, decode, hjson, ok_bind, hwidth]
  rfl

/-- What a parameter is written as is no number. -/
theorem reads_parameter {p : Parameter} (h : Faithful p) :
    decode.Reads (encode (.parameter p)) (.parameter p) := by
  have hjson : json (Source.ofJson p.encode) = .ok p.encode :=
    reads_json.mpr (Parameter.distinct_encode h)
  have hread : Parameter.decode (Source.ofJson p.encode) = .ok p := Parameter.reads h
  have hwidth : ofJson? p.encode = none := rfl
  rw [Reads, encode, decode, hjson, ok_bind, hwidth]
  simp only [hread]
  rfl

/-- **Widths are read back.** -/
theorem readsBack : decode.ReadsBack encode := by
  intro source w h
  obtain ⟨v, _, h⟩ := bind_eq_ok.mp h
  rcases w with n | p
  · exact reads_fixed n
  · split at h
    · rename_i w hw
      obtain rfl := pure_eq_ok.mp h
      unfold ofJson? at hw
      split at hw
      · split at hw <;> cases hw
      · cases hw
    · split at h
      · rename_i q hq
        obtain rfl := Width.parameter.inj (pure_eq_ok.mp h)
        exact reads_parameter (Parameter.faithful_of_decode hq)
      · cases h

theorem encode_ne_null (w : Width) : w.encode ≠ .null := by cases w <;> nofun

theorem readsBack_optional : (Decoder.optional decode).ReadsBack (orNull encode) :=
  readsBack.optional fun _ w _ h => absurd h w.encode_ne_null

end Width

namespace OutputPort

open Decoder

variable {p : OutputPort}

/-- The index, the width and the assignments are read from what they are written as. -/
structure Legible (p : OutputPort) : Prop where
  index : (Decoder.optional size).Reads (orNull nat p.index) p.index
  width : (Decoder.optional Width.decode).Reads (orNull Width.encode p.width) p.width
  assigns : Parameters.decode.Reads p.assigns.encode p.assigns

theorem legible_of_decode (h : decode source = .ok p) : p.Legible := by
  refine record.decode_induction (fun name source x y hx h => ?_) ⟨rfl, rfl, rfl⟩ h
  simp only [record] at h
  split at h
  case h_3 =>
    obtain ⟨n, hn, rfl⟩ := returns_eq_ok.mp h
    exact { hx with index := readsBack_unsigned.optional (fun _ _ _ => nofun) _ _ hn }
  case h_6 =>
    obtain ⟨w, hw, rfl⟩ := returns_eq_ok.mp h
    exact { hx with width := Width.readsBack_optional _ _ hw }
  case h_10 =>
    obtain ⟨ps, hps, rfl⟩ := returns_eq_ok.mp h
    exact { hx with assigns := Parameters.readsBack _ _ hps }
  case h_11 =>
    obtain rfl := Except.ok.inj h
    exact hx
  all_goals
    obtain ⟨_, _, rfl⟩ := returns_eq_ok.mp h
    exact { hx with }

theorem reads (h : p.Legible) : decode.Reads p.encode p := by
  have hspelled := Spelled.nil record
    |>.required_field "name" (fun s p => { p with name := s }) (reads_string p.name)
    |>.field "type" (fun s p => { p with schema := s }) (reads_string p.schema)
    |>.part "index" (·.index) (fun n p => { p with index := n })
      h.index writes_optional
    |>.field "connections" (fun xs p => { p with connections := xs }) (reads_strings p.connections)
    |>.part "type.native" (·.nativeType) (fun s p => { p with nativeType := s })
      (reads_strings? p.nativeType) writes_optional
    |>.part "width" (·.width) (fun w p => { p with width := w })
      h.width writes_optional
    |>.field "partitioned" (fun b p => { p with partitioned := b }) (reads_bool p.partitioned)
    |>.part "partitionedKeys" (·.partitionedKeys) (fun xs p => { p with partitionedKeys := xs })
      (reads_strings p.partitionedKeys) writes_list
    |>.part "broadcastPorts" (·.broadcastPorts) (fun xs p => { p with broadcastPorts := xs })
      (reads_strings p.broadcastPorts) writes_list
    |>.part "assigns" (·.assigns) (fun ps p => { p with assigns := ps })
      h.assigns Parameters.writes_someParameters
  exact hspelled.reads (by decide) (by cases p; rfl)

/-- **Output ports are read back.** -/
theorem readsBack : decode.ReadsBack encode := fun _ _ h => reads (legible_of_decode h)

end OutputPort

/-! ### Configuration -/

/-- Placements are read, whatever they hold. -/
theorem Placement.reads (p : Placement) : decode.Reads p.encode p := by
  have hspelled := Spelled.nil record
    |>.part "isolateRegion" (·.isolateRegionId) (fun s p => { p with isolateRegionId := s })
      (Decoder.reads_strings? p.isolateRegionId) writes_optional
    |>.part "lowLatencyRegion" (·.lowLatencyRegionId)
      (fun s p => { p with lowLatencyRegionId := s })
      (Decoder.reads_strings? p.lowLatencyRegionId) writes_optional
    |>.part "explicitColocate" (·.explicitTag) (fun s p => { p with explicitTag := s })
      (Decoder.reads_strings? p.explicitTag) writes_optional
    |>.part "colocateKey" (·.colocateKey) (fun s p => { p with colocateKey := s })
      (Decoder.reads_strings? p.colocateKey) writes_optional
    |>.part "resourceTags" (·.resourceTags) (fun xs p => { p with resourceTags := xs })
      (Decoder.reads_strings p.resourceTags) writes_list
  exact hspelled.reads (by decide) (by cases p; rfl)

namespace Queue

open Decoder

variable {q : Queue}

/-- The size is read from what it is written as. -/
structure Legible (q : Queue) : Prop where
  queueSize : uint32.Reads (nat q.queueSize) q.queueSize

theorem legible_of_decode (h : decode source = .ok q) : q.Legible := by
  refine record.decode_induction (fun name source x y hx h => ?_) ⟨rfl⟩ h
  simp only [record] at h
  split at h
  case h_1 =>
    obtain ⟨n, hn, rfl⟩ := returns_eq_ok.mp h
    exact { hx with queueSize := readsBack_unsigned _ _ hn }
  case h_4 =>
    obtain rfl := Except.ok.inj h
    exact hx
  all_goals
    obtain ⟨_, _, rfl⟩ := returns_eq_ok.mp h
    exact { hx with }

theorem reads (h : q.Legible) : decode.Reads q.encode q := by
  have hspelled := Spelled.nil record
    |>.required_field "queueSize" (fun n q => { q with queueSize := n }) h.queueSize
    |>.required_field "inputPortName" (fun s q => { q with inputPortName := s })
      (reads_string q.inputPortName)
    |>.required_field "congestionPolicy" (fun s q => { q with congestionPolicy := s })
      (reads_string q.congestionPolicy)
  exact hspelled.reads (by decide) (by cases q; rfl)

theorem readsBack : decode.ReadsBack encode := fun _ _ h => reads (legible_of_decode h)

end Queue

theorem Decoder.reads_binary64 (x : Binary64) : binary64.Reads (Encode.binary64 x) x := rfl

namespace View

open Decoder

variable {v : View}

/-- The sample size is read from what it is written as. -/
structure Legible (v : View) : Prop where
  sampleSize : int64.Reads (.number (.int v.sampleSize)) v.sampleSize

theorem legible_of_decode (h : decode source = .ok v) : v.Legible := by
  refine record.decode_induction (fun name source x y hx h => ?_) ⟨rfl⟩ h
  simp only [record] at h
  split at h
  case h_5 =>
    obtain ⟨n, hn, rfl⟩ := returns_eq_ok.mp h
    exact { hx with sampleSize := readsBack_integer _ _ hn }
  case h_7 =>
    obtain rfl := Except.ok.inj h
    exact hx
  all_goals
    obtain ⟨_, _, rfl⟩ := returns_eq_ok.mp h
    exact { hx with }

theorem reads (h : v.Legible) : decode.Reads v.encode v := by
  have hspelled := Spelled.nil record
    |>.required_field "name" (fun s v => { v with name := s }) (reads_string v.name)
    |>.required_field "port" (fun s v => { v with port := s }) (reads_string v.port)
    |>.part "description" (·.description) (fun s v => { v with description := s })
      (reads_strings? v.description) writes_optional
    |>.required_field "bufferTime" (fun x v => { v with bufferTime := x })
      (reads_binary64 v.bufferTime)
    |>.required_field "sampleSize" (fun n v => { v with sampleSize := n }) h.sampleSize
    |>.part "activateOption" (·.activateOption) (fun s v => { v with activateOption := s })
      (reads_strings? v.activateOption) writes_optional
  exact hspelled.reads (by decide) (by cases v; rfl)

theorem readsBack : decode.ReadsBack encode := fun _ _ h => reads (legible_of_decode h)

end View

namespace OperatorConfig

open Decoder

variable {c : OperatorConfig}

/-- The queue and the views are read from what they are written as. -/
structure Legible (c : OperatorConfig) : Prop where
  queue : (Decoder.optional Queue.decode).Reads (orNull Queue.encode c.queue) c.queue
  views : (Decoder.list View.decode).Reads (Encode.list View.encode c.views) c.views

theorem legible_of_decode (h : decode source = .ok c) : c.Legible := by
  refine record.decode_induction (fun name source x y hx h => ?_) ⟨rfl, rfl⟩ h
  simp only [record] at h
  split at h
  case h_3 =>
    obtain ⟨q, hq, rfl⟩ := returns_eq_ok.mp h
    exact { hx with queue := Queue.readsBack.optional (fun _ _ _ => nofun) _ _ hq }
  case h_4 =>
    obtain ⟨vs, hvs, rfl⟩ := returns_eq_ok.mp h
    exact { hx with views := View.readsBack.list _ _ hvs }
  case h_5 =>
    obtain rfl := Except.ok.inj h
    exact hx
  all_goals
    obtain ⟨_, _, rfl⟩ := returns_eq_ok.mp h
    exact { hx with }

theorem reads (h : c.Legible) : decode.Reads c.encode c := by
  have hviewability : (Decoder.optional bool).Reads (orNull .bool c.streamViewability)
      c.streamViewability :=
    reads_orNull fun b _ => ⟨reads_bool b, nofun⟩
  have hplacement {p : Placement} (h : p.isDefault = true) : p = {} := beq_iff_eq.mp h
  have hspelled := Spelled.nil record
    |>.part "placement" (·.placement) (fun p c => { c with placement := p })
      c.placement.reads (writes_ite hplacement)
    |>.part "streamViewability" (·.streamViewability) (fun b c => { c with streamViewability := b })
      hviewability writes_optional
    |>.part "queue" (·.queue) (fun q c => { c with queue := q })
      h.queue writes_optional
    |>.part "viewConfigs" (·.views) (fun vs c => { c with views := vs })
      h.views writes_list
  exact hspelled.reads (by decide) (by cases c; rfl)

/-- **Configurations are read back.** -/
theorem readsBack : decode.ReadsBack encode := fun _ _ h => reads (legible_of_decode h)

end OperatorConfig

theorem Consistent.reads (c : Consistent) : decode.Reads c.encode c := by
  have hperiod : (Decoder.optional .binary64).Reads (orNull Encode.binary64 c.period) c.period :=
    Decoder.reads_orNull fun x _ => ⟨Decoder.reads_binary64 x, nofun⟩
  have hspelled := Spelled.nil record
    |>.part "period" (·.period) (fun x c => { c with period := x })
      hperiod writes_optional
    |>.required_field "drainTimeout" (fun x c => { c with drainTimeout := x })
      (Decoder.reads_binary64 c.drainTimeout)
    |>.required_field "resetTimeout" (fun x c => { c with resetTimeout := x })
      (Decoder.reads_binary64 c.resetTimeout)
    |>.required_field "maxConsecutiveResetAttempts"
      (fun x c => { c with maxConsecutiveResetAttempts := x })
      (Decoder.reads_binary64 c.maxConsecutiveResetAttempts)
  exact hspelled.reads (by decide) (by cases c; rfl)

theorem Threading.reads (t : Threading) : decode.Reads t.encode t := by
  have hspelled := Spelled.nil record
    |>.required_field "model" (fun s t => { t with model := s }) (Decoder.reads_string t.model)
  exact hspelled.reads (by decide) (by cases t; rfl)

/-! ### Operators -/

namespace Operator

open Decoder

variable {op : Operator}

/-- The parts of the operator are read from what they are written as. -/
structure Legible (op : Operator) : Prop where
  sourceLocations : (Decoder.list json).Reads (.array op.sourceLocations) op.sourceLocations
  layout : (Decoder.optional members).Reads (orNull .object op.layout) op.layout
  inputs : (Decoder.list InputPort.decode).Reads (Encode.list InputPort.encode op.inputs) op.inputs
  outputs : (Decoder.list OutputPort.decode).Reads (Encode.list OutputPort.encode op.outputs)
    op.outputs
  parameters : Parameters.decode.Reads op.parameters.encode op.parameters
  config : OperatorConfig.decode.Reads op.config.encode op.config
  width : (Decoder.optional Width.decode).Reads (orNull Width.encode op.width) op.width

theorem readsBack_list_json : (Decoder.list json).ReadsBack .array := by
  intro source vs h
  have hread := readsBack_json.list source vs h
  rwa [Encode.list, List.map_id] at hread

theorem legible_of_decode (h : decode source = .ok op) : op.Legible := by
  refine record.decode_induction (fun name source x y hx h => ?_)
    ⟨rfl, rfl, rfl, rfl, rfl, rfl, rfl⟩ h
  simp only [record] at h
  split at h
  case h_6 =>
    obtain ⟨vs, hvs, rfl⟩ := returns_eq_ok.mp h
    exact { hx with sourceLocations := readsBack_list_json _ _ hvs }
  case h_7 =>
    obtain ⟨ms, hms, rfl⟩ := returns_eq_ok.mp h
    exact { hx with layout := readsBack_members.optional (fun _ _ _ => nofun) _ _ hms }
  case h_8 =>
    obtain ⟨ps, hps, rfl⟩ := returns_eq_ok.mp h
    exact { hx with inputs := InputPort.readsBack.list _ _ hps }
  case h_9 =>
    obtain ⟨ps, hps, rfl⟩ := returns_eq_ok.mp h
    exact { hx with outputs := OutputPort.readsBack.list _ _ hps }
  case h_10 =>
    obtain ⟨ps, hps, rfl⟩ := returns_eq_ok.mp h
    exact { hx with parameters := Parameters.readsBack _ _ hps }
  case h_11 =>
    obtain ⟨c, hc, rfl⟩ := returns_eq_ok.mp h
    exact { hx with config := OperatorConfig.readsBack _ _ hc }
  case h_13 =>
    obtain ⟨w, hw, rfl⟩ := returns_eq_ok.mp h
    exact { hx with width := Width.readsBack_optional _ _ hw }
  case h_23 =>
    obtain rfl := Except.ok.inj h
    exact hx
  all_goals
    obtain ⟨_, _, rfl⟩ := returns_eq_ok.mp h
    exact { hx with }

theorem reads (h : op.Legible) : decode.Reads op.encode op := by
  have hconsistent : (Decoder.optional Consistent.decode).Reads
      (orNull Consistent.encode op.consistent) op.consistent :=
    reads_orNull fun c _ => ⟨c.reads, nofun⟩
  have hthreading : (Decoder.optional Threading.decode).Reads
      (orNull Threading.encode op.threading) op.threading :=
    reads_orNull fun t _ => ⟨t.reads, nofun⟩
  have hspelled := Spelled.nil record
    |>.required_field "name" (fun s op => { op with name := s }) (reads_string op.name)
    |>.required_field "kind" (fun s op => { op with kind := s }) (reads_string op.kind)
    |>.part "model" (·.model) (fun s op => { op with model := s })
      (reads_strings? op.model) writes_optional
    |>.part "language" (·.language) (fun s op => { op with language := s })
      (reads_strings? op.language) writes_optional
    |>.part "category" (·.category) (fun s op => { op with category := s })
      (reads_strings? op.category) writes_optional
    |>.part "sourcelocation" (·.sourceLocations) (fun vs op => { op with sourceLocations := vs })
      h.sourceLocations writes_list
    |>.part "layout" (·.layout) (fun ms op => { op with layout := ms })
      h.layout writes_optional
    |>.field "inputs" (fun ps op => { op with inputs := ps }) h.inputs
    |>.field "outputs" (fun ps op => { op with outputs := ps }) h.outputs
    |>.part "parameters" (·.parameters) (fun ps op => { op with parameters := ps })
      h.parameters Parameters.writes_someParameters
    |>.field "config" (fun c op => { op with config := c }) h.config
    |>.part "parallelOperator" (·.parallelOperator) (fun b op => { op with parallelOperator := b })
      (reads_bool op.parallelOperator) writes_flag
    |>.part "width" (·.width) (fun w op => { op with width := w })
      h.width writes_optional
    |>.part "partitioned" (·.partitioned) (fun b op => { op with partitioned := b })
      (reads_bool op.partitioned) writes_flag
    |>.part "parallelInputPortName" (·.parallelInputPortName)
      (fun s op => { op with parallelInputPortName := s })
      (reads_strings? op.parallelInputPortName) writes_optional
    |>.part "partitionedKeys" (·.partitionedKeys) (fun xs op => { op with partitionedKeys := xs })
      (reads_strings op.partitionedKeys) writes_list
    |>.part "broadcastPorts" (·.broadcastPorts) (fun xs op => { op with broadcastPorts := xs })
      (reads_strings op.broadcastPorts) writes_list
    |>.part "lowLatency" (·.lowLatency) (fun b op => { op with lowLatency := b })
      (reads_bool op.lowLatency) writes_flag
    |>.part "autonomous" (·.autonomous) (fun b op => { op with autonomous := b })
      (reads_bool op.autonomous) writes_flag
    |>.part "hashAdder" (·.hashAdder) (fun b op => { op with hashAdder := b })
      (reads_bool op.hashAdder) writes_flag
    |>.part "consistent" (·.consistent) (fun c op => { op with consistent := c })
      hconsistent writes_optional
    |>.part "threading" (·.threading) (fun t op => { op with threading := t })
      hthreading writes_optional
  exact hspelled.reads (by decide) (by cases op; rfl)

/-- **Operators are read back.** -/
theorem readsBack : decode.ReadsBack encode := fun _ _ h => reads (legible_of_decode h)

end Operator

end StreamTopology
