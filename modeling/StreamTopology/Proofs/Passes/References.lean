import StreamTopology.Proofs.Passes.Exchange
import StreamTopology.Proofs.Passes.Revisions
import StreamTopology.Proofs.Passes.Visits
import StreamTopology.Proofs.Topology.Parameters

/-!
# What passing by reference records

The pass goes through the operators one after the other and writes parameters as it goes, while it
reads the kinds of the consumers of each. Since parameters are all it writes, every operator can be
read on the graph as it was: the graph afterwards is the graph before with one function applied to
each operator, and that function does not depend on the order.

What it writes is a number for each output port. The number is a length, that of the list of
connections of the port, while what matters is how many input ports read the stream; the two are
the same only because the ports agree, no port lists a name twice and every name that is listed
belongs to a port.

## Main definitions

* `PassByReference.entries`: the entries of an operator, read on a graph.
* `PassByReference.annotated`: an operator after its turn.
* `Parameter.entries?`, `Operator.recorded?`: the entries that a parameter says.
* `Graph.Entry`: what an entry means.

## Main results

* `PassByReference.run_annotated`: the pass succeeds, and what it leaves.
* `Graph.length_readersOf`: a port lists as many names as there are input ports that read it.
* `passByReference_records`: which operators get the parameter, and what it says.
-/

namespace StreamTopology

/-! ### Reading the parameter -/

/-- The entries that the parameter of a functional operator says: one number or a list of
numbers. -/
def Parameter.entries? : Parameter → Option (List Int)
  | .literal (.number (.int n)) => some [n]
  | .literal (.array values) => values.mapM fun
    | .number (.int n) => some n
    | _ => none
  | _ => none

/-- The entries that an operator records. -/
def Operator.recorded? (op : Operator) : Option (List Int) :=
  (op.parameters.get? PassByReference.parameterName).bind Parameter.entries?

namespace PassByReference

open StreamTopology.Graph

variable {g t : Graph} {x y : Handle} {op : Operator} {done : List Handle} {p : OutputPort}
  {ns : List Int}

/-- What is written can be read. -/
theorem entries?_parameterOf : (parameterOf ns).entries? = some ns := by
  have hlist : ∀ ms : List Int, (Parameter.literal (.array
      (ms.map fun n => Json.number (.int n)))).entries? = some ms := by
    intro ms
    simp only [Parameter.entries?, List.mapM_map]
    induction ms with
    | nil => rfl
    | cons n ms ih => rw [List.mapM_cons, ih]; rfl
  unfold parameterOf
  split
  · rfl
  · exact hlist ns

/-! ### One operator -/

/-- The operators below this one all take tuples by reference. -/
def consumersAccept (g : Graph) (x : Handle) : Bool :=
  ((g.children x).filterMap g.get?).all fun c => acceptsReference c.kind

/-- The entries of the output ports of an operator. -/
def entries (g : Graph) (x : Handle) (op : Operator) : List Int :=
  op.outputs.map (entry (consumersAccept g x))

/-- The operator gets the parameter. -/
def gets (g : Graph) (x : Handle) (op : Operator) : Bool :=
  isFunctionalKind op.kind && (entries g x op).any fun n => n != -1

/-- The operator after its turn. -/
def annotated (g : Graph) (x : Handle) (op : Operator) : Operator :=
  if gets g x op then
    { op with parameters := op.parameters.insert parameterName (parameterOf (entries g x op)) }
  else op

theorem skeleton_annotated : (annotated g x op).skeleton = op.skeleton := by
  rw [annotated]
  split <;> rfl

theorem kind_annotated : (annotated g x op).kind = op.kind := by
  rw [annotated]
  split <;> rfl

theorem gets_iff : gets g x op = true ↔
    isFunctionalKind op.kind = true ∧ ∃ n ∈ entries g x op, n ≠ -1 := by
  simp [gets]

/-- Whether all consumers take references is a matter of their kinds. -/
theorem consumersAccept_congr (hchildren : t.children x = g.children x)
    (hkind : ∀ y, (t.get? y).map Operator.kind = (g.get? y).map Operator.kind) :
    consumersAccept t x = consumersAccept g x := by
  have hkinds : ∀ h : Graph, consumersAccept h x =
      ((h.children x).filterMap fun y => (h.get? y).map Operator.kind).all acceptsReference := by
    intro h
    rw [consumersAccept, ← List.map_filterMap, List.all_map]
    rfl
  rw [hkinds, hkinds, hchildren]
  simp only [hkind]

/-- **The turn of one operator** succeeds, and says whether the operator got the parameter. -/
theorem yields_annotate (hg : g.WellFormed) (hop : g.get? x = some op) :
    Yields (annotate x) g (gets g x op)
      (if gets g x op then g.set x (annotated g x op) else g) := by
  have hlive : ∀ y ∈ g.children x, g.contains y = true := fun _ => contains_of_mem_children hg
  have hentries : op.outputs.map (entry (((g.children x).filterMap g.get?).all
      fun c => acceptsReference c.kind)) = entries g x op := rfl
  rw [annotate, yields_lookup_bind hop]
  by_cases hkind : isFunctionalKind op.kind && !op.outputs.isEmpty
  · have hgets : gets g x op = (entries g x op).any fun n => n != -1 := by
      rw [gets, (Bool.and_eq_true_iff.mp hkind).1, Bool.true_and]
    simp only [if_pos hkind, yields_get_bind, yields_lookups_bind hlive, hentries]
    by_cases hall : (entries g x op).all fun n => n == -1
    · have hnone : gets g x op = false := by
        rw [hgets, List.any_eq_false]
        simpa using hall
      rw [if_pos hall, hnone, if_neg Bool.false_ne_true]
      exact yields_pure.mpr ⟨rfl, rfl⟩
    · have hsome : gets g x op = true := by
        rw [hgets, List.any_eq_true]
        simpa using hall
      rw [if_neg hall, hsome, if_pos rfl, annotated, hsome, if_pos rfl]
      exact yields_bind.mpr ⟨⟨⟩, _, yields_update.mpr ⟨op, hop, rfl⟩, yields_pure.mpr ⟨rfl, rfl⟩⟩
  · have hnone : gets g x op = false := by
      rw [Bool.eq_false_iff]
      intro hgets
      obtain ⟨hfunctional, n, hn, _⟩ := gets_iff.mp hgets
      obtain ⟨p, hp, _⟩ := List.mem_map.mp hn
      refine hkind (Bool.and_eq_true_iff.mpr ⟨hfunctional, ?_⟩)
      simpa using List.ne_nil_of_mem hp
    rw [if_neg hkind, hnone, if_neg Bool.false_ne_true]
    exact yields_pure.mpr ⟨rfl, rfl⟩

/-! ### The run -/

/-- An operator has the entries that it had before others had their turn. -/
theorem entries_congr (h : g.Revised (annotated g) done t) : entries t x op = entries g x op := by
  rw [entries, entries,
    consumersAccept_congr h.annotates.children (h.keeps fun _ _ => kind_annotated)]

/-- A turn reads the graph as it was. -/
theorem revises_annotate (hg : g.WellFormed) : g.Revises annotate (annotated g) (gets g) := by
  intro done t x op h hop
  have hgets : gets t x op = gets g x op := by rw [gets, gets, entries_congr h]
  have hannotated : annotated t x op = annotated g x op := by
    rw [annotated, annotated, hgets, entries_congr h]
  have hrun := yields_annotate (h.annotates.wellFormed hg) hop
  rw [hgets, hannotated] at hrun
  refine ⟨skeleton_annotated, _, hrun, ?_⟩
  split
  next => exact Or.inr rfl
  next hstays => exact Or.inl ⟨rfl, if_neg hstays⟩

/-- **The pass succeeds.** It counts the operators that get the parameter, and every operator has
had its turn afterwards. -/
theorem run_annotated (hg : g.WellFormed) :
    ∃ g', Yields run g (g.order.countP fun x => (g.get? x).any (gets g x)) g' ∧
      g.Annotates g' ∧ ∀ x, g'.get? x = (g.get? x).map (annotated g x) := by
  obtain ⟨g', hrun, h⟩ := (revises_annotate hg).run hg.order_nodup
    fun x hx => (hg.mem_order x).mp hx
  refine ⟨g', ?_, h.annotates, fun x => ?_⟩
  · rw [run, yields_get_bind]
    exact hrun
  · by_cases hx : x ∈ g.order
    · exact h.turned x hx
    · have hnone : g.get? x = none := by
        rcases hop : g.get? x with _ | op
        · rfl
        · exact absurd (hg.mem_order_iff.mpr ⟨op, hop⟩) hx
      rw [h.waiting x hx, hnone, Option.map_none]

end PassByReference

/-! ### What the entries mean -/

namespace Graph

open PassByReference

variable {g : Graph} {x : Handle} {p : OutputPort} {op : Operator}

/-- The input ports that read an output port. -/
def readersOf (g : Graph) (p : OutputPort) : List InputPort :=
  g.inputPorts.filter fun q => q.connections.contains p.name

/-- Every operator below this one takes tuples by reference. -/
def TakenByReference (g : Graph) (x : Handle) : Prop :=
  ∀ y ∈ g.children x, ∃ c, g.get? y = some c ∧ acceptsReference c.kind = true

/-- The entry of the output port `p` of the operator at `x`: the number of its readers, where the
stream is one of objects and they may get the objects themselves, and `-1` otherwise. -/
structure Entry (g : Graph) (x : Handle) (p : OutputPort) (n : Int) : Prop where
  positive : 0 < n ↔ p.schema = objectSchema ∧ g.readersOf p ≠ [] ∧ g.TakenByReference x
  counts : 0 < n → n = (g.readersOf p).length
  zero : n = 0 ↔ p.schema = objectSchema ∧ g.readersOf p = []
  otherwise : n < 0 → n = -1

/-- **A port lists as many names as there are input ports that read it.** -/
theorem length_readersOf (hw : g.Wired) (ho : g.Owned) (hp : p ∈ g.outputPorts) :
    (g.readersOf p).length = p.connections.length := by
  have hnodup : ((g.readersOf p).map InputPort.name).Nodup :=
    hw.inputs_nodup.sublist ((List.filter_sublist (l := g.inputPorts)).map InputPort.name)
  have hsame : ∀ c, c ∈ (g.readersOf p).map InputPort.name ↔ c ∈ p.connections := by
    intro c
    simp only [readersOf, List.mem_map, List.mem_filter, List.contains_iff_mem]
    constructor
    · rintro ⟨q, ⟨hq, hreads⟩, rfl⟩
      exact (hw.agrees p hp q hq).mpr hreads
    · intro hc
      obtain ⟨q, hq, rfl⟩ := ho.1 p hp c hc
      exact ⟨q, ⟨hq, (hw.agrees p hp q hq).mp hc⟩, rfl⟩
  have hperm := (List.perm_ext_iff_of_nodup hnodup (hw.feeds_nodup p hp)).mpr hsame
  rw [← hperm.length_eq, List.length_map]

theorem consumersAccept_iff (hg : g.WellFormed) :
    consumersAccept g x = true ↔ g.TakenByReference x := by
  simp only [consumersAccept, List.all_eq_true, List.mem_filterMap, TakenByReference]
  constructor
  · intro h y hy
    obtain ⟨c, hc⟩ := contains_iff.mp (contains_of_mem_children hg hy)
    exact ⟨c, hc, h c ⟨y, hy, hc⟩⟩
  · rintro h c ⟨y, hy, hc⟩
    obtain ⟨c', hc', haccepts⟩ := h y hy
    rwa [Option.some.inj (hc.symm.trans hc')]

/-- **What the pass computes is an entry.** -/
theorem entry_spec (hg : g.WellFormed) (hw : g.Wired) (ho : g.Owned) (hp : p ∈ g.outputPorts) :
    g.Entry x p (entry (consumersAccept g x) p) := by
  have hlen := length_readersOf hw ho hp
  have hempty : p.connections.isEmpty = true ↔ g.readersOf p = [] := by
    rw [List.isEmpty_iff, ← List.length_eq_zero_iff, ← hlen, List.length_eq_zero_iff]
  unfold entry
  by_cases hschema : p.schema = objectSchema
  · simp only [hschema, bne_self_eq_false, Bool.false_eq_true, if_false, hempty]
    by_cases hnone : g.readersOf p = []
    · rw [if_pos hnone]
      exact ⟨by simp [hnone], by simp, by simp [hschema, hnone], by simp⟩
    · have hpos : 0 < (g.readersOf p).length := List.length_pos_iff.mpr hnone
      rw [if_neg hnone]
      by_cases haccept : consumersAccept g x = true
      · have htaken := (consumersAccept_iff hg).mp haccept
        rw [if_pos haccept, ← hlen]
        exact ⟨⟨fun _ => ⟨hschema, hnone, htaken⟩, fun _ => by omega⟩, fun _ => rfl,
          ⟨fun h => by omega, fun h => absurd h.2 hnone⟩, fun h => by omega⟩
      · have hleft : ¬ g.TakenByReference x := fun h => haccept ((consumersAccept_iff hg).mpr h)
        rw [if_neg haccept]
        exact ⟨⟨fun h => by omega, fun h => absurd h.2.2 hleft⟩, fun h => by omega,
          ⟨fun h => by omega, fun h => absurd h.2 hnone⟩, fun _ => rfl⟩
  · have hne : (p.schema != objectSchema) = true := bne_iff_ne.mpr hschema
    rw [if_pos hne]
    exact ⟨⟨fun h => by omega, fun h => absurd h.1 hschema⟩, fun h => by omega,
      ⟨fun h => by omega, fun h => absurd h.1 hschema⟩, fun _ => rfl⟩

end Graph

/-! ### The pass -/

open StreamTopology.Graph PassByReference

/-- **Passing by reference, where it is safe.** The pass succeeds, and leaves the order and the
index alone. Every output port of every operator has an entry: the number of input ports that read
it, if it carries objects and all operators below take them by reference; `0`, if it carries objects
and nothing reads it; and `-1` otherwise. The functional operators with an entry other than `-1`
record their entries, and change in nothing else; all other operators stay as they are. -/
theorem passByReference_records {g : Graph} (hg : g.WellFormed) (hw : g.Wired) (ho : g.Owned) :
    ∃ n g', Yields PassByReference.run g n g' ∧ g'.order = g.order ∧ g'.links = g.links ∧
      ∀ x op, g.get? x = some op → ∃ op' ns, g'.get? x = some op' ∧
        List.Forall₂ (g.Entry x) op.outputs ns ∧
        (isFunctionalKind op.kind = true ∧ (∃ n ∈ ns, n ≠ -1) →
          op'.recorded? = some ns ∧
            op' = { op with parameters := op.parameters.insert parameterName (parameterOf ns) }) ∧
        (¬ (isFunctionalKind op.kind = true ∧ ∃ n ∈ ns, n ≠ -1) → op' = op) := by
  obtain ⟨g', hrun, hannotates, hturned⟩ := run_annotated hg
  refine ⟨_, g', hrun, hannotates.order, hannotates.links, fun x op hop => ?_⟩
  refine ⟨annotated g x op, entries g x op, by rw [hturned, hop, Option.map_some], ?_,
    fun hgets => ?_, fun hstays => ?_⟩
  · refine List.forall₂_map_right_iff.mpr (List.forall₂_same.mpr fun p hp => ?_)
    exact entry_spec hg hw ho ((mem_outputPorts hg).mpr ⟨x, op, hop, hp⟩)
  · rw [annotated, if_pos (gets_iff.mpr hgets)]
    refine ⟨?_, rfl⟩
    rw [Operator.recorded?, Parameters.get?_insert, if_pos rfl, Option.bind_some,
      entries?_parameterOf]
  · rw [annotated, if_neg fun h => hstays (gets_iff.mp h)]

/-- A functional source with two readers, which take references. One of them has a stream to a
reader that takes none, and a stream that nothing reads. -/
def sharedStreams : Graph := Graph.reindexed
  { name := "sharedStreams"
    slots := [
      some { name := "a", kind := "com.ibm.streamsx.topology.functional.python::Source"
             outputs := [{ name := "ao", schema := objectSchema, connections := ["bi", "ci"] }] },
      some { name := "b", kind := "com.ibm.streamsx.topology.functional.python::Map"
             inputs := [{ name := "bi", connections := ["ao"] }]
             outputs := [{ name := "bo", schema := objectSchema, connections := ["di"] },
               { name := "bp", schema := objectSchema }] },
      some { name := "c", kind := "com.ibm.streamsx.topology.functional.python::ForEach"
             inputs := [{ name := "ci", connections := ["ao"] }] },
      some { name := "d", kind := "com.ibm.streamsx.topology.functional.python::Filter"
             inputs := [{ name := "di", connections := ["bo"] }] }]
    order := (List.range 4).map Handle.mk }

/-- Two readers take references to the first stream, the reader of the second takes none, and
nothing reads the third. -/
theorem passByReference_records_sharedStreams :
    sharedStreams.WellFormed ∧ sharedStreams.Wired ∧ sharedStreams.Owned ∧
      ∃ n g', Yields PassByReference.run sharedStreams n g' ∧
        g'.order = sharedStreams.order ∧ g'.links = sharedStreams.links ∧
        (∀ x op, sharedStreams.get? x = some op → ∃ op' ns, g'.get? x = some op' ∧
          List.Forall₂ (sharedStreams.Entry x) op.outputs ns ∧
          (isFunctionalKind op.kind = true ∧ (∃ n ∈ ns, n ≠ -1) →
            op'.recorded? = some ns ∧
              op' = { op with parameters := op.parameters.insert parameterName (parameterOf ns) }) ∧
          (¬ (isFunctionalKind op.kind = true ∧ ∃ n ∈ ns, n ≠ -1) → op' = op)) ∧
        g'.operators.map Operator.recorded? = [some [2], some [-1, 0], none, none] := by
  have hof : Graph.ofDescription sharedStreams.toDescription = .ok sharedStreams := by decide
  have hg := WellFormed.ofDescription hof
  have hw : sharedStreams.Wired := by decide
  have ho : sharedStreams.Owned := by decide
  obtain ⟨n, g', hrun, horder, hlinks, hrecords⟩ := passByReference_records hg hw ho
  refine ⟨hg, hw, ho, n, g', hrun, horder, hlinks, hrecords, ?_⟩
  rw [← show (PassByReference.run.run.run sharedStreams).2 = g' from congrArg Prod.snd hrun]
  decide

end StreamTopology
