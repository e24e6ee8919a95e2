import StreamTopology.Proofs.Graph.Dataflow
import StreamTopology.Proofs.Graph.Interposing
import Mathlib.Logic.Equiv.Basic

/-!
# Dataflow, operator by operator

A path through operators of a list enters the first one from a port, goes on from operator to
operator, and leaves the last one for a port. The ports in between do not matter: whatever enters an
operator may leave it at any of its output ports. So between two ports outside of the list the paths
are the same when the operators of the list have been exchanged, even if they have ports of other
names, or other numbers of ports.

## Main definitions

* `Graph.Into`, `Graph.OutOf`: where a path enters and leaves.
* `Graph.SoleStream`: an operator that reads one stream.

## Main results

* `Graph.flowsThrough_iff`: paths between ports as chains of operators.
* `Graph.flowsThrough_perm`: paths where operators have been exchanged.
-/

namespace StreamTopology

namespace Graph

open Relation

variable {g t : Graph} {x y z : Handle} {ids ids' : List Handle} {o i n m : String}

/-- The output port lists an input port of the operator. -/
def Into (g : Graph) (o : String) (x : Handle) : Prop := ∃ n, g.InputOf x n ∧ g.Lists o n

/-- An output port of the operator lists the input port. -/
def OutOf (g : Graph) (x : Handle) (i : String) : Prop := ∃ m, g.OutputOf x m ∧ g.Lists m i

/-- One step of a path through operators of a list. -/
def Onward (g : Graph) (ids : List Handle) (x y : Handle) : Prop := g.Feeds x y ∧ y ∈ ids

theorem passes_iff_names : g.Passes x n m ↔ g.InputOf x n ∧ g.OutputOf x m := by
  constructor
  · rintro ⟨op, hop, hn, hm⟩
    exact ⟨⟨op, hop, Rewiring.ownsInput_iff.mpr (List.mem_map.mp hn)⟩,
      op, hop, Rewiring.ownsOutput_iff.mpr (List.mem_map.mp hm)⟩
  · rintro ⟨⟨op, hop, hn⟩, op', hop', hm⟩
    obtain rfl := Option.some.inj (hop.symm.trans hop')
    exact ⟨op, hop, List.mem_map.mpr (Rewiring.ownsInput_iff.mp hn),
      List.mem_map.mpr (Rewiring.ownsOutput_iff.mp hm)⟩

theorem Coherent.feeds_iff_into (hg : g.WellFormed) (hco : g.Coherent) :
    g.Feeds x y ↔ ∃ m, g.OutputOf x m ∧ g.Into m y := by
  rw [hco.feeds_iff_lists hg]
  exact ⟨fun ⟨m, n, hm, hn, hlist⟩ => ⟨m, hm, n, hn, hlist⟩,
    fun ⟨m, hm, n, hn, hlist⟩ => ⟨m, n, hm, hn, hlist⟩⟩

/-- A port that leads into an operator leads to what the operators that it leads on to list. -/
theorem FlowsThrough.of_onward (hg : g.WellFormed) (hco : g.Coherent)
    (hchain : ReflTransGen (g.Onward ids) x y) (hx : x ∈ ids) (hinto : g.Into o x)
    (hout : g.OutOf y i) : g.FlowsThrough ids o i := by
  induction hchain using ReflTransGen.head_induction_on generalizing o with
  | refl =>
    obtain ⟨n, hn, hon⟩ := hinto
    obtain ⟨m, hm, hmi⟩ := hout
    exact .through hon hx (passes_iff_names.mpr ⟨hn, hm⟩) (.direct hmi)
  | head hstep _ ih =>
    obtain ⟨n, hn, hon⟩ := hinto
    obtain ⟨m, hm, hmz⟩ := (hco.feeds_iff_into hg).mp hstep.1
    exact .through hon hx (passes_iff_names.mpr ⟨hn, hm⟩) (ih hstep.2 hmz)

/-- **Paths between ports are chains of operators.** -/
theorem flowsThrough_iff (hg : g.WellFormed) (hco : g.Coherent) :
    g.FlowsThrough ids o i ↔ g.Lists o i ∨
      ∃ x ∈ ids, g.Into o x ∧ ∃ y, ReflTransGen (g.Onward ids) x y ∧ g.OutOf y i := by
  constructor
  · intro h
    induction h with
    | direct h => exact Or.inl h
    | @through o n m i id hon hid pass _ ih =>
      obtain ⟨hn, hm⟩ := passes_iff_names.mp pass
      refine Or.inr ⟨id, hid, ⟨n, hn, hon⟩, ?_⟩
      rcases ih with hmi | ⟨x, hx, hinto, y, hchain, hout⟩
      · exact ⟨id, .refl, m, hm, hmi⟩
      · exact ⟨y, .head ⟨(hco.feeds_iff_into hg).mpr ⟨m, hm, hinto⟩, hx⟩ hchain, hout⟩
  · rintro (h | ⟨x, hx, hinto, y, hchain, hout⟩)
    · exact .direct h
    · exact .of_onward hg hco hchain hx hinto hout

/-- **Paths where operators have been exchanged.** They are the same between two ports if the
permutation says where paths from the one and to the other enter and leave. -/
theorem flowsThrough_perm {π : Equiv.Perm Handle} (hg : g.WellFormed) (hco : g.Coherent)
    (ht : t.WellFormed) (hcot : t.Coherent) (hids : ∀ x, x ∈ ids' ↔ π x ∈ ids)
    (hfeeds : ∀ x y, t.Feeds x y ↔ g.Feeds (π x) (π y)) (hlists : t.Lists o i ↔ g.Lists o i)
    (hinto : ∀ x, t.Into o x ↔ g.Into o (π x)) (hout : ∀ x, t.OutOf x i ↔ g.OutOf (π x) i) :
    t.FlowsThrough ids' o i ↔ g.FlowsThrough ids o i := by
  have honward : ∀ x y, t.Onward ids' x y ↔ g.Onward ids (π x) (π y) :=
    fun x y => and_congr (hfeeds x y) (hids y)
  have hchain : ∀ x y, ReflTransGen (t.Onward ids') x y ↔
      ReflTransGen (g.Onward ids) (π x) (π y) := by
    refine fun x y => ⟨fun h => h.lift π fun a b => (honward a b).mp, fun h => ?_⟩
    have hstep : ∀ a b, g.Onward ids a b → t.Onward ids' (π.symm a) (π.symm b) :=
      fun a b hab => (honward _ _).mpr (by rwa [π.apply_symm_apply, π.apply_symm_apply])
    have hback : ReflTransGen (t.Onward ids') (π.symm (π x)) (π.symm (π y)) := h.lift π.symm hstep
    rwa [π.symm_apply_apply, π.symm_apply_apply] at hback
  rw [flowsThrough_iff hg hco, flowsThrough_iff ht hcot, hlists]
  refine or_congr_right (Iff.trans (exists_congr fun x => ?_) π.exists_congr_right)
  rw [hids, hinto]
  refine and_congr_right fun _ => and_congr_right fun _ =>
    Iff.trans (exists_congr fun y => ?_) π.exists_congr_right
  rw [hchain, hout]

/-! ### Operators that read one stream -/

/-- The input ports of the operator read one stream together. -/
def SoleStream (g : Graph) (x : Handle) : Prop :=
  ∃ o i, ∀ o' i', g.InputOf x i' ∧ g.Lists o' i' ↔ o' = o ∧ i' = i

end Graph

end StreamTopology
