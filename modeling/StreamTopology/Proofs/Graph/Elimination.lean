import StreamTopology.Proofs.Graph.Rewiring

/-!
# Neighbours through removed operators

What `Dataflow` says about ports on a list of operators that have one port on each side, this module
says about operators, and with no condition on those that are removed: they may have several input
ports, feed themselves and stand in cycles. After any number of removals, `x` feeds `y` exactly if a
chain of streams led from `x` to `y` through operators that are gone.

Ports are the wrong place to count such chains, since a name may be listed twice and is replaced
only once. Between operators that are left there is nothing to count, and that is all that later
passes look at.

## Main definitions

* `Bridged`: chains through elements with a property.
* `Graph.Eliminates`: one graph is another one without some of its operators.

## Main results

* `bridged_bridged`: chains of chains.
* `removeAll_eliminates`: what the removals of a list leave.
-/

namespace StreamTopology

/-! ### Chains -/

section

variable {α : Type} {R F : α → α → Prop} {S A B : α → Prop} {x y z : α}

/-- A chain from one element to another on which all elements in between have the property. -/
inductive Bridged (R : α → α → Prop) (S : α → Prop) : α → α → Prop where
  | direct {x y : α} (h : R x y) : Bridged R S x y
  | through {x z y : α} (into : R x z) (hz : S z) (rest : Bridged R S z y) : Bridged R S x y

theorem Bridged.mono (hS : ∀ z, A z → B z) (h : Bridged R A x y) : Bridged R B x y := by
  induction h with
  | direct h => exact .direct h
  | through into hz _ ih => exact .through into (hS _ hz) ih

theorem Bridged.trans (h : Bridged R S x z) (hz : S z) (h' : Bridged R S z y) :
    Bridged R S x y := by
  induction h with
  | direct h => exact .through h hz h'
  | through into hz' _ ih => exact .through into hz' (ih hz h')

theorem bridged_none (hS : ∀ z, ¬ S z) : Bridged R S x y ↔ R x y := by
  constructor
  · intro h
    cases h with
    | direct h => exact h
    | through _ hz _ => exact absurd hz (hS _)
  · exact .direct

/-- The last step of a chain. -/
theorem Bridged.last (h : Bridged R S x y) : R x y ∨ ∃ z, Bridged R S x z ∧ S z ∧ R z y := by
  induction h with
  | direct h => exact Or.inl h
  | through into hz _ ih =>
    rcases ih with h | ⟨z', hpath, hz', h⟩
    · exact Or.inr ⟨_, .direct into, hz, h⟩
    · exact Or.inr ⟨z', .through into hz hpath, hz', h⟩

/-- The first step of a chain. -/
theorem Bridged.first (h : Bridged R S x y) : R x y ∨ ∃ z, S z ∧ R x z := by
  cases h with
  | direct h => exact Or.inl h
  | through into hz _ => exact Or.inr ⟨_, hz, into⟩

/-- A chain that leaves from an element of the second kind goes through elements of the first kind
only, once it has passed the last one of the second. -/
theorem Bridged.exists_last (h : Bridged R (fun z => A z ∨ B z) x y) (hx : B x) :
    ∃ z, B z ∧ Bridged R A z y := by
  have hpasses : Bridged R A x y ∨ ∃ z, B z ∧ Bridged R A z y := by
    clear hx
    induction h with
    | direct h => exact Or.inl (.direct h)
    | through into hz _ ih =>
      rcases ih with hrest | hlast
      · rcases hz with hz | hz
        · exact Or.inl (.through into hz hrest)
        · exact Or.inr ⟨_, hz, hrest⟩
      · exact Or.inr hlast
  exact hpasses.elim (fun h => ⟨x, hx, h⟩) id

/-- **Chains of chains.** If one relation holds of the elements that have not the first property and
that are linked through elements that have it, then its chains through elements with a second
property are the chains of the other relation through elements with either.

In the direction back, a chain may start at an element with the first property. The induction then
also follows what comes from further up: it goes on from every element outside that is linked to
this one. -/
theorem bridged_bridged (hF : ∀ x y, F x y ↔ ¬ A x ∧ ¬ A y ∧ Bridged R A x y) :
    Bridged F B x y ↔ ¬ A x ∧ ¬ A y ∧ Bridged R (fun z => A z ∨ B z) x y := by
  constructor
  · intro h
    induction h with
    | direct h =>
      obtain ⟨hx, hy, h⟩ := (hF _ _).mp h
      exact ⟨hx, hy, h.mono fun _ => Or.inl⟩
    | through into hz _ ih =>
      obtain ⟨hx, _, into⟩ := (hF _ _).mp into
      exact ⟨hx, ih.2.1, (into.mono fun _ => Or.inl).trans (Or.inr hz) ih.2.2⟩
  · rintro ⟨hx, hy, h⟩
    suffices hboth : (¬ A x → Bridged F B x y) ∧
        (A x → ∀ x', ¬ A x' → Bridged R A x' x → Bridged F B x' y) from hboth.1 hx
    clear hx
    induction h with
    | @direct x y h =>
      exact ⟨fun hx => .direct ((hF x y).mpr ⟨hx, hy, .direct h⟩),
        fun hx x' hx' hinto => .direct ((hF x' y).mpr ⟨hx', hy, hinto.trans hx (.direct h)⟩)⟩
    | @through x z y into hz _ ih =>
      obtain ⟨ihOut, ihIn⟩ := ih hy
      by_cases hA : A z
      · exact ⟨fun hx => ihIn hA x hx (.direct into),
          fun hx x' hx' hinto => ihIn hA x' hx' (hinto.trans hx (.direct into))⟩
      · have hB := hz.resolve_left hA
        exact ⟨fun hx => .through ((hF x z).mpr ⟨hx, hA, .direct into⟩) hB (ihOut hA),
          fun hx x' hx' hinto =>
            .through ((hF x' z).mpr ⟨hx', hA, hinto.trans hx (.direct into)⟩) hB (ihOut hA)⟩

end

/-! ### Graphs -/

namespace Graph

open Rewiring

variable {g g' g'' : Graph} {gone gone' : Handle → Prop} {id x y : Handle} {op : Operator}

/-- `g'` is `g` without some operators, their parents connected to their children. -/
structure Eliminates (g : Graph) (gone : Handle → Prop) (g' : Graph) : Prop where
  wellFormed : g'.WellFormed
  indexed : g'.Indexed
  coherent : g'.Coherent
  vacated : ∀ x, gone x → g'.get? x = none
  kind : ∀ x, ¬ gone x → (g'.get? x).map Operator.kind = (g.get? x).map Operator.kind
  outputs : ∀ x, ¬ gone x → (g'.get? x).map (fun op => op.outputs.length) =
    (g.get? x).map fun op => op.outputs.length
  feeds : ∀ x y, g'.Feeds x y ↔ ¬ gone x ∧ ¬ gone y ∧ Bridged g.Feeds gone x y

theorem Eliminates.congr (h : g.Eliminates gone g') (hgone : ∀ x, gone x ↔ gone' x) :
    g.Eliminates gone' g' := by
  obtain rfl : gone = gone' := funext fun x => propext (hgone x)
  exact h

theorem Eliminates.trans (h : g.Eliminates gone g') (h' : g'.Eliminates gone' g'') :
    g.Eliminates (fun x => gone x ∨ gone' x) g'' := by
  refine ⟨h'.wellFormed, h'.indexed, h'.coherent, fun x hx => ?_, fun x hx => ?_, fun x hx => ?_,
    fun x y => ?_⟩
  · by_cases hx' : gone' x
    · exact h'.vacated x hx'
    · have hkind := h'.kind x hx'
      rwa [h.vacated x (hx.resolve_right hx'), Option.map_none, Option.map_eq_none_iff] at hkind
  · rw [not_or] at hx
    exact (h'.kind x hx.2).trans (h.kind x hx.1)
  · rw [not_or] at hx
    exact (h'.outputs x hx.2).trans (h.outputs x hx.1)
  · rw [h'.feeds, bridged_bridged h.feeds, not_or, not_or]
    tauto

/-- **One removal.** -/
theorem eliminates_without (hg : g.WellFormed) (hi : g.Indexed) (hco : g.Coherent)
    (hop : g.get? id = some op) (hlen : op.outputs.length ≤ 1) :
    g.Eliminates (fun x => x = id) (g.without id op) := by
  refine ⟨hg.without id op, indexed_without hop, hco.without hg hi hop hlen, ?_,
    fun x hx => map_eq_of_map_eq (disconnected_without hx) fun _ => rfl,
    fun x hx => map_eq_of_map_eq (disconnected_without hx) fun _ => List.length_map _,
    fun x y => ?_⟩
  · rintro x rfl
    exact get?_without_self
  · rw [feeds_without_iff hg hi hco hop hlen]
    refine and_congr_right fun hx => and_congr_right fun hy => ⟨?_, fun h => ?_⟩
    · rintro (h | ⟨hinto, hout⟩)
      · exact .direct h
      · exact .through hinto rfl (.direct hout)
    · rcases h.first with h' | ⟨_, rfl, hinto⟩
      · exact Or.inl h'
      · rcases h.last with h' | ⟨_, _, rfl, hout⟩
        · exact Or.inl h'
        · exact Or.inr ⟨hinto, hout⟩

end Graph

/-- **What the removals of a list leave**, whatever the operators look like. -/
theorem removeAll_eliminates {g g' : Graph} {ids : List Handle} {u : PUnit} (hg : g.WellFormed)
    (hi : g.Indexed) (hco : g.Coherent) (h : Yields (Rewiring.removeAll ids) g u g') :
    g.Eliminates (fun x => x ∈ ids) g' := by
  unfold Rewiring.removeAll at h
  induction ids generalizing g with
  | nil =>
    obtain rfl := yields_forM_nil.mp h
    refine ⟨hg, hi, hco, fun x hx => (List.not_mem_nil hx).elim, fun x _ => rfl,
      fun x _ => rfl, fun x y => ?_⟩
    rw [bridged_none fun z => List.not_mem_nil]
    simp
  | cons id ids ih =>
    obtain ⟨t, hstep, hrest⟩ := yields_forM_cons.mp h
    obtain ⟨op, hop, hlen, rfl⟩ := (yields_remove hg).mp hstep
    have hone := Graph.eliminates_without hg hi hco hop hlen
    have hothers := ih hone.wellFormed hone.indexed hone.coherent hrest
    exact (hone.trans hothers).congr fun x => List.mem_cons.symm

end StreamTopology
