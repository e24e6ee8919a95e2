import StreamTopology.Proofs.Endings

/-!
# Events of a run

A run is told by its events: the steps that matter, in order, each with the states around it, and
between them stretches in which nothing happens that matters. Which steps matter, and what a stretch
must leave alone, is for the user to say. The story goes on where a run fails, up to the state that
it leaves.

Events may take numbers from a counter that the stretches between them leave alone. Then the numbers
of a run are those from the counter before it up to the counter after it, each once and in order, so
that runs which follow each other share none.

## Main definitions

* `Trace`: the events of a run.
* `Traced`: there are such events.
* `Counts`: a counter that gives the events their numbers.

## Main results

* `Counts.numbers`: the numbers that a run takes.
-/

namespace StreamTopology

variable {σ ε : Type} {quiet : σ → σ → Prop} {event : ε → σ → σ → Prop} {s s' t t' : σ}
  {es es' : List ε} {e : ε}

/-- From the one state the events lead to the other, with quiet stretches between them. -/
inductive Trace (quiet : σ → σ → Prop) (event : ε → σ → σ → Prop) (s : σ) : List ε → σ → Prop
  | start : Trace quiet event s [] s
  | quiet {t t' : σ} {es : List ε} (before : Trace quiet event s es t) (h : quiet t t') :
      Trace quiet event s es t'
  | event {t t' : σ} {es : List ε} {e : ε} (before : Trace quiet event s es t)
      (h : event e t t') : Trace quiet event s (es ++ [e]) t'

theorem Trace.of_quiet (h : quiet s s') : Trace quiet event s [] s' := .quiet .start h

theorem Trace.of_event (h : event e s s') : Trace quiet event s [e] s' := .event .start h

theorem Trace.append (h : Trace quiet event s es t) (h' : Trace quiet event t es' s') :
    Trace quiet event s (es ++ es') s' := by
  induction h' with
  | start =>
    rw [List.append_nil]
    exact h
  | quiet _ hq ih => exact .quiet ih hq
  | event _ he ih =>
    rw [← List.append_assoc]
    exact .event ih he

/-- What quiet stretches and events preserve, the run preserves. -/
theorem Trace.preserves {R : σ → σ → Prop} [Std.Refl R] [IsTrans σ R]
    (hquiet : ∀ t t', quiet t t' → R t t') (hevent : ∀ e t t', event e t t' → R t t')
    (h : Trace quiet event s es s') : R s s' := by
  induction h with
  | start => exact Std.Refl.refl s
  | quiet _ hq ih => exact IsTrans.trans _ _ _ ih (hquiet _ _ hq)
  | event _ he ih => exact IsTrans.trans _ _ _ ih (hevent _ _ _ he)

/-- An event of the run, and what is left of the run after it. -/
theorem Trace.after (h : Trace quiet event s es s') (he : e ∈ es) :
    ∃ t t' rest, event e t t' ∧ Trace quiet event t' rest s' := by
  induction h with
  | start => cases he
  | quiet _ hq ih =>
    obtain ⟨t, t', rest, hevent, hrest⟩ := ih he
    exact ⟨t, t', rest, hevent, .quiet hrest hq⟩
  | @event _ u _ e' _ hlast ih =>
    rcases List.mem_append.mp he with he | he
    · obtain ⟨t, t', rest, hevent, hrest⟩ := ih he
      exact ⟨t, t', rest ++ [e'], hevent, .event hrest hlast⟩
    · obtain rfl := List.mem_singleton.mp he
      exact ⟨_, u, [], hlast, .start⟩

/-- Some events lead from the one state to the other. -/
def Traced (quiet : σ → σ → Prop) (event : ε → σ → σ → Prop) (s s' : σ) : Prop :=
  ∃ es, Trace quiet event s es s'

instance : Std.Refl (Traced quiet event) := ⟨fun _ => ⟨[], .start⟩⟩

instance : IsTrans σ (Traced quiet event) :=
  ⟨fun _ _ _ ⟨es, h⟩ ⟨es', h'⟩ => ⟨es ++ es', h.append h'⟩⟩

/-! ### Numbers -/

/-- The counter is left alone between events, and an event takes its next number or none. -/
structure Counts (quiet : σ → σ → Prop) (event : ε → σ → σ → Prop) (counter : σ → Nat)
    (number? : ε → Option Nat) : Prop where
  quiet : ∀ {t t'}, quiet t t' → counter t' = counter t
  event : ∀ {e t t'}, event e t t' →
    number? e = none ∧ counter t' = counter t ∨
      number? e = some (counter t) ∧ counter t' = counter t + 1

section

variable {counter : σ → Nat} {number? : ε → Option Nat} {n : Nat}
  (hc : Counts quiet event counter number?) (h : Trace quiet event s es s')

include hc h

/-- **The numbers of a run** are those between the two states of the counter. -/
theorem Counts.numbers : counter s ≤ counter s' ∧
    es.filterMap number? = List.range' (counter s) (counter s' - counter s) := by
  induction h with
  | start => simp
  | quiet _ hq ih =>
    rw [hc.quiet hq]
    exact ih
  | @event t t' es e _ he ih =>
    obtain ⟨hle, hnumbers⟩ := ih
    rcases hc.event he with ⟨hnone, hcounter⟩ | ⟨hsome, hcounter⟩
    · rw [hcounter, List.filterMap_append, hnumbers]
      simp [hle, hnone]
    · have hnext : counter t = counter s + 1 * (counter t - counter s) := by omega
      have hlength : counter t' - counter s = counter t - counter s + 1 := by omega
      refine ⟨by omega, ?_⟩
      rw [hlength, List.range'_concat, ← hnext, List.filterMap_append, hnumbers]
      simp [hsome]

theorem Counts.mem_numbers :
    n ∈ es.filterMap number? ↔ counter s ≤ n ∧ n < counter s' := by
  obtain ⟨hle, hnumbers⟩ := hc.numbers h
  rw [hnumbers, List.mem_range'_1]
  omega

theorem Counts.numbers_nodup : (es.filterMap number?).Nodup := by
  rw [(hc.numbers h).2]
  exact List.nodup_range'

/-- Different events have different numbers. -/
theorem Counts.pairwise :
    es.Pairwise fun e e' => ∀ n, number? e = some n → ∀ n', number? e' = some n' → n ≠ n' :=
  List.pairwise_filterMap.mp (hc.numbers_nodup h)

end

end StreamTopology
