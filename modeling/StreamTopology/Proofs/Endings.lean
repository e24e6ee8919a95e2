import StreamTopology.Proofs.Outcome

/-!
# Both ends of a run

`Yields` speaks of runs that succeed. Some statements are about every run: a failure also leaves a
state behind, and it matters which failure it is. `Ends` has a condition for either end, so that one
statement says what is left after a success, what is left after a failure, and that no other failure
comes up.

Failures fall into two kinds. With a *refusal* the topology is at fault: it breaks a structural
rule, or holds a value without a counterpart. Any other failure would be a mistake of the program or
of its surroundings.

## Main definitions

* `Ends`
* `Error.IsRefusal`, `OnlyRefuses`
* `Settles`: every run leaves a state with a property, and fails with refusals only.
* `Leaves`: every run leaves a state related to the one it started from, whichever way it ends.

## Main results

* `ends_bind`, `ends_forM`, `ends_mapM`: the parts of a run make the whole.
* `leaves_bind`, `leaves_forM`, `leaves_mapM`: the same for what every run leaves.
-/

namespace StreamTopology

/-! ### Refusals -/

/-- The topology is at fault. -/
def Error.IsRefusal : Error → Prop
  | .invalidGraph _ | .unmapped _ => True
  | _ => False

/-- The two kinds of refusals. -/
theorem Error.IsRefusal.cases {e : Error} (h : e.IsRefusal) :
    (∃ c, e = .invalidGraph c) ∨ ∃ c, e = .unmapped c := by
  cases e with
  | invalidGraph c => exact Or.inl ⟨c, rfl⟩
  | unmapped c => exact Or.inr ⟨c, rfl⟩
  | operatorNotFound => exact h.elim
  | buildTimeout => exact h.elim
  | io => exact h.elim
  | document => exact h.elim
  | deadHandle => exact h.elim

/-- If the computation fails, it is a refusal. -/
def OnlyRefuses {α : Type} (x : Except Error α) : Prop := ∀ e, x = .error e → e.IsRefusal

section

variable {α β : Type} {x : Except Error α}

@[simp] theorem onlyRefuses_ok (a : α) : OnlyRefuses (.ok a) := fun _ h => by cases h

@[simp] theorem onlyRefuses_pure (a : α) : OnlyRefuses (pure a : Except Error α) :=
  onlyRefuses_ok a

@[simp] theorem onlyRefuses_error {e : Error} :
    OnlyRefuses (.error e : Except Error α) ↔ e.IsRefusal :=
  ⟨fun h => h e rfl, fun h _ he => by cases he; exact h⟩

theorem OnlyRefuses.map (h : OnlyRefuses x) (f : α → β) : OnlyRefuses (x.map f) := by
  rcases x with e | a
  · exact onlyRefuses_error.mpr (onlyRefuses_error.mp h)
  · exact onlyRefuses_ok (f a)

theorem OnlyRefuses.bind {f : α → Except Error β} (h : OnlyRefuses x)
    (hf : ∀ a, OnlyRefuses (f a)) : OnlyRefuses (x >>= f) := by
  rcases x with e | a
  · exact onlyRefuses_error.mpr (onlyRefuses_error.mp h)
  · exact hf a

theorem onlyRefuses_mapM {f : α → Except Error β} {xs : List α}
    (h : ∀ x ∈ xs, OnlyRefuses (f x)) : OnlyRefuses (xs.mapM f) := by
  induction xs with
  | nil => exact onlyRefuses_ok []
  | cons x xs ih =>
    rw [List.mapM_cons]
    refine (h x List.mem_cons_self).bind fun y => ?_
    exact (ih fun z hz => h z (List.mem_cons_of_mem x hz)).bind fun ys => onlyRefuses_pure _

theorem onlyRefuses_forM {f : α → Except Error PUnit} {xs : List α}
    (h : ∀ x ∈ xs, OnlyRefuses (f x)) : OnlyRefuses (xs.forM f) := by
  induction xs with
  | nil => exact onlyRefuses_ok _
  | cons x xs ih =>
    show OnlyRefuses (f x >>= fun _ => xs.forM f)
    exact (h x List.mem_cons_self).bind fun _ => ih fun z hz => h z (List.mem_cons_of_mem x hz)

end

/-! ### Ends of runs -/

variable {σ α β : Type} {s s' : σ} {Q : α → σ → Prop} {F : Error → σ → Prop}

/-- Whichever way the action ends from the state `s`: a result and the state it leaves satisfy `Q`,
a failure and the state it leaves satisfy `F`. -/
def Ends (Q : α → σ → Prop) (F : Error → σ → Prop) (action : ExceptT Error (StateM σ) α) (s : σ) :
    Prop :=
  match action.run.run s with
  | (.ok a, s') => Q a s'
  | (.error e, s') => F e s'

/-- Every run of the action from `s` leaves a state with the property, and fails with refusals
only. -/
abbrev Settles (P : σ → Prop) (action : ExceptT Error (StateM σ) α) (s : σ) : Prop :=
  Ends (fun _ => P) (fun e s' => e.IsRefusal ∧ P s') action s

theorem Ends.of_yields {action : ExceptT Error (StateM σ) α} {a : α} (h : Ends Q F action s)
    (hrun : Yields action s a s') : Q a s' := by
  rw [Ends, hrun] at h
  exact h

theorem Ends.mono {Q' : α → σ → Prop} {F' : Error → σ → Prop}
    {action : ExceptT Error (StateM σ) α} (h : Ends Q F action s) (hQ : ∀ a t, Q a t → Q' a t)
    (hF : ∀ e t, F e t → F' e t) : Ends Q' F' action s := by
  unfold Ends at h ⊢
  rcases hrun : action.run.run s with ⟨e | a, t⟩
  · rw [hrun] at h
    exact hF e t h
  · rw [hrun] at h
    exact hQ a t h

/-- What is left either way. -/
theorem Ends.after {P : σ → Prop} {action : ExceptT Error (StateM σ) α} (h : Ends Q F action s)
    (hQ : ∀ a t, Q a t → P t) (hF : ∀ e t, F e t → P t) : P (action.run.run s).2 := by
  unfold Ends at h
  rcases hrun : action.run.run s with ⟨e | a, t⟩
  · rw [hrun] at h
    exact hF e t h
  · rw [hrun] at h
    exact hQ a t h

/-- How a run that settles ends. -/
theorem Settles.cases {P : σ → Prop} {action : ExceptT Error (StateM σ) α}
    (h : Settles P action s) :
    ∃ t, P t ∧ ((∃ a, action.run.run s = (.ok a, t)) ∨
      ∃ e, e.IsRefusal ∧ action.run.run s = (.error e, t)) := by
  unfold Settles Ends at h
  rcases hrun : action.run.run s with ⟨e | a, t⟩
  · rw [hrun] at h
    exact ⟨t, h.2, Or.inr ⟨e, h.1, rfl⟩⟩
  · rw [hrun] at h
    exact ⟨t, h, Or.inl ⟨a, rfl⟩⟩

/-- A run that succeeds ends in no other way. -/
theorem Yields.ends {action : ExceptT Error (StateM σ) α} {a : α} (hrun : Yields action s a s')
    (h : Q a s') : Ends Q F action s := by
  rw [Ends, hrun]
  exact h

theorem Succeeds.ends {P : σ → Prop} {action : ExceptT Error (StateM σ) α}
    (h : Succeeds P action s) : Ends (fun _ => P) F action s := by
  obtain ⟨a, t, hrun, ht⟩ := h
  exact hrun.ends ht

theorem ends_pure {a : α} (h : Q a s) : Ends Q F (pure a : ExceptT Error (StateM σ) α) s := h

theorem ends_throw {e : Error} (h : F e s) :
    Ends Q F (throw e : ExceptT Error (StateM σ) α) s := h

theorem ends_set {t : σ} {Q : PUnit → σ → Prop} (h : Q ⟨⟩ t) :
    Ends Q F (set t : ExceptT Error (StateM σ) PUnit) s := h

theorem ends_modify {f : σ → σ} {Q : PUnit → σ → Prop} (h : Q ⟨⟩ (f s)) :
    Ends Q F (modify f : ExceptT Error (StateM σ) PUnit) s := h

theorem ends_reject {c : Prop} [Decidable c] {e : Error} {Q : PUnit → σ → Prop} (hF : c → F e s)
    (hQ : ¬ c → Q ⟨⟩ s) :
    Ends Q F (if c then throw e else pure () : ExceptT Error (StateM σ) Unit) s := by
  split
  next h => exact ends_throw (hF h)
  next h => exact ends_pure (hQ h)

/-- A computation without state leaves the state as it is. -/
theorem ends_liftM {x : Except Error α} (hQ : ∀ a, x = .ok a → Q a s)
    (hF : ∀ e, x = .error e → F e s) :
    Ends Q F (liftM x : ExceptT Error (StateM σ) α) s := by
  rcases x with e | a
  · exact hF e rfl
  · exact hQ a rfl

theorem ends_get_bind {f : σ → ExceptT Error (StateM σ) α} (h : Ends Q F (f s) s) :
    Ends Q F (get >>= f) s := h

theorem ends_bind {P : α → σ → Prop} {Q : β → σ → Prop} {action : ExceptT Error (StateM σ) α}
    {f : α → ExceptT Error (StateM σ) β} (h : Ends P F action s)
    (hf : ∀ a t, P a t → Ends Q F (f a) t) : Ends Q F (action >>= f) s := by
  have step : (action >>= f).run.run s =
      ExceptT.bindCont (fun a => f a) (action.run.run s).1 (action.run.run s).2 := rfl
  unfold Ends at h ⊢
  rw [step]
  rcases hrun : action.run.run s with ⟨e | a, t⟩
  · rw [hrun] at h
    exact h
  · rw [hrun] at h
    exact hf a t h

/-- A computation without state, and what goes on with its result from the same state. -/
theorem ends_liftM_bind {Q : β → σ → Prop} {x : Except Error α}
    {f : α → ExceptT Error (StateM σ) β} (h : ∀ a, x = .ok a → Ends Q F (f a) s)
    (hF : ∀ e, x = .error e → F e s) : Ends Q F (liftM x >>= f) s := by
  rcases x with e | a
  · exact hF e rfl
  · exact h a rfl

variable {I : σ → Prop} {xs : List α}

/-- **Loops.** What each step keeps and each failure allows, the loop keeps and allows. -/
theorem ends_forM {f : α → ExceptT Error (StateM σ) PUnit} (hs : I s)
    (h : ∀ x ∈ xs, ∀ t, I t → Ends (fun _ => I) F (f x) t) :
    Ends (fun _ => I) F (xs.forM f) s := by
  induction xs generalizing s with
  | nil => exact ends_pure hs
  | cons x xs ih =>
    show Ends (fun _ => I) F (f x >>= fun _ => xs.forM f) s
    exact ends_bind (h x List.mem_cons_self s hs) fun _ t ht =>
      ih ht fun z hz => h z (List.mem_cons_of_mem x hz)

/-- Loops with results. -/
theorem ends_mapM {f : α → ExceptT Error (StateM σ) β} (hs : I s)
    (h : ∀ x ∈ xs, ∀ t, I t → Ends (fun _ => I) F (f x) t) :
    Ends (fun _ => I) F (xs.mapM f) s := by
  induction xs generalizing s with
  | nil => exact ends_pure hs
  | cons x xs ih =>
    rw [List.mapM_cons]
    refine ends_bind (h x List.mem_cons_self s hs) fun y t ht => ?_
    refine ends_bind (ih ht fun z hz => h z (List.mem_cons_of_mem x hz)) fun ys t' ht' => ?_
    exact ends_pure ht'

/-! ### What every run leaves -/

/-- Every run of the action, also one that fails, leaves a state related to the one it started
from. -/
def Leaves (R : σ → σ → Prop) (action : ExceptT Error (StateM σ) α) : Prop :=
  ∀ s, R s (action.run.run s).2

section

variable {R : σ → σ → Prop} {action : ExceptT Error (StateM σ) α}

theorem Leaves.confined (h : Leaves R action) : Confined R action := by
  intro s a s' hrun
  have hs := h s
  rwa [show action.run.run s = (.ok a, s') from hrun] at hs

theorem Leaves.ends (h : Leaves R action) (s : σ) :
    Ends (fun _ => R s) (fun _ => R s) action s := by
  have hs := h s
  unfold Ends
  rcases hrun : action.run.run s with ⟨e | a, t⟩
  · rwa [hrun] at hs
  · rwa [hrun] at hs

theorem leaves_of_ends (h : ∀ s, Ends (fun _ => R s) (fun _ => R s) action s) : Leaves R action :=
  fun s => (h s).after (fun _ _ hs => hs) fun _ _ hs => hs

theorem leaves_get_bind {f : σ → ExceptT Error (StateM σ) α} (hf : ∀ s, Leaves R (f s)) :
    Leaves R (get >>= f) :=
  fun s => hf s s

variable [Std.Refl R]

theorem leaves_pure (a : α) : Leaves R (pure a : ExceptT Error (StateM σ) α) :=
  fun s => Std.Refl.refl s

theorem leaves_throw (e : Error) : Leaves R (throw e : ExceptT Error (StateM σ) α) :=
  fun s => Std.Refl.refl s

theorem leaves_liftM (x : Except Error α) : Leaves R (liftM x : ExceptT Error (StateM σ) α) := by
  rcases x with e | a
  · exact leaves_throw e
  · exact leaves_pure a

theorem leaves_reject (c : Prop) [Decidable c] (e : Error) :
    Leaves R (if c then throw e else pure () : ExceptT Error (StateM σ) Unit) := by
  split
  · exact leaves_throw e
  · exact leaves_pure ()

variable [IsTrans σ R]

omit [Std.Refl R] in
theorem leaves_bind {f : α → ExceptT Error (StateM σ) β} (h : Leaves R action)
    (hf : ∀ a, Leaves R (f a)) : Leaves R (action >>= f) :=
  leaves_of_ends fun s => ends_bind (h.ends s) fun a t ht =>
    ((hf a).ends t).mono (fun _ t' h' => IsTrans.trans s t t' ht h')
      fun _ t' h' => IsTrans.trans s t t' ht h'

theorem leaves_forM {f : α → ExceptT Error (StateM σ) PUnit} (h : ∀ x ∈ xs, Leaves R (f x)) :
    Leaves R (xs.forM f) := by
  induction xs with
  | nil => exact leaves_pure PUnit.unit
  | cons x xs ih =>
    show Leaves R (f x >>= fun _ => xs.forM f)
    exact leaves_bind (h x List.mem_cons_self) fun _ =>
      ih fun z hz => h z (List.mem_cons_of_mem x hz)

theorem leaves_mapM {f : α → ExceptT Error (StateM σ) β} (h : ∀ x ∈ xs, Leaves R (f x)) :
    Leaves R (xs.mapM f) := by
  induction xs with
  | nil => exact leaves_pure []
  | cons x xs ih =>
    rw [List.mapM_cons]
    exact leaves_bind (h x List.mem_cons_self) fun y =>
      leaves_bind (ih fun z hz => h z (List.mem_cons_of_mem x hz)) fun ys => leaves_pure (y :: ys)

end

end StreamTopology
