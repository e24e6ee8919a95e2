import StreamTopology.Error
import Mathlib.Order.Defs.Unbundled

/-!
# Successful runs

Operations on graphs, region counters and separations are all state transformers that may fail and
keep the state they have reached. A statement about a successful run names the state before, the
result and the state after; `Yields` is that relation. It is a function of the first two, and every
construct of the monad has one rewriting rule for it, so that a run is taken apart by `simp only`
and never by unfolding the transformers.

## Main definitions

* `Yields`
* `Confined`: every run that succeeds ends in a state related to the one before.
* `Succeeds`: the run from a state succeeds, and ends in a state with a property.

## Main results

* `yields_bind`, `yields_forM_cons`, `yields_mapM_cons`: a run of several steps goes through the
  states between them.
* `Yields.forM_induction`: what each step of a loop preserves, the loop preserves.
* `yields_forM_total`: a loop whose steps all succeed succeeds.
* `confined_bind`, `confined_mapM`, `confined_forM`: confined parts make a confined whole.
* `succeeds_bind`, `succeeds_mapM`, `succeeds_forM`: so do parts that succeed.
-/

namespace StreamTopology

variable {σ α β : Type} {s s' : σ}

/-! ### Results -/

section

variable {ε ε' : Type} {x : Except ε α} {a : α} {b : β}

theorem map_eq_ok {f : α → β} : x.map f = .ok b ↔ ∃ a, x = .ok a ∧ b = f a := by
  rcases x with e | a
  · constructor
    · intro h
      cases h
    · rintro ⟨_, h, _⟩
      cases h
  · constructor
    · intro h
      cases h
      exact ⟨a, rfl, rfl⟩
    · rintro ⟨_, h, rfl⟩
      cases h
      rfl

theorem mapError_eq_ok {f : ε → ε'} : x.mapError f = .ok a ↔ x = .ok a := by
  rcases x with e | b
  · exact ⟨nofun, nofun⟩
  · exact ⟨fun h => congrArg Except.ok (Except.ok.inj h), fun h => h ▸ rfl⟩

theorem pure_eq_ok {a' : α} : (pure a : Except ε α) = .ok a' ↔ a = a' :=
  ⟨Except.ok.inj, congrArg Except.ok⟩

theorem ok_bind {f : α → Except ε β} : Except.ok a >>= f = f a := rfl

theorem bind_eq_ok {f : α → Except ε β} : x >>= f = .ok b ↔ ∃ a, x = .ok a ∧ f a = .ok b := by
  constructor
  · intro h
    rcases x with e | a
    · cases h
    · exact ⟨a, rfl, h⟩
  · rintro ⟨a, rfl, h⟩
    exact h

end

/-- The action succeeds from the state `s`: its result is `a`, and it leaves the state `s'`. -/
def Yields (action : ExceptT Error (StateM σ) α) (s : σ) (a : α) (s' : σ) : Prop :=
  action.run.run s = (.ok a, s')

/-- A run has one outcome. -/
theorem Yields.unique {action : ExceptT Error (StateM σ) α} {a b : α} {t t' : σ}
    (h : Yields action s a t) (h' : Yields action s b t') : a = b ∧ t = t' := by
  have heq : ((.ok a, t) : Except Error α × σ) = (.ok b, t') := h.symm.trans h'
  cases heq
  exact ⟨rfl, rfl⟩

instance [DecidableEq σ] [DecidableEq α] {action : ExceptT Error (StateM σ) α} {a : α} :
    Decidable (Yields action s a s') :=
  match hrun : action.run.run s with
  | (.ok b, t) => decidable_of_iff (b = a ∧ t = s')
      ⟨by rintro ⟨rfl, rfl⟩; exact hrun, fun h => Yields.unique hrun h⟩
  | (.error _, _) => isFalse fun h => by cases hrun.symm.trans h

/-- A run that ends well has a result. -/
theorem exists_yields_of_isOk {action : ExceptT Error (StateM σ) α}
    (h : (action.run.run s).1.isOk = true) : ∃ a s', Yields action s a s' := by
  rcases hrun : action.run.run s with ⟨e | a, s'⟩
  · rw [hrun] at h
    cases h
  · exact ⟨a, s', hrun⟩

/-! ### Single steps -/

theorem yields_pure {a b : α} :
    Yields (pure a : ExceptT Error (StateM σ) α) s b s' ↔ b = a ∧ s' = s := by
  constructor
  · intro h
    cases h
    exact ⟨rfl, rfl⟩
  · rintro ⟨rfl, rfl⟩
    rfl

theorem not_yields_throw {e : Error} {a : α} :
    ¬ Yields (throw e : ExceptT Error (StateM σ) α) s a s' := by
  intro h
  cases h

theorem yields_get {a : σ} : Yields get s a s' ↔ a = s ∧ s' = s := by
  constructor
  · intro h
    cases h
    exact ⟨rfl, rfl⟩
  · rintro ⟨rfl, rfl⟩
    rfl

theorem yields_set {t : σ} {u : PUnit} : Yields (set t) s u s' ↔ s' = t := by
  constructor
  · intro h
    cases h
    rfl
  · rintro rfl
    rfl

theorem yields_modify {f : σ → σ} {u : PUnit} : Yields (modify f) s u s' ↔ s' = f s := by
  constructor
  · intro h
    cases h
    rfl
  · rintro rfl
    rfl

/-- A computation without state succeeds as it does by itself. -/
theorem yields_liftM {x : Except Error α} {a : α} :
    Yields (liftM x : ExceptT Error (StateM σ) α) s a s' ↔ x = .ok a ∧ s' = s := by
  constructor
  · intro h
    cases h
    exact ⟨rfl, rfl⟩
  · rintro ⟨rfl, rfl⟩
    rfl

/-! ### Several steps -/

theorem yields_bind {x : ExceptT Error (StateM σ) α} {f : α → ExceptT Error (StateM σ) β}
    {b : β} : Yields (x >>= f) s b s' ↔ ∃ a t, Yields x s a t ∧ Yields (f a) t b s' := by
  have step : (x >>= f).run.run s =
      ExceptT.bindCont (fun a => f a) (x.run.run s).1 (x.run.run s).2 := rfl
  simp only [Yields, step]
  rcases x.run.run s with ⟨e | a, t⟩
  · constructor
    · intro h
      cases h
    · rintro ⟨_, _, h, _⟩
      cases h
  · constructor
    · intro h
      exact ⟨a, t, rfl, h⟩
    · rintro ⟨_, _, h, h'⟩
      cases h
      exact h'

theorem yields_get_bind {f : σ → ExceptT Error (StateM σ) β} {b : β} :
    Yields (get >>= f) s b s' ↔ Yields (f s) s b s' := by
  rw [yields_bind]
  simp only [yields_get]
  constructor
  · rintro ⟨a, t, ⟨ha, ht⟩, h⟩
    rwa [ha, ht] at h
  · exact fun h => ⟨s, s, ⟨rfl, rfl⟩, h⟩

variable {f : α → ExceptT Error (StateM σ) PUnit} {x : α} {xs : List α} {u : PUnit}

theorem yields_forM_nil : Yields (([] : List α).forM f) s u s' ↔ s' = s :=
  yields_pure.trans ⟨fun h => h.2, fun h => ⟨rfl, h⟩⟩

theorem yields_forM_cons :
    Yields ((x :: xs).forM f) s u s' ↔ ∃ t, Yields (f x) s u t ∧ Yields (xs.forM f) t u s' := by
  show Yields (f x >>= fun _ => xs.forM f) s u s' ↔ _
  rw [yields_bind]
  exact ⟨fun ⟨_, t, h, h'⟩ => ⟨t, h, h'⟩, fun ⟨t, h, h'⟩ => ⟨u, t, h, h'⟩⟩

theorem yields_mapM_nil {g : α → ExceptT Error (StateM σ) β} {ys : List β} :
    Yields (([] : List α).mapM g) s ys s' ↔ ys = [] ∧ s' = s := by
  rw [List.mapM_nil, yields_pure]

theorem yields_mapM_cons {g : α → ExceptT Error (StateM σ) β} {ys : List β} :
    Yields ((x :: xs).mapM g) s ys s' ↔
      ∃ y t zs, Yields (g x) s y t ∧ Yields (xs.mapM g) t zs s' ∧ ys = y :: zs := by
  rw [List.mapM_cons, yields_bind]
  simp only [yields_bind, yields_pure]
  constructor
  · rintro ⟨y, t, hy, zs, t', hzs, rfl, rfl⟩
    exact ⟨y, t, zs, hy, hzs, rfl⟩
  · rintro ⟨y, t, zs, hy, hzs, rfl⟩
    exact ⟨y, t, hy, zs, s', hzs, rfl, rfl⟩

/-- **Loops.** A statement about the elements done so far and the state holds after the loop if it
holds before it and each step of the loop keeps it. -/
theorem Yields.forM_induction {I : List α → σ → Prop}
    (step : ∀ done x t t', x ∈ xs → I done t → Yields (f x) t () t' → I (done ++ [x]) t')
    (init : I [] s) (h : Yields (xs.forM f) s () s') : I xs s' := by
  have loop : ∀ (todo done : List α) (t : σ), (∀ x ∈ todo, x ∈ xs) → I done t →
      Yields (todo.forM f) t () s' → I (done ++ todo) s' := by
    intro todo
    induction todo with
    | nil =>
      intro done t _ hI hrun
      rw [yields_forM_nil.mp hrun, List.append_nil]
      exact hI
    | cons x todo ih =>
      intro done t hsub hI hrun
      obtain ⟨t', hx, hrest⟩ := yields_forM_cons.mp hrun
      have hnext := step done x t t' (hsub x List.mem_cons_self) hI hx
      have := ih (done ++ [x]) t' (fun y hy => hsub y (List.mem_cons_of_mem _ hy)) hnext hrest
      rwa [List.append_assoc] at this
  exact loop xs [] s (fun _ h => h) init h

/-- **Loops with results.** The same, where the elements done so far are the first ones. -/
theorem Yields.mapM_induction {g : α → ExceptT Error (StateM σ) β} {I : List α → σ → Prop}
    {ys : List β}
    (step : ∀ done x t y t', done ++ [x] <+: xs → I done t → Yields (g x) t y t' →
      I (done ++ [x]) t')
    (init : I [] s) (h : Yields (xs.mapM g) s ys s') : I xs s' := by
  have loop : ∀ (todo done : List α) (t : σ) (ys : List β), done ++ todo = xs → I done t →
      Yields (todo.mapM g) t ys s' → I xs s' := by
    intro todo
    induction todo with
    | nil =>
      rintro done t ys rfl hI hrun
      rw [(yields_mapM_nil.mp hrun).2, List.append_nil]
      exact hI
    | cons x todo ih =>
      intro done t ys hsplit hI hrun
      obtain ⟨y, t', zs, hx, hrest, _⟩ := yields_mapM_cons.mp hrun
      rw [List.append_cons] at hsplit
      exact ih (done ++ [x]) t' zs hsplit (step done x t y t' ⟨todo, hsplit⟩ hI hx) hrest
  exact loop xs [] s ys rfl init h

/-- **Loops that succeed.** If each step of a loop succeeds from every state that the statement
allows, and keeps the statement, then the loop succeeds. -/
theorem yields_forM_total {I : List α → σ → Prop}
    (step : ∀ done x t, x ∈ xs → I done t → ∃ t', Yields (f x) t () t' ∧ I (done ++ [x]) t')
    (init : I [] s) : ∃ s', Yields (xs.forM f) s () s' ∧ I xs s' := by
  have loop : ∀ (todo done : List α) (t : σ), (∀ x ∈ todo, x ∈ xs) → I done t →
      ∃ s', Yields (todo.forM f) t () s' ∧ I (done ++ todo) s' := by
    intro todo
    induction todo with
    | nil =>
      intro done t _ hI
      rw [List.append_nil]
      exact ⟨t, yields_forM_nil.mpr rfl, hI⟩
    | cons x todo ih =>
      intro done t hsub hI
      obtain ⟨t', hx, hnext⟩ := step done x t (hsub x List.mem_cons_self) hI
      obtain ⟨s', hrest, hdone⟩ :=
        ih (done ++ [x]) t' (fun y hy => hsub y (List.mem_cons_of_mem _ hy)) hnext
      rw [List.append_assoc] at hdone
      exact ⟨s', yields_forM_cons.mpr ⟨t', hx, hrest⟩, hdone⟩
  exact loop xs [] s (fun _ h => h) init

/-- The same for a loop with results. -/
theorem yields_mapM_total {g : α → ExceptT Error (StateM σ) β} {I : List α → σ → Prop}
    (step : ∀ done x t, done ++ [x] <+: xs → I done t →
      ∃ y t', Yields (g x) t y t' ∧ I (done ++ [x]) t')
    (init : I [] s) : ∃ ys s', Yields (xs.mapM g) s ys s' ∧ I xs s' := by
  have loop : ∀ (todo done : List α) (t : σ), done ++ todo = xs → I done t →
      ∃ ys s', Yields (todo.mapM g) t ys s' ∧ I xs s' := by
    intro todo
    induction todo with
    | nil =>
      rintro done t rfl hI
      rw [List.append_nil]
      exact ⟨[], t, yields_mapM_nil.mpr ⟨rfl, rfl⟩, hI⟩
    | cons x todo ih =>
      intro done t hsplit hI
      rw [List.append_cons] at hsplit
      obtain ⟨y, t', hx, hnext⟩ := step done x t ⟨todo, hsplit⟩ hI
      obtain ⟨ys, s', hrest, hdone⟩ := ih (done ++ [x]) t' hsplit hnext
      exact ⟨y :: ys, s', yields_mapM_cons.mpr ⟨y, t', ys, hx, hrest, rfl⟩, hdone⟩
  exact loop xs [] s rfl init

/-! ### What no run goes beyond -/

/-- Every run of the action that succeeds leads to a state related to the one it started from. -/
def Confined (R : σ → σ → Prop) (action : ExceptT Error (StateM σ) α) : Prop :=
  ∀ s a s', Yields action s a s' → R s s'

section

variable {R : σ → σ → Prop}

theorem confined_get_bind {f : σ → ExceptT Error (StateM σ) β} (hf : ∀ s, Confined R (f s)) :
    Confined R (get >>= f) :=
  fun s b s' h => hf s s b s' (yields_get_bind.mp h)

variable [Std.Refl R]

theorem confined_pure (a : α) : Confined R (pure a : ExceptT Error (StateM σ) α) := by
  intro s b s' h
  obtain ⟨_, rfl⟩ := yields_pure.mp h
  exact Std.Refl.refl s'

variable [IsTrans σ R]

omit [Std.Refl R] in
theorem confined_bind {action : ExceptT Error (StateM σ) α}
    {f : α → ExceptT Error (StateM σ) β} (h : Confined R action) (hf : ∀ a, Confined R (f a)) :
    Confined R (action >>= f) := by
  intro s b s' hrun
  obtain ⟨a, t, hfirst, hrest⟩ := yields_bind.mp hrun
  exact IsTrans.trans s t s' (h s a t hfirst) (hf a t b s' hrest)

theorem confined_mapM {g : α → ExceptT Error (StateM σ) β} (h : ∀ x ∈ xs, Confined R (g x)) :
    Confined R (xs.mapM g) := by
  induction xs with
  | nil => exact confined_pure []
  | cons x xs ih =>
    rw [List.mapM_cons]
    exact confined_bind (h x List.mem_cons_self) fun y =>
      confined_bind (ih fun z hz => h z (List.mem_cons_of_mem x hz)) fun ys =>
        confined_pure (y :: ys)

theorem confined_forM (h : ∀ x ∈ xs, Confined R (f x)) : Confined R (xs.forM f) := by
  induction xs with
  | nil =>
    intro s u s' hrun
    rw [yields_forM_nil.mp hrun]
    exact Std.Refl.refl s
  | cons x xs ih =>
    show Confined R (f x >>= fun _ => xs.forM f)
    exact confined_bind (h x List.mem_cons_self) fun _ =>
      ih fun z hz => h z (List.mem_cons_of_mem x hz)

end

/-! ### Runs that succeed -/

/-- The action succeeds from the state `s` and leaves a state with the property. -/
def Succeeds (P : σ → Prop) (action : ExceptT Error (StateM σ) α) (s : σ) : Prop :=
  ∃ a s', Yields action s a s' ∧ P s'

section

variable {P Q : σ → Prop}

theorem succeeds_pure {a : α} (hs : P s) :
    Succeeds P (pure a : ExceptT Error (StateM σ) α) s :=
  ⟨a, s, yields_pure.mpr ⟨rfl, rfl⟩, hs⟩

theorem succeeds_get_bind {f : σ → ExceptT Error (StateM σ) β} (h : Succeeds P (f s) s) :
    Succeeds P (get >>= f) s := by
  obtain ⟨b, s', hrun, hs'⟩ := h
  exact ⟨b, s', yields_get_bind.mpr hrun, hs'⟩

theorem succeeds_bind {action : ExceptT Error (StateM σ) α}
    {f : α → ExceptT Error (StateM σ) β} (h : Succeeds P action s)
    (hf : ∀ a t, P t → Succeeds Q (f a) t) : Succeeds Q (action >>= f) s := by
  obtain ⟨a, t, hfirst, ht⟩ := h
  obtain ⟨b, s', hrest, hs'⟩ := hf a t ht
  exact ⟨b, s', yields_bind.mpr ⟨a, t, hfirst, hrest⟩, hs'⟩

theorem succeeds_mapM {g : α → ExceptT Error (StateM σ) β} (hs : P s)
    (h : ∀ x ∈ xs, ∀ t, P t → Succeeds P (g x) t) : Succeeds P (xs.mapM g) s := by
  induction xs generalizing s with
  | nil => exact succeeds_pure hs
  | cons x xs ih =>
    rw [List.mapM_cons]
    refine succeeds_bind (h x List.mem_cons_self s hs) fun y t ht => ?_
    refine succeeds_bind (ih ht fun z hz => h z (List.mem_cons_of_mem x hz)) fun ys t' ht' => ?_
    exact succeeds_pure ht'

theorem succeeds_forM (hs : P s) (h : ∀ x ∈ xs, ∀ t, P t → Succeeds P (f x) t) :
    Succeeds P (xs.forM f) s := by
  induction xs generalizing s with
  | nil => exact ⟨⟨⟩, s, yields_forM_nil.mpr rfl, hs⟩
  | cons x xs ih =>
    show Succeeds P (f x >>= fun _ => xs.forM f) s
    exact succeeds_bind (h x List.mem_cons_self s hs) fun _ t ht =>
      ih ht fun z hz => h z (List.mem_cons_of_mem x hz)

end

end StreamTopology
