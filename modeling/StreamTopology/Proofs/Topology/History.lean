import StreamTopology.Proofs.Topology.Parameters
import StreamTopology.Proofs.Document.Parameter
import StreamTopology.Proofs.Json.Members

/-!
# The past of a map of parameters

A map of parameters is a list of entries, and every operation works on the list that it finds. What
the users of a map rely on is not about lists: a name stands for what it was last set to, and the
names come in the order in which they came in. Both are about the past of the map, so the past is
written down, as one event after the other.

Two things keep this from being a statement about insertions alone. A name that is removed and
inserted again has come in anew, at the end; so the order is that of the first insertions since the
last removal, and an insertion counts only if the name was absent. And a map may be rebuilt from
pairs that are made of what it holds, with names that collide; in its past this is the removal of
every name, followed by an insertion for each pair. The pairs are a function of the map, so the past
is written along the run.

## Main definitions

* `Parameters.Operation`, `Parameters.after`: operations on a map, and the map after them.
* `Parameters.Event`, `Parameters.history`: what happened to names, from the initial map on.
* `Parameters.Stands`: the value that a name was last set to, unless it was removed since.
* `Parameters.Present`, `Parameters.CameIn`: that a name is there, and when it came in.
* `Parameters.Remembers`: a map is what its past makes of it.

## Main results

* `Parameters.Remembers.step`, `Parameters.Remembers.run`: one event, and any number of them.
* `Parameters.Remembers.unique`: no two maps remember the same past.
* `Parameters.after_remembers`: what a document has begun and operations have gone on with.
-/

namespace StreamTopology

namespace Parameters

variable {ps : Parameters} {name n : String} {v : Parameter}

/-! ### Operations and events -/

/-- An operation on a map of parameters. -/
inductive Operation where
  | insert (name : String) (value : Parameter)
  | remove (name : String)
  /-- The map is collected anew, from pairs that may be made of what it holds. -/
  | rebuild (pairs : Parameters → List (String × Parameter))

/-- What happens to names, one event at a time. -/
inductive Event where
  | inserted (name : String) (value : Parameter)
  | removed (name : String)
  /-- Every name is removed. -/
  | cleared

namespace Event

/-- The event inserts the name. -/
def Inserts (name : String) : Event → Prop
  | .inserted n _ => n = name
  | _ => False

/-- The event removes the name. -/
def Removes (name : String) : Event → Prop
  | .inserted _ _ => False
  | .removed n => n = name
  | .cleared => True

/-- Only an insertion inserts. -/
theorem Inserts.exists_eq {name : String} {e : Event} (h : e.Inserts name) :
    ∃ value, e = .inserted name value := by
  cases e with
  | inserted n value =>
    obtain rfl : n = name := h
    exact ⟨value, rfl⟩
  | _ => exact h.elim

/-- The map after an event. -/
def apply (ps : Parameters) : Event → Parameters
  | .inserted name value => ps.insert name value
  | .removed name => ps.erase name
  | .cleared => empty

/-- The pairs as insertions, in their order. -/
def insertions (pairs : List (String × Parameter)) : List Event :=
  pairs.map fun e => .inserted e.1 e.2

end Event

namespace Operation

/-- The map after an operation. -/
def apply (ps : Parameters) : Operation → Parameters
  | .insert name value => ps.insert name value
  | .remove name => ps.erase name
  | .rebuild pairs => ofList (pairs ps)

/-- The events that an operation on a map consists of. -/
def events (ps : Parameters) : Operation → List Event
  | .insert name value => [.inserted name value]
  | .remove name => [.removed name]
  | .rebuild pairs => .cleared :: Event.insertions (pairs ps)

end Operation

theorem foldl_insertions (pairs : List (String × Parameter)) :
    (Event.insertions pairs).foldl Event.apply empty = ofList pairs :=
  List.foldl_map

/-- An operation does what its events do. -/
theorem foldl_events (ps : Parameters) (op : Operation) :
    (op.events ps).foldl Event.apply ps = op.apply ps := by
  cases op with
  | insert name value => rfl
  | remove name => rfl
  | rebuild pairs => exact foldl_insertions (pairs ps)

/-- The map after operations, one after the other. -/
def after (ps : Parameters) (ops : List Operation) : Parameters := ops.foldl Operation.apply ps

/-- The events that operations consist of. Those of each depend on the map that it finds. -/
def eventsOf (ps : Parameters) : List Operation → List Event
  | [] => []
  | op :: ops => op.events ps ++ eventsOf (op.apply ps) ops

theorem foldl_eventsOf (ops : List Operation) :
    (ps.eventsOf ops).foldl Event.apply ps = ps.after ops := by
  induction ops generalizing ps with
  | nil => rfl
  | cons op ops ih =>
    rw [eventsOf, List.foldl_append, foldl_events, ih]
    rfl

/-- All that has happened: the entries of the initial map came in one after the other, then the
operations were carried out. -/
def history (initial : Parameters) (ops : List Operation) : List Event :=
  Event.insertions initial.entries ++ initial.eventsOf ops

/-! ### What the past says -/

/-- The event came after those `before` it, and every event since has the property. -/
def EverSince (P : Event → Prop) (before : List Event) (e : Event) (events : List Event) : Prop :=
  ∃ since, events = before ++ e :: since ∧ ∀ d ∈ since, P d

/-- The value is the one that the name was last set to, and no removal followed. -/
def Stands (events : List Event) (name : String) (value : Parameter) : Prop :=
  ∃ before, EverSince (fun e => ¬ e.Inserts name ∧ ¬ e.Removes name) before
    (.inserted name value) events

/-- The name was inserted, and no removal followed. -/
def Present (events : List Event) (name : String) : Prop :=
  ∃ before value, EverSince (fun e => ¬ e.Removes name) before (.inserted name value) events

/-- The event with this number is the first insertion of the name since it was last removed: the
name was not present before the event, and it has not been removed since. -/
def CameIn (events : List Event) (name : String) (number : Nat) : Prop :=
  ∃ before value, before.length = number ∧ ¬ Present before name ∧
    EverSince (fun e => ¬ e.Removes name) before (.inserted name value) events

variable {events before : List Event} {e d : Event} {P : Event → Prop} {i j : Nat}

/-- **One more event.** Either it is the one that is asked for, or it is one of those since. -/
theorem everSince_snoc : EverSince P before d (events ++ [e]) ↔
    before = events ∧ d = e ∨ EverSince P before d events ∧ P e := by
  constructor
  · rintro ⟨since, heq, hsince⟩
    rcases List.eq_nil_or_concat since with rfl | ⟨since', last, rfl⟩
    · obtain ⟨hbefore, hd⟩ := List.append_inj' heq rfl
      exact Or.inl ⟨hbefore.symm, (List.cons.inj hd).1.symm⟩
    · rw [List.concat_eq_append] at hsince heq
      rw [← List.cons_append, ← List.append_assoc] at heq
      obtain ⟨hevents, hlast⟩ := List.append_inj' heq rfl
      obtain rfl := (List.cons.inj hlast).1
      rw [List.forall_mem_append] at hsince
      exact Or.inr ⟨⟨since', hevents, hsince.1⟩, hsince.2 e List.mem_cons_self⟩
  · rintro (⟨rfl, rfl⟩ | ⟨⟨since, rfl, hsince⟩, he⟩)
    · exact ⟨[], rfl, nofun⟩
    · refine ⟨since ++ [e], by simp, ?_⟩
      rw [List.forall_mem_append]
      exact ⟨hsince, by simpa using he⟩

theorem stands_snoc : Stands (events ++ [e]) name v ↔
    e = .inserted name v ∨ Stands events name v ∧ ¬ e.Inserts name ∧ ¬ e.Removes name := by
  simp only [Stands, everSince_snoc]
  constructor
  · rintro ⟨before, ⟨rfl, h⟩ | ⟨h, he⟩⟩
    · exact Or.inl h.symm
    · exact Or.inr ⟨⟨before, h⟩, he⟩
  · rintro (rfl | ⟨⟨before, h⟩, he⟩)
    · exact ⟨events, Or.inl ⟨rfl, rfl⟩⟩
    · exact ⟨before, Or.inr ⟨h, he⟩⟩

theorem present_snoc : Present (events ++ [e]) name ↔
    e.Inserts name ∨ Present events name ∧ ¬ e.Removes name := by
  simp only [Present, everSince_snoc]
  constructor
  · rintro ⟨before, value, ⟨rfl, rfl⟩ | ⟨h, he⟩⟩
    · exact Or.inl rfl
    · exact Or.inr ⟨⟨before, value, h⟩, he⟩
  · rintro (he | ⟨⟨before, value, h⟩, he⟩)
    · obtain ⟨value, rfl⟩ := he.exists_eq
      exact ⟨events, value, Or.inl ⟨rfl, rfl⟩⟩
    · exact ⟨before, value, Or.inr ⟨h, he⟩⟩

theorem cameIn_snoc : CameIn (events ++ [e]) name i ↔
    (i = events.length ∧ e.Inserts name ∧ ¬ Present events name) ∨
      CameIn events name i ∧ ¬ e.Removes name := by
  simp only [CameIn, everSince_snoc]
  constructor
  · rintro ⟨before, value, rfl, habsent, ⟨rfl, rfl⟩ | ⟨h, he⟩⟩
    · exact Or.inl ⟨rfl, rfl, habsent⟩
    · exact Or.inr ⟨⟨before, value, rfl, habsent, h⟩, he⟩
  · rintro (⟨rfl, he, habsent⟩ | ⟨⟨before, value, rfl, habsent, h⟩, he⟩)
    · obtain ⟨value, rfl⟩ := he.exists_eq
      exact ⟨events, value, rfl, habsent, Or.inl ⟨rfl, rfl⟩⟩
    · exact ⟨before, value, rfl, habsent, Or.inr ⟨h, he⟩⟩

theorem CameIn.lt_length (h : CameIn events name i) : i < events.length := by
  obtain ⟨before, value, rfl, -, since, rfl, -⟩ := h
  simp

theorem CameIn.present (h : CameIn events name i) : Present events name := by
  obtain ⟨before, value, -, -, h⟩ := h
  exact ⟨before, value, h⟩

theorem not_everSince_nil : ¬ EverSince P before d [] := by
  rintro ⟨since, h, -⟩
  simp at h

/-- Of the insertions since the last removal the last one says what the name stands for. -/
theorem present_iff : Present events name ↔ ∃ v, Stands events name v := by
  induction events using List.reverseRecOn with
  | nil => simp [Present, Stands, not_everSince_nil]
  | append_singleton events e ih =>
    rw [present_snoc, ih]
    constructor
    · intro h
      by_cases hinserts : e.Inserts name
      · obtain ⟨v, rfl⟩ := hinserts.exists_eq
        exact ⟨v, stands_snoc.mpr (Or.inl rfl)⟩
      · obtain ⟨⟨v, hv⟩, hremoves⟩ := h.resolve_left hinserts
        exact ⟨v, stands_snoc.mpr (Or.inr ⟨hv, hinserts, hremoves⟩)⟩
    · rintro ⟨v, hv⟩
      rcases stands_snoc.mp hv with rfl | ⟨hv, _, hremoves⟩
      · exact Or.inl rfl
      · exact Or.inr ⟨⟨v, hv⟩, hremoves⟩

/-- What was present before has not come in by one more event. -/
theorem CameIn.of_snoc (hpresent : Present events name) (h : CameIn (events ++ [e]) name i) :
    CameIn events name i := by
  rcases cameIn_snoc.mp h with ⟨_, _, habsent⟩ | ⟨h, _⟩
  · exact absurd hpresent habsent
  · exact h

/-! ### Maps that remember -/

/-- The names are listed in the order in which they came in. -/
structure InOrder (events : List Event) (names : List String) : Prop where
  cameIn : ∀ n ∈ names, ∃ i, CameIn events n i
  ordered : names.Pairwise fun m n => ∀ i j, CameIn events m i → CameIn events n j → i < j

/-- The map is what its past makes of it. -/
structure Remembers (ps : Parameters) (events : List Event) : Prop where
  distinct : ps.names.Nodup
  stands : ∀ n v, ps.get? n = some v ↔ Stands events n v
  inOrder : InOrder events ps.names

namespace InOrder

variable {names kept : List String}

/-- Names that stay after one more event stay in their order. -/
theorem keep (h : InOrder events names) (hkept : kept.Sublist names)
    (hremoves : ∀ n ∈ kept, ¬ e.Removes n) : InOrder (events ++ [e]) kept := by
  have hbefore : ∀ n ∈ kept, ∀ i, CameIn (events ++ [e]) n i → CameIn events n i := by
    intro n hn i hi
    obtain ⟨j, hj⟩ := h.cameIn n (hkept.subset hn)
    exact hi.of_snoc hj.present
  constructor
  · intro n hn
    obtain ⟨i, hi⟩ := h.cameIn n (hkept.subset hn)
    exact ⟨i, cameIn_snoc.mpr (Or.inr ⟨hi, hremoves n hn⟩)⟩
  · refine (h.ordered.sublist hkept).imp_of_mem ?_
    intro m n hm hn hlt i j hi hj
    exact hlt i j (hbefore m hm i hi) (hbefore n hn j hj)

/-- A name that was absent comes in after all others. -/
theorem insert (h : InOrder events names) (habsent : ¬ Present events name) :
    InOrder (events ++ [.inserted name v]) (names ++ [name]) := by
  have hkept : InOrder (events ++ [.inserted name v]) names :=
    h.keep (List.Sublist.refl names) fun n hn hremoves => hremoves
  have hnew : CameIn (events ++ [.inserted name v]) name events.length :=
    cameIn_snoc.mpr (Or.inl ⟨rfl, rfl, habsent⟩)
  constructor
  · intro n hn
    rcases List.mem_append.mp hn with hn | hn
    · exact hkept.cameIn n hn
    · rw [List.mem_singleton.mp hn]
      exact ⟨_, hnew⟩
  · refine List.pairwise_append.mpr ⟨hkept.ordered, List.pairwise_singleton _ _, ?_⟩
    intro m hm n hn i j hi hj
    rw [List.mem_singleton.mp hn] at hj
    obtain ⟨k, hk⟩ := h.cameIn m hm
    have hbefore : i < events.length := (hi.of_snoc hk.present).lt_length
    rcases cameIn_snoc.mp hj with ⟨rfl, _⟩ | ⟨hj, _⟩
    · exact hbefore
    · exact absurd hj.present habsent

end InOrder

namespace Remembers

theorem nil : empty.Remembers [] where
  distinct := List.nodup_nil
  stands n v := by simp [empty, get?, Stands, not_everSince_nil]
  inOrder := ⟨nofun, List.Pairwise.nil⟩

theorem mem_names (h : ps.Remembers events) : n ∈ ps.names ↔ Present events n := by
  simp only [mem_names_iff, h.stands, present_iff]

theorem contains (h : ps.Remembers events) :
    ps.contains n = true ↔ ∃ v, Stands events n v := by
  simp only [Parameters.contains, Option.isSome_iff_exists, h.stands]

/-- What is listed is what is found by looking it up. -/
theorem mem_entries (h : ps.Remembers events) : (n, v) ∈ ps.entries ↔ Stands events n v := by
  rw [← h.stands]
  exact (lookup_eq_some_iff h.distinct).symm

/-- After an insertion. -/
theorem inserted (h : ps.Remembers events) (name : String) (v : Parameter) :
    (ps.insert name v).Remembers (events ++ [.inserted name v]) := by
  have hstands : ∀ n u, (ps.insert name v).get? n = some u ↔
      Stands (events ++ [.inserted name v]) n u := by
    intro n u
    rw [get?_insert, stands_snoc, ← h.stands]
    by_cases hn : n = name
    · simp [hn, Event.Inserts]
    · simp [hn, Ne.symm hn, Event.Inserts, Event.Removes]
  by_cases hname : name ∈ ps.names
  · -- the name keeps its place
    have hnames : (ps.insert name v).names = ps.names := names_insert_of_mem hname
    refine ⟨hnames ▸ h.distinct, hstands, hnames ▸ ?_⟩
    exact h.inOrder.keep (List.Sublist.refl _) fun n hn hremoves => hremoves
  · have hnames : (ps.insert name v).names = ps.names ++ [name] := names_insert_of_notMem hname
    refine ⟨?_, hstands, hnames ▸ ?_⟩
    · rw [hnames, ← List.concat_eq_append]
      exact h.distinct.concat hname
    · exact h.inOrder.insert fun hpresent => hname (h.mem_names.mpr hpresent)

/-- After a removal. -/
theorem removed (h : ps.Remembers events) (name : String) :
    (ps.erase name).Remembers (events ++ [.removed name]) := by
  have hnames : (ps.erase name).names = ps.names.filter fun n => n ≠ name :=
    names_erase h.distinct
  refine ⟨hnames ▸ h.distinct.filter _, ?_, hnames ▸ ?_⟩
  · intro n u
    rw [stands_snoc, ← h.stands]
    by_cases hn : n = name
    · rw [hn, get?_erase_self h.distinct]
      simp [Event.Removes]
    · simp [get?_erase hn, Ne.symm hn, Event.Inserts, Event.Removes]
  · refine h.inOrder.keep List.filter_sublist ?_
    intro n hn hremoves
    have hne : n ≠ name := by simpa using List.of_mem_filter hn
    exact hne hremoves.symm

/-- After all names are removed. -/
theorem cleared (events : List Event) : empty.Remembers (events ++ [.cleared]) where
  distinct := List.nodup_nil
  stands n v := by simp [stands_snoc, empty, get?, Event.Removes]
  inOrder := ⟨nofun, List.Pairwise.nil⟩

/-- **One more event.** -/
theorem step (h : ps.Remembers events) (e : Event) : (e.apply ps).Remembers (events ++ [e]) := by
  cases e with
  | inserted name v => exact h.inserted name v
  | removed name => exact h.removed name
  | cleared => exact cleared events

/-- **Any number of events.** -/
theorem run (h : ps.Remembers events) (later : List Event) :
    (later.foldl Event.apply ps).Remembers (events ++ later) := by
  induction later generalizing ps events with
  | nil => rwa [List.append_nil]
  | cons e later ih =>
    rw [List.append_cons]
    exact ih (h.step e)

/-- **The past determines the map.** -/
theorem unique {qs : Parameters} (h : ps.Remembers events) (h' : qs.Remembers events) :
    ps = qs := by
  have hmem : ∀ e, e ∈ ps.entries ↔ e ∈ qs.entries := fun e =>
    h.mem_entries.trans h'.mem_entries.symm
  have hperm : ps.entries.Perm qs.entries :=
    (List.perm_ext_iff_of_nodup h.distinct.of_map h'.distinct.of_map).mpr hmem
  have hentries : ps.entries = qs.entries := by
    refine hperm.eq_of_pairwise ?_ (List.pairwise_map.mp h.inOrder.ordered)
      (List.pairwise_map.mp h'.inOrder.ordered)
    intro d e hd he hde hed
    -- neither of two names comes in before the other
    obtain ⟨i, hi⟩ := h.inOrder.cameIn d.1 (List.mem_map_of_mem hd)
    obtain ⟨j, hj⟩ := h'.inOrder.cameIn e.1 (List.mem_map_of_mem he)
    exact absurd (hde i j hi hj) (Nat.lt_asymm (hed j i hj hi))
  exact congrArg Parameters.mk hentries

end Remembers

/-! ### From a document on -/

theorem remembers_entries (h : ps.names.Nodup) :
    ps.Remembers (Event.insertions ps.entries) := by
  have hrun := Remembers.nil.run (Event.insertions ps.entries)
  rwa [foldl_insertions, ofList_entries h] at hrun

/-- **A map of parameters keeps the order of insertion**, whatever document it is read from and
whatever is done to it. Its names are different, what it holds under a name is what the past says,
and its names are listed as they came in; those of the document came in as the document has them. A
removal leaves all other entries as they are, in their order. -/
theorem after_remembers {source : Source} {initial : Parameters}
    (h : decode source = .ok initial) (ops : List Operation) :
    (initial.after ops).Remembers (initial.history ops) ∧
    (∀ n, (initial.after ops).contains n = true ↔ ∃ v, Stands (initial.history ops) n v) ∧
    (∀ n v, (n, v) ∈ (initial.after ops).entries ↔ Stands (initial.history ops) n v) ∧
    (∀ n, ((initial.after ops).erase n).entries =
      (initial.after ops).entries.filter fun e => e.1 ≠ n) ∧
    ∃ members, Decoder.members source = .ok members ∧ initial.names = members.map Prod.fst := by
  have hinitial : initial.Remembers (Event.insertions initial.entries) :=
    remembers_entries (legible_of_decode h).names
  have hafter : (initial.after ops).Remembers (initial.history ops) := by
    have hrun := hinitial.run (initial.eventsOf ops)
    rwa [foldl_eventsOf] at hrun
  obtain ⟨members, hmembers, h⟩ := bind_eq_ok.mp h
  obtain ⟨es, hes, h⟩ := bind_eq_ok.mp h
  obtain rfl := pure_eq_ok.mp h
  refine ⟨hafter, fun n => hafter.contains, fun n v => hafter.mem_entries,
    fun n => entries_erase hafter.distinct, ?_⟩
  exact ⟨members, hmembers, (decodeMembers_eq_ok hes).1⟩

/-- The map is rebuilt with one name in the place of another. -/
def Operation.rename (old new : String) : Operation :=
  .rebuild fun ps => ps.entries.map fun e => (if e.1 = old then new else e.1, e.2)

/-- A document that gives a name twice. -/
def repeatedName : Source :=
  let value (n : Int) : Source := .object [(.ok "value", .number (.int n))] none
  .object [(.ok "b", value 1), (.ok "a", value 2), (.ok "b", value 3)] none

/-- The map that is read from it: the first place and the last value. -/
def repeatedNameMap : Parameters :=
  ⟨[("b", .literal (.number (.int 3))), ("a", .literal (.number (.int 2)))]⟩

/-- Operations after which two names collide, one of which was removed before. -/
def collidingOperations : List Operation :=
  [.insert "B" (.expression "x"), .remove "b", .insert "A" (.expression "y"),
    .rename "B" "b", .rename "A" "a"]

theorem after_remembers_collidingOperations :
    decode repeatedName = .ok repeatedNameMap ∧
    (repeatedNameMap.after collidingOperations).entries =
      [("a", .expression "y"), ("b", .expression "x")] ∧
    (repeatedNameMap.after collidingOperations).Remembers
      (repeatedNameMap.history collidingOperations) ∧
    (∀ n, (repeatedNameMap.after collidingOperations).contains n = true ↔
      ∃ v, Stands (repeatedNameMap.history collidingOperations) n v) ∧
    (∀ n v, (n, v) ∈ (repeatedNameMap.after collidingOperations).entries ↔
      Stands (repeatedNameMap.history collidingOperations) n v) ∧
    (∀ n, ((repeatedNameMap.after collidingOperations).erase n).entries =
      (repeatedNameMap.after collidingOperations).entries.filter fun e => e.1 ≠ n) ∧
    ∃ members, Decoder.members repeatedName = .ok members ∧
      repeatedNameMap.names = members.map Prod.fst := by
  have hread : decode repeatedName = .ok repeatedNameMap := by decide +kernel
  exact ⟨hread, by decide +kernel, after_remembers hread collidingOperations⟩

end Parameters

end StreamTopology
