import StreamTopology.Build.Status
import Mathlib.Algebra.GroupWithZero.Nat
import Mathlib.Data.List.Nodup
import Mathlib.Order.Monotone.Defs
import Mathlib.Order.Nat

/-!
# Waiting for a build

A wait has three exits: an error, a terminal state, and time that has run out. One answer decides
which of them is taken, and the order of the tests matters there: a terminal state counts even when
the time is over, and a state that is not terminal is recorded before the time is looked at. So the
contract is stated for every clock and every timeout at once. It names the states that let the wait
go on, and says what the answer after them comes to. A wait that is never cut short and one without
any patience are the two ends of it.

## Main definitions

* `Patience.Outlasts`: the time is not over after the first answers.
* `BuildStatus.Watched`: a watch is what the states seen so far have made of it.
* `BuildStatus.EndsAt`: what the waiting comes to at an answer.
* `BuildStatus.StopsAt`: the waiting stops at an answer, after some states and before all others.
* `BuildStatus.Follows`: an outcome that goes by the answers alone.

## Main results

* `BuildStatus.Watched.next`: what one more state makes of the watch.
* `BuildStatus.exists_stopsAt`: every wait stops at one answer, and nothing is asked after it.
* `BuildStatus.wait_decisive`: if time does not run out, this is the first answer that is an error
  or a terminal state; if no time is allowed, it is the first answer.
* `BuildStatus.total_of_wait`: the time before the last answer is divided among the states.
-/

namespace StreamTopology

/-- All answers of a build service, up to the error that it answers ever after. -/
def BuildScript.all (script : BuildScript) : List (Except Error BuildStatus) :=
  script.answers ++ [.error script.exhausted]

namespace Patience

/-- The time is not over after any of the first `polls` answers. -/
def Outlasts (p : Patience) (polls : Nat) : Prop := ∀ n < polls, ¬ p.IsOver (n + 1)

instance (p : Patience) (polls : Nat) : Decidable (p.Outlasts polls) :=
  inferInstanceAs (Decidable (∀ n < polls, ¬ p.IsOver (n + 1)))

variable {p : Patience} {n : Nat}

theorem Outlasts.succ (h : p.Outlasts n) (hn : ¬ p.IsOver (n + 1)) : p.Outlasts (n + 1) := by
  intro i hi
  rcases Nat.lt_succ_iff_lt_or_eq.mp hi with hi | rfl
  · exact h i hi
  · exact hn

/-- Whoever allows no time has none left at any answer. -/
theorem isOver_of_timeout_eq_zero (h : p.timeout = 0) : p.IsOver n := by
  simp [IsOver, h]

end Patience

namespace BuildStatus

variable {id : String} {p : Patience} {seen : List BuildStatus} {status : BuildStatus} {w : Watch}
  {script : BuildScript} {last : Except Error BuildStatus}

/-! ### Times in states -/

/-- The time observed in all states together. -/
def total (times : BuildStatus → Option Nat) : Nat :=
  (all.map fun status => (times status).getD 0).sum

/-- Time that is added to one state is added to the whole. -/
theorem total_note {times : BuildStatus → Option Nat} {time : Nat} :
    total (fun s => if s = status then some ((times s).getD 0 + time) else times s) =
      total times + time := by
  cases status <;> simp [total, all] <;> omega

theorem mem_states {e : BuildEnd} : status ∈ e.states ↔ (e.timeInState status).isSome := by
  have hall : status ∈ all := by cases status <;> decide
  simp [BuildEnd.states, hall]

theorem nodup_states (e : BuildEnd) : e.states.Nodup :=
  List.Nodup.filter _ (by decide)

/-! ### The watch -/

/-- The watch is what the states seen so far have made of it. -/
structure Watched (id : String) (p : Patience) (seen : List BuildStatus) (w : Watch) : Prop where
  asked : w.asked = List.replicate seen.length id
  polls : w.polls = seen.length
  lastCheck : w.lastCheck = p.clock seen.length
  states : ∀ s, (w.timeInState s).isSome ↔ s ∈ seen
  total : Monotone p.clock → total w.timeInState = p.elapsed seen.length

namespace Watched

theorem start (id : String) (p : Patience) : Watched id p [] (.start p) where
  asked := rfl
  polls := rfl
  lastCheck := rfl
  states s := by simp [Watch.start]
  total _ := by simp [BuildStatus.total, Watch.start, all, Patience.elapsed]

/-- The question after the states seen so far. -/
theorem asked_ask (h : Watched id p seen w) :
    (w.ask id).asked = List.replicate (seen.length + 1) id := by
  rw [Watch.ask, h.asked, List.replicate_succ']

/-- **One more state** that is not terminal. -/
theorem next (h : Watched id p seen w) (status : BuildStatus) :
    Watched id p (seen ++ [status]) ((w.ask id).count.note status (p.clock (w.polls + 1))) where
  asked := by
    rw [List.length_append]
    exact h.asked_ask
  polls := by
    rw [List.length_append, ← h.polls]
    rfl
  lastCheck := by
    rw [List.length_append, ← h.polls]
    rfl
  states s := by
    simp only [Watch.note, Watch.count, Watch.ask, List.mem_append, List.mem_singleton]
    by_cases hs : s = status
    · simp [hs]
    · simp [hs, h.states]
  total hclock := by
    have hbefore := h.total hclock
    have hstart : p.clock 0 ≤ p.clock seen.length := hclock (Nat.zero_le _)
    have hnow : p.clock seen.length ≤ p.clock (seen.length + 1) := hclock (Nat.le_succ _)
    simp only [Watch.note, Watch.count, Watch.ask, total_note, h.lastCheck, h.polls, hbefore,
      Patience.elapsed, List.length_append, List.length_singleton]
    omega

end Watched

/-! ### Where the waiting ends -/

/-- What the waiting comes to at an answer, after the states `seen`. -/
inductive EndsAt (id : String) (p : Patience) (seen : List BuildStatus) :
    Except Error BuildStatus → Except Error BuildEnd → Prop where
  /-- The service fails, and so does the wait. -/
  | failed (e : Error) : EndsAt id p seen (.error e) (.error e)
  /-- The build has ended. The time is not looked at. -/
  | ended {e : BuildEnd} (terminal : e.status.isTerminal = true)
      (polls : e.polls = seen.length + 1) (elapsed : e.elapsed = p.elapsed (seen.length + 1))
      (states : ∀ s, s ∈ e.states ↔ s ∈ seen)
      (total : Monotone p.clock → total e.timeInState = p.elapsed seen.length) :
      EndsAt id p seen (.ok e.status) (.ok e)
  /-- The build goes on, but no time is left. -/
  | late {status : BuildStatus} (pending : status.isTerminal = false)
      (spent : p.IsOver (seen.length + 1)) :
      EndsAt id p seen (.ok status) (.error (givenUp id status p.timeout))

theorem Watched.ended (h : Watched id p seen w) (terminal : status.isTerminal = true) :
    EndsAt id p seen (.ok status) (.ok ((w.ask id).count.ended status p)) := by
  have hpolls : (w.ask id).count.polls = seen.length + 1 := congrArg (· + 1) h.polls
  refine EndsAt.ended (e := (w.ask id).count.ended status p) terminal hpolls ?_ ?_ h.total
  · exact congrArg p.elapsed hpolls
  · intro s
    rw [mem_states]
    exact h.states s

/-- The waiting stops at the answer `last`, after the states `seen` and before any other answer. -/
structure StopsAt (id : String) (p : Patience) (answers : List (Except Error BuildStatus))
    (seen : List BuildStatus) (last : Except Error BuildStatus)
    (outcome : Except Error BuildEnd × List String) : Prop where
  answers : ∃ rest, answers = seen.map .ok ++ last :: rest
  pending : ∀ s ∈ seen, s.isTerminal = false
  outlasts : p.Outlasts seen.length
  asked : outcome.2 = List.replicate (seen.length + 1) id
  ends : EndsAt id p seen last outcome.1

/-- **From any watch on,** the waiting stops at one of the answers that are still to come. -/
theorem exists_stopsAt_from (exhausted : Error) (answers : List (Except Error BuildStatus))
    (h : Watched id p seen w) (pending : ∀ s ∈ seen, s.isTerminal = false)
    (outlasts : p.Outlasts seen.length) :
    ∃ seen' last, StopsAt id p (seen.map .ok ++ (answers ++ [.error exhausted])) seen' last
      (waitFrom id p exhausted answers w) := by
  induction answers generalizing seen w with
  | nil => exact ⟨seen, _, ⟨[], rfl⟩, pending, outlasts, h.asked_ask, .failed exhausted⟩
  | cons answer answers ih =>
    cases answer with
    | error e => exact ⟨seen, _, ⟨_, rfl⟩, pending, outlasts, h.asked_ask, .failed e⟩
    | ok status =>
      rw [waitFrom]
      by_cases terminal : status.isTerminal = true
      · rw [if_pos terminal]
        exact ⟨seen, _, ⟨_, rfl⟩, pending, outlasts, h.asked_ask, h.ended terminal⟩
      · rw [if_neg terminal]
        rw [Bool.not_eq_true] at terminal
        have hpolls : (w.ask id).count.polls = seen.length + 1 := congrArg (· + 1) h.polls
        by_cases spent : p.IsOver (seen.length + 1)
        · rw [if_pos (hpolls ▸ spent)]
          exact ⟨seen, _, ⟨_, rfl⟩, pending, outlasts, h.asked_ask, .late terminal spent⟩
        · rw [if_neg (hpolls ▸ spent)]
          have hpending : ∀ s ∈ seen ++ [status], s.isTerminal = false := by
            intro s hs
            rcases List.mem_append.mp hs with hs | hs
            · exact pending s hs
            · rwa [List.mem_singleton.mp hs]
          have houtlasts : p.Outlasts (seen ++ [status]).length := by
            rw [List.length_append]
            exact outlasts.succ spent
          have hlater := ih (h.next status) hpending houtlasts
          rwa [List.map_append, List.append_assoc] at hlater

/-- **Every wait stops at one answer,** and asks for no other after it. -/
theorem exists_stopsAt (id : String) (p : Patience) (script : BuildScript) :
    ∃ seen last, StopsAt id p script.all seen last (wait id p script) :=
  exists_stopsAt_from script.exhausted script.answers (.start id p) nofun nofun

/-! ### Waiting without regard to time, and without any time -/

/-- A state is not the last of all answers. -/
theorem length_lt_of_all {rest : List (Except Error BuildStatus)}
    (h : script.all = seen.map .ok ++ .ok status :: rest) :
    seen.length < script.answers.length := by
  have hrest : rest ≠ [] := by
    rintro rfl
    cases (List.append_inj' h rfl).2
  have hlength := congrArg List.length h
  have hpos := List.length_pos_iff.mpr hrest
  simp only [BuildScript.all, List.length_append, List.length_map, List.length_cons,
    List.length_nil] at hlength
  omega

/-- The outcome goes by the answers alone: the service is asked about this build and no other, up to
the first answer that is an error or a terminal state and no further, and that answer is the
result. -/
def Follows (id : String) (answers : List (Except Error BuildStatus))
    (outcome : Except Error BuildEnd × List String) : Prop :=
  ∃ (seen : List BuildStatus) (last : Except Error BuildStatus)
    (rest : List (Except Error BuildStatus)),
    answers = seen.map .ok ++ last :: rest ∧ (∀ s ∈ seen, s.isTerminal = false) ∧
    outcome.2 = List.replicate (seen.length + 1) id ∧
    ((∃ e, last = .error e ∧ outcome.1 = .error e) ∨
      ∃ e, last = .ok e.status ∧ e.status.isTerminal = true ∧ outcome.1 = .ok e ∧
        e.polls = seen.length + 1 ∧ e.states.Nodup ∧ ∀ s, s ∈ e.states ↔ s ∈ seen)

namespace StopsAt

variable {outcome : Except Error BuildEnd × List String}
  (h : StopsAt id p script.all seen last outcome)

include h

/-- Where the time does not run out, it is not looked at. -/
theorem follows (outlasts : p.Outlasts script.answers.length) :
    Follows id script.all outcome := by
  obtain ⟨rest, hall⟩ := h.answers
  refine ⟨seen, last, rest, hall, h.pending, h.asked, ?_⟩
  have hends := h.ends
  generalize outcome.1 = result at hends ⊢
  cases hends with
  | failed e => exact Or.inl ⟨e, rfl, rfl⟩
  | @ended e terminal polls _ states _ =>
    exact Or.inr ⟨e, rfl, terminal, rfl, polls, nodup_states e, states⟩
  | late pending spent => exact absurd spent (outlasts _ (length_lt_of_all hall))

/-- Where no time is allowed, only the first answer counts. -/
theorem seen_eq_nil (hzero : p.timeout = 0) : seen = [] := by
  by_contra hne
  exact h.outlasts 0 (List.length_pos_iff.mpr hne) (Patience.isOver_of_timeout_eq_zero hzero)

end StopsAt

/-- The message of a wait without any time. -/
theorem givenUp_zero : givenUp id status 0 =
    .buildTimeout ("build " ++ id ++ " still " ++ status.name ++ " after 0ns") := by
  have htext : " after " ++ Duration.text 0 = " after 0ns" := by decide +kernel
  simp only [givenUp, String.append_assoc, htext]

/-- **Waiting stops at the first decisive answer** if the time does not run out. If no time is
allowed at all, it stops at the first answer, and is given up if the build goes on. -/
theorem wait_decisive (id : String) (p : Patience) (script : BuildScript) :
    (p.Outlasts script.answers.length → Follows id script.all (wait id p script)) ∧
    (p.timeout = 0 → ∀ (status : BuildStatus) (rest : List (Except Error BuildStatus)),
      script.all = .ok status :: rest → status.isTerminal = false →
      wait id p script =
        (.error (.buildTimeout ("build " ++ id ++ " still " ++ status.name ++ " after 0ns")),
          [id])) := by
  obtain ⟨seen, last, hstops⟩ := exists_stopsAt id p script
  constructor
  · intro outlasts
    exact hstops.follows outlasts
  · intro hzero status rest hfirst hpending
    obtain rfl := hstops.seen_eq_nil hzero
    obtain ⟨rest', hall⟩ := hstops.answers
    obtain rfl : last = .ok status := by
      rw [hall] at hfirst
      exact (List.cons.inj hfirst).1
    have hends := hstops.ends
    refine Prod.ext ?_ hstops.asked
    generalize (wait id p script).1 = result at hends ⊢
    cases hends with
    | ended terminal => exact absurd terminal (by simp [hpending])
    | late => rw [hzero, givenUp_zero]

/-- The service of a build that waits again before it is built. -/
def restartedBuild : BuildScript where
  answers := [.ok .waiting, .ok .building, .ok .waiting, .ok .built, .ok .failed]
  exhausted := .io "connection refused"

/-- A clock that moves on by a second from one answer to the next. -/
def everySecond (timeout : Nat) : Patience where
  timeout := timeout
  clock polls := polls * Duration.second

/-- A minute is enough for that build; without any time it is given up while it waits. -/
theorem wait_decisive_restartedBuild :
    ((everySecond (60 * Duration.second)).Outlasts restartedBuild.answers.length ∧
      Follows "b-1" restartedBuild.all
        (wait "b-1" (everySecond (60 * Duration.second)) restartedBuild)) ∧
    (everySecond 0).timeout = 0 ∧
      wait "b-1" (everySecond 0) restartedBuild =
        (.error (.buildTimeout ("build " ++ "b-1" ++ " still " ++ "waiting" ++ " after 0ns")),
          ["b-1"]) := by
  have hminute : (everySecond (60 * Duration.second)).Outlasts restartedBuild.answers.length := by
    decide
  exact ⟨⟨hminute, (wait_decisive _ _ _).1 hminute⟩, rfl,
    (wait_decisive _ _ _).2 rfl .waiting _ rfl rfl⟩

/-- **The time before the last answer is divided among the states**, if the clock never goes back:
what was observed in them is the time up to the answer before the last. -/
theorem total_of_wait {e : BuildEnd} (hclock : Monotone p.clock)
    (h : (wait id p script).1 = .ok e) :
    total e.timeInState = p.elapsed (e.polls - 1) ∧ total e.timeInState ≤ e.elapsed := by
  obtain ⟨seen, last, hstops⟩ := exists_stopsAt id p script
  have hends := hstops.ends
  rw [h] at hends
  cases hends with
  | ended terminal polls elapsed states total =>
    have hlast : p.clock seen.length ≤ p.clock (seen.length + 1) := hclock (Nat.le_succ _)
    rw [polls, elapsed, total hclock]
    refine ⟨rfl, ?_⟩
    simp only [Patience.elapsed]
    omega

end BuildStatus

end StreamTopology
