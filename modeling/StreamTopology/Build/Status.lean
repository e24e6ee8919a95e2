import StreamTopology.Document.Decode
import StreamTopology.Number.Duration

/-!
# Build status

The states of a remote build, and waiting for its end.

## Main definitions

* `BuildStatus`, with `BuildStatus.isTerminal`.
* `BuildScript`: the answers that a build service will give.
* `Patience`: the time allowed, and the readings of the clock.
* `BuildStatus.wait`: asks until an answer is decisive or the time is over.
-/

namespace StreamTopology

/-- The state of a remote build. -/
inductive BuildStatus where
  | waiting
  | notBuilt
  | building
  | built
  | failed
  | timeout
  | canceled
  | canceling
  | unknown
  deriving DecidableEq, Repr, Inhabited

namespace BuildStatus

/-- Every state. -/
def all : List BuildStatus :=
  [.waiting, .notBuilt, .building, .built, .failed, .timeout, .canceled, .canceling, .unknown]

/-- The name of a state. -/
def name : BuildStatus → String
  | .waiting => "waiting"
  | .notBuilt => "notBuilt"
  | .building => "building"
  | .built => "built"
  | .failed => "failed"
  | .timeout => "timeout"
  | .canceled => "canceled"
  | .canceling => "canceling"
  | .unknown => "unknown"

/-- The state with a given name. -/
def ofName (s : String) : Except Error BuildStatus :=
  match all.find? fun status => status.name == s with
  | some status => .ok status
  | none => .error (.unmapped (.buildStatus s))

/-- Reads a state from a document. -/
def decode : Decoder BuildStatus :=
  Decoder.enumeration (all.map fun status => (status.name, status))

/-- No other state will follow. Only a build that waits, is not built yet or is being built can
still succeed. -/
def isTerminal : BuildStatus → Bool
  | .waiting | .notBuilt | .building => false
  | _ => true

/-- The build has succeeded. -/
def isSuccess (status : BuildStatus) : Bool := status == .built

end BuildStatus

/-- What a build service will answer, one answer for each question, and the error that it answers
ever after. -/
structure BuildScript where
  answers : List (Except Error BuildStatus)
  exhausted : Error

/-- How long to wait for a build, and by which clock. Times are in nanoseconds. -/
structure Patience where
  /-- Waiting is given up when this much time has passed. -/
  timeout : Nat
  /-- The readings of the clock: one at the start, and one after each answer that is a state. What
  passes between two questions shows in them alone. -/
  clock : Nat → Nat

namespace Patience

/-- The time from the start of the waiting to an answer. -/
def elapsed (p : Patience) (polls : Nat) : Nat := p.clock polls - p.clock 0

/-- No time is left after this many answers. -/
def IsOver (p : Patience) (polls : Nat) : Prop := p.timeout ≤ p.elapsed polls

instance (p : Patience) (polls : Nat) : Decidable (p.IsOver polls) :=
  inferInstanceAs (Decidable (p.timeout ≤ p.elapsed polls))

end Patience

/-- A build that has ended. -/
structure BuildEnd where
  status : BuildStatus
  /-- How often the service was asked. -/
  polls : Nat
  /-- The time from the start of the waiting to the last answer. -/
  elapsed : Nat
  /-- The time observed in each state before the last. -/
  timeInState : BuildStatus → Option Nat

/-- The states before the last, each once. -/
def BuildEnd.states (e : BuildEnd) : List BuildStatus :=
  BuildStatus.all.filter fun status => (e.timeInState status).isSome

namespace BuildStatus

/-- Waiting as far as it has come. -/
structure Watch where
  /-- The builds that the service was asked about. -/
  asked : List String := []
  /-- How often the service answered with a state. -/
  polls : Nat := 0
  /-- The reading of the clock after the last answer. -/
  lastCheck : Nat
  timeInState : BuildStatus → Option Nat := fun _ => none

namespace Watch

/-- The watch at the start. -/
def start (p : Patience) : Watch := { lastCheck := p.clock 0 }

/-- The watch after one more question. -/
def ask (w : Watch) (id : String) : Watch := { w with asked := w.asked ++ [id] }

/-- The watch after a state for an answer. -/
def count (w : Watch) : Watch := { w with polls := w.polls + 1 }

/-- The watch after a state that is not terminal: the time since the answer before was spent in
it. -/
def note (w : Watch) (status : BuildStatus) (now : Nat) : Watch :=
  { w with
    lastCheck := now
    timeInState := fun s =>
      if s = status then some ((w.timeInState s).getD 0 + (now - w.lastCheck))
      else w.timeInState s }

/-- The end of the build that the watch has come to. -/
def ended (w : Watch) (status : BuildStatus) (p : Patience) : BuildEnd where
  status := status
  polls := w.polls
  elapsed := p.elapsed w.polls
  timeInState := w.timeInState

end Watch

/-- Why waiting was given up: the state of the build, and the time that was allowed. -/
def givenUp (id : String) (status : BuildStatus) (timeout : Nat) : Error :=
  .buildTimeout
    ("build " ++ id ++ " still " ++ status.name ++ " after " ++ Duration.text timeout)

/-- Asks about a build until an answer is a terminal state or an error, or no time is left. -/
def waitFrom (id : String) (p : Patience) (exhausted : Error) :
    List (Except Error BuildStatus) → Watch → Except Error BuildEnd × List String
  | [], w => (.error exhausted, (w.ask id).asked)
  | .error e :: _, w => (.error e, (w.ask id).asked)
  | .ok status :: answers, w =>
    let w := (w.ask id).count
    if status.isTerminal then (.ok (w.ended status p), w.asked)
    else
      let w := w.note status (p.clock w.polls)
      if p.IsOver w.polls then (.error (givenUp id status p.timeout), w.asked)
      else waitFrom id p exhausted answers w

/-- Waits for the end of a build. Gives that end, and the builds that the service was asked
about. -/
def wait (id : String) (p : Patience) (script : BuildScript) :
    Except Error BuildEnd × List String :=
  waitFrom id p script.exhausted script.answers (.start p)

/-- Waits by a clock that stands still, so as long as it takes if `patient`, and for no time at all
if not. -/
def await (id : String) (patient : Bool) (script : BuildScript) :
    Except Error BuildEnd × List String :=
  wait id { timeout := if patient then 1 else 0, clock := fun _ => 0 } script

end BuildStatus

end StreamTopology
