import StreamTopology.Json.Value

/-!
# Windows and time units
-/

namespace StreamTopology

/-- How a window moves over its stream. -/
inductive WindowType where
  | sliding
  | tumbling
  | notWindowed
  deriving DecidableEq, Repr, Inhabited

/-- When a window drops tuples, or when it fires. -/
inductive WindowPolicy where
  | count
  | time
  | delta
  | punctuation
  | none
  deriving DecidableEq, Repr, Inhabited

/-- A unit of time in a document. -/
inductive TimeUnit where
  | days
  | hours
  | minutes
  | seconds
  | milliseconds
  | microseconds
  | nanoseconds
  deriving DecidableEq, Repr, Inhabited

namespace TimeUnit

/-- An amount in seconds. Units of whole seconds are multiplied as integers, within 64 bits; smaller
units are divided in floating point. -/
def inSeconds (unit : TimeUnit) (amount : Int) : Binary64 :=
  match unit with
  | .days => Binary64.ofInt (Word.clampInt64 (amount * 86400))
  | .hours => Binary64.ofInt (Word.clampInt64 (amount * 3600))
  | .minutes => Binary64.ofInt (Word.clampInt64 (amount * 60))
  | .seconds => Binary64.ofInt amount
  | .milliseconds => (Binary64.ofInt amount).divideBy 1000
  | .microseconds => (Binary64.ofInt amount).divideBy 1000000
  | .nanoseconds => (Binary64.ofInt amount).divideBy 1000000000

/-- An amount in whole milliseconds, within 64 bits; fractions are cut off. -/
def inMilliseconds (unit : TimeUnit) (amount : Int) : Int :=
  match unit with
  | .days => Word.clampInt64 (amount * 86400000)
  | .hours => Word.clampInt64 (amount * 3600000)
  | .minutes => Word.clampInt64 (amount * 60000)
  | .seconds => Word.clampInt64 (amount * 1000)
  | .milliseconds => amount
  | .microseconds => amount.tdiv 1000
  | .nanoseconds => amount.tdiv 1000000

end TimeUnit

/-- A window on an input port. -/
structure Window where
  kind : WindowType
  evictPolicy : Option WindowPolicy := .none
  evictConfig : Option Json := .none
  evictTimeUnit : Option TimeUnit := .none
  triggerPolicy : Option WindowPolicy := .none
  triggerConfig : Option Json := .none
  triggerTimeUnit : Option TimeUnit := .none
  partitioned : Bool := false
  deriving DecidableEq, Repr, Inhabited

end StreamTopology
