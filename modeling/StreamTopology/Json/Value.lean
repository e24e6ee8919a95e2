import StreamTopology.Number.Ieee

/-!
# JSON values

The data format of topology documents. Integers that fit 64 bits, signed or unsigned, are kept
apart from floating point numbers, and an object keeps the order of its members.

## Main definitions

* `Number`, `Json`.
* `Json.Members`: the members of an object, with look-up, insertion that keeps the place of a
  present key, and `Json.Members.swapRemove`, which moves the last member into the gap.
-/

namespace StreamTopology

/-- A JSON number: an integer between `-2 ^ 63` and `2 ^ 64 - 1`, or a finite double. -/
inductive Number where
  | int (n : Int)
  | float (x : Binary64)
  deriving DecidableEq, Repr, Inhabited

namespace Number

/-- The integer, if it is one and fits 64 bits with a sign. -/
def toInt64? : Number → Option Int
  | .int n => if Word.int64Min ≤ n ∧ n ≤ Word.int64Max then some n else none
  | .float _ => none

/-- The nearest double. -/
def toBinary64 : Number → Binary64
  | .int n => Binary64.ofInt n
  | .float x => x

end Number

/-- A JSON value. -/
inductive Json where
  | null
  | bool (b : Bool)
  | number (n : Number)
  | string (s : String)
  | array (items : List Json)
  | object (members : List (String × Json))
  deriving Repr, Inhabited

namespace Json

mutual

/-- Equality of values is decided by comparing them piece by piece. -/
def decEq : (a b : Json) → Decidable (a = b)
  | .null, .null => isTrue rfl
  | .bool x, .bool y => decidable_of_iff (x = y) (by simp)
  | .number x, .number y => decidable_of_iff (x = y) (by simp)
  | .string x, .string y => decidable_of_iff (x = y) (by simp)
  | .array x, .array y =>
    match decEqItems x y with
    | isTrue h => isTrue (by rw [h])
    | isFalse h => isFalse (by simpa using h)
  | .object x, .object y =>
    match decEqMembers x y with
    | isTrue h => isTrue (by rw [h])
    | isFalse h => isFalse (by simpa using h)
  | .null, .bool _ | .null, .number _ | .null, .string _ | .null, .array _ | .null, .object _
  | .bool _, .null | .bool _, .number _ | .bool _, .string _ | .bool _, .array _
  | .bool _, .object _
  | .number _, .null | .number _, .bool _ | .number _, .string _ | .number _, .array _
  | .number _, .object _
  | .string _, .null | .string _, .bool _ | .string _, .number _ | .string _, .array _
  | .string _, .object _
  | .array _, .null | .array _, .bool _ | .array _, .number _ | .array _, .string _
  | .array _, .object _
  | .object _, .null | .object _, .bool _ | .object _, .number _ | .object _, .string _
  | .object _, .array _ => isFalse (by simp)

/-- Equality of the items of two arrays. -/
def decEqItems : (a b : List Json) → Decidable (a = b)
  | [], [] => isTrue rfl
  | [], _ :: _ => isFalse (by simp)
  | _ :: _, [] => isFalse (by simp)
  | x :: xs, y :: ys =>
    match decEq x y, decEqItems xs ys with
    | isTrue h, isTrue k => isTrue (by rw [h, k])
    | isFalse h, _ => isFalse (by simp [h])
    | _, isFalse k => isFalse (by simp [k])

/-- Equality of the members of two objects, in order. -/
def decEqMembers : (a b : List (String × Json)) → Decidable (a = b)
  | [], [] => isTrue rfl
  | [], _ :: _ => isFalse (by simp)
  | _ :: _, [] => isFalse (by simp)
  | (j, x) :: xs, (k, y) :: ys =>
    match decEq x y, decEqMembers xs ys with
    | isTrue h, isTrue l => decidable_of_iff (j = k) (by simp [h, l])
    | isFalse h, _ => isFalse (by simp [h])
    | _, isFalse l => isFalse (by simp [l])

end

instance : DecidableEq Json := decEq

/-- The members of an object, in order. -/
abbrev Members : Type := List (String × Json)

namespace Members

/-- The value of a key. -/
def get? (ms : Members) (key : String) : Option Json :=
  (ms.find? fun m => m.1 == key).map Prod.snd

/-- Sets the value of a key: in its place if the key is present, else at the end. -/
def insert : Members → String → Json → Members
  | [], key, value => [(key, value)]
  | m :: ms, key, value => if m.1 = key then (key, value) :: ms else m :: insert ms key value

/-- The members of a list of pairs, where a later value of a key takes the place of an earlier. -/
def ofPairs (pairs : List (String × Json)) : Members :=
  pairs.foldl (fun ms p => ms.insert p.1 p.2) []

/-- Removes a key; the last member moves into its place. -/
def swapRemove : Members → String → Members
  | [], _ => []
  | m :: ms, key =>
    if m.1 = key then
      match ms.getLast? with
      | none => []
      | some last => last :: ms.dropLast
    else m :: swapRemove ms key

end Members

/-- The integer that the value is, if it fits 64 bits with a sign. -/
def toInt64? : Json → Option Int
  | .number n => n.toInt64?
  | _ => none

end Json

end StreamTopology
