import StreamTopology.Number.Decimal

/-!
# Operator handles
-/

namespace StreamTopology

/-- The place of an operator in the arena of a graph. Two operators with equal content still have
different handles. -/
structure Handle where
  index : Nat
  deriving DecidableEq, Repr, Inhabited

/-- The handle in messages. -/
def Handle.text (id : Handle) : String := "op#" ++ Decimal.intText id.index

end StreamTopology
