/-
Filters: what a connector's matching engine evaluates on one entity's attributes.
-/
import QueryBatch.Condition.Basic

namespace QueryBatch

/-- An attribute's name with the value it is matched against. -/
structure Attribute where
  name : Text
  value : Text
deriving DecidableEq, Repr

/-- How a filter's leaf matches its attribute. -/
inductive MatchKind where
  | equals
  | equalsIgnoreCase
  | startsWith
  | endsWith
  /-- Anywhere inside; the value holds no wildcard. -/
  | contains
  | greaterThan
  | greaterThanOrEqual
  | lessThan
  | lessThanOrEqual
deriving DecidableEq, Repr

/-- A tree of attribute matches. -/
inductive Filter where
  | leaf (kind : MatchKind) (target : Attribute)
  | compound (connective : Connective) (children : List Filter)
  | not (filter : Filter)
deriving Repr

namespace Filter

/-- The attribute of a filter that is a leaf. -/
def attribute? : Filter → Option Attribute
  | .leaf _ target => some target
  | _ => none

mutual

/-- The leaves of a filter, from left to right. -/
def leaves : Filter → List (MatchKind × Attribute)
  | .leaf kind target => [(kind, target)]
  | .compound _ children => leavesOfAll children
  | .not filter => filter.leaves

/-- The leaves of filters, from left to right. -/
def leavesOfAll : List Filter → List (MatchKind × Attribute)
  | [] => []
  | f :: fs => f.leaves ++ leavesOfAll fs

end

/-- The number of leaves of a filter. -/
def size (f : Filter) : Nat :=
  f.leaves.length

end Filter

end QueryBatch
