/-
Search conditions: what the persistence layer turns into a query of its own.
-/
import QueryBatch.Condition.Basic

namespace QueryBatch

/-- How a search condition tests an attribute. -/
inductive AttrTest where
  | eq
  | ieq
  | like
  | ilike
  | isNull
  | isNotNull
  | ge
  | gt
  | le
  | lt
deriving DecidableEq, Repr

/-- A test of one attribute. -/
structure AttrCond where
  schema : Text
  test : AttrTest
  /-- What the attribute is compared with; tests for null have none. -/
  expression? : Option Text
deriving DecidableEq, Repr

/-- A single test of an entity. -/
inductive Leaf where
  /-- An attribute that a schema defines. -/
  | attr (cond : AttrCond)
  /-- A field that every entity has. -/
  | any (cond : AttrCond)
  | anyType (key : Text)
  | auxClass (key : Text)
  | resource (key : Text)
  | membership (group : Text)
  | relationship (anyObject : Text)
  | relationshipType (key : Text)
  | role (key : Text)
  | privilege (key : Text)
  | dynRealm (key : Text)
  | assignable (realmPath? : Option Text)
  | member (key : Text)
deriving DecidableEq, Repr

namespace Leaf

/-- The attribute test of a leaf that is one. -/
def attrCond? : Leaf → Option AttrCond
  | .attr cond | .any cond => some cond
  | _ => none

/-- Changes the attribute test of a leaf that is one. -/
def modifyAttrCond? (f : AttrCond → AttrCond) : Leaf → Option Leaf
  | .attr cond => some (.attr (f cond))
  | .any cond => some (.any (f cond))
  | _ => none

end Leaf

/-- A tree of tests. -/
inductive SearchCond where
  | leaf (test : Leaf)
  | not (cond : SearchCond)
  | compound (connective : Connective) (children : List SearchCond)
deriving Repr

namespace SearchCond

/-- The attribute test of a search condition that is one. -/
def attrCond? : SearchCond → Option AttrCond
  | .leaf test => test.attrCond?
  | _ => none

/-- Changes the attribute test of a search condition that is one. -/
def modifyAttrCond? (f : AttrCond → AttrCond) : SearchCond → Option SearchCond
  | .leaf test => (test.modifyAttrCond? f).map .leaf
  | _ => none

mutual

/-- The leaves of a search condition, from left to right. -/
def leaves : SearchCond → List Leaf
  | .leaf test => [test]
  | .not cond => cond.leaves
  | .compound _ children => leavesOfAll children

/-- The leaves of search conditions, from left to right. -/
def leavesOfAll : List SearchCond → List Leaf
  | [] => []
  | c :: cs => c.leaves ++ leavesOfAll cs

end

end SearchCond

end QueryBatch
