/-
Queries built from comparisons, for use where no text is at hand.  A built query
has a condition and a text; in the text the characters that would end a value are
escaped, so the text is for readers that decode values.
-/
import QueryBatch.Condition.Printer
import QueryBatch.SpecialAttr

namespace QueryBatch

/-- A comparison that a query can be built from. -/
inductive Relation where
  | equalTo
  | notEqualTo
  | equalToIgnoringCase
  | notEqualToIgnoringCase
  | greaterThan
  | greaterOrEqualTo
  | lessThan
  | lessOrEqualTo
deriving DecidableEq, Repr

namespace Relation

/-- The operator of a relation. -/
def operator : Relation → Operator
  | .equalTo => .equals
  | .notEqualTo => .notEquals
  | .equalToIgnoringCase | .notEqualToIgnoringCase => .custom
  | .greaterThan => .greater
  | .greaterOrEqualTo => .greaterEquals
  | .lessThan => .less
  | .lessOrEqualTo => .lessEquals

/-- The extension of a relation that has no operator of its own. -/
def extension? : Relation → Option Text
  | .equalToIgnoringCase => some equalsIgnoringCase
  | .notEqualToIgnoringCase => some notEqualsIgnoringCase
  | _ => none

end Relation

/-- A query in the making. -/
inductive Query where
  | compare (property : Text) (relation : Relation) (value : Text)
  | and (left right : Query)
  | or (left right : Query)
deriving DecidableEq, Repr

namespace Condition

/-- Joins two conditions; a left one joined in the same way takes the right one in. -/
def join (k : Connective) (left right : Condition) : Condition :=
  match left with
  | .compound l children =>
      if l = k then .compound k (children ++ [right]) else .compound k [left, right]
  | .statement _ => .compound k [left, right]

end Condition

namespace Query

/-- The condition that a query states. -/
def condition : Query → Condition
  | .compare property relation value =>
      .statement ⟨property, relation.operator, normalizeWildcards value, relation.extension?⟩
  | .and left right => .join .and left.condition right.condition
  | .or left right => .join .or left.condition right.condition

/-- A query as text. -/
def text (q : Query) : Text :=
  q.condition.renderWith escapeSeparators

/-- The property has no value. -/
def isNull (property : Text) : Query :=
  .compare property .equalTo SpecialAttr.null.literal

/-- The property has a value. -/
def isNotNull (property : Text) : Query :=
  .compare property .notEqualTo SpecialAttr.null.literal

/-- The special attribute is one of the values; without values, it is none at all. -/
def anyOf (attr : SpecialAttr) : List Text → Query
  | [] => isNull attr.literal
  | v :: vs =>
      vs.foldl (fun q v => q.or (.compare attr.literal .equalTo v))
        (.compare attr.literal .equalTo v)

/-- The special attribute is none of the values; without values, it is anything. -/
def noneOf (attr : SpecialAttr) : List Text → Query
  | [] => isNotNull attr.literal
  | v :: vs =>
      vs.foldl (fun q v => q.and (.compare attr.literal .notEqualTo v))
        (.compare attr.literal .notEqualTo v)

/-- Entities of a type. -/
def ofType (anyType : Text) : Query :=
  .compare SpecialAttr.type.literal .equalTo anyType

/-- Members of one of the groups. -/
def inGroups : List Text → Query := anyOf .groups

/-- Members of none of the groups. -/
def notInGroups : List Text → Query := noneOf .groups

/-- Entities assigned to one of the resources. -/
def hasResources : List Text → Query := anyOf .resources

/-- Entities assigned to none of the resources. -/
def hasNotResources : List Text → Query := noneOf .resources

/-- Holders of one of the roles. -/
def inRoles : List Text → Query := anyOf .roles

/-- Holders of none of the roles. -/
def notInRoles : List Text → Query := noneOf .roles

/-- Entities with one of the auxiliary classes. -/
def hasAuxClasses : List Text → Query := anyOf .auxClasses

/-- Entities related to one of the objects. -/
def inRelationships : List Text → Query := anyOf .relationships

/-- Entities in a relationship of one of the types. -/
def inRelationshipTypes : List Text → Query := anyOf .relationshipTypes

/-- Holders of one of the privileges. -/
def withPrivileges : List Text → Query := anyOf .privileges

/-- Entities in one of the dynamic realms. -/
def inDynRealms : List Text → Query := anyOf .dynRealms

/-- Groups with one of the members. -/
def withMembers : List Text → Query := anyOf .member

/-- Entities assignable to the realm that the search is made for. -/
def isAssignable : Query :=
  .compare SpecialAttr.assignable.literal .equalTo "true".toList

end Query

end QueryBatch
