/-
Special attributes: reserved names for what an entity has besides its attributes,
and the reserved value that tests for a missing attribute.
-/
import QueryBatch.Text.Basic

namespace QueryBatch

/-- A reserved name. -/
inductive SpecialAttr where
  /-- As a value: no value at all. -/
  | null
  | type
  | auxClasses
  | resources
  | groups
  | relationships
  | relationshipTypes
  | roles
  | privileges
  | dynRealms
  | assignable
  | member
deriving DecidableEq, Repr

namespace SpecialAttr

/-- Every reserved name. -/
def all : List SpecialAttr :=
  [.null, .type, .auxClasses, .resources, .groups, .relationships, .relationshipTypes,
    .roles, .privileges, .dynRealms, .assignable, .member]

/-- The word that follows the mark of a reserved name. -/
def word : SpecialAttr → Text
  | .null => "null".toList
  | .type => "type".toList
  | .auxClasses => "auxClasses".toList
  | .resources => "resources".toList
  | .groups => "groups".toList
  | .relationships => "relationships".toList
  | .relationshipTypes => "relationshipTypes".toList
  | .roles => "roles".toList
  | .privileges => "privileges".toList
  | .dynRealms => "dynRealms".toList
  | .assignable => "assignable".toList
  | .member => "member".toList

/-- The reserved name as a query writes it. -/
def literal (a : SpecialAttr) : Text :=
  '$' :: a.word

/-- The name by which reports refer to a reserved name. -/
def name : SpecialAttr → Text
  | .null => "NULL".toList
  | .type => "TYPE".toList
  | .auxClasses => "AUX_CLASSES".toList
  | .resources => "RESOURCES".toList
  | .groups => "GROUPS".toList
  | .relationships => "RELATIONSHIPS".toList
  | .relationshipTypes => "RELATIONSHIP_TYPES".toList
  | .roles => "ROLES".toList
  | .privileges => "PRIVILEGES".toList
  | .dynRealms => "DYNREALMS".toList
  | .assignable => "ASSIGNABLE".toList
  | .member => "MEMBER".toList

/-- The reserved name that a word stands for. -/
def ofWord? (word : Text) : Option SpecialAttr :=
  all.find? fun a => a.word == word

/-- Reads a reserved name: `$` or `@`, a word, and possibly a closing `$`. -/
def ofText? : Text → Option SpecialAttr
  | [] => none
  | mark :: body =>
      if mark = '$' ∨ mark = '@' then ofWord? ((Text.dropLast? '$' body).getD body) else none

/-- Whether a text spells the reserved value for no value at all. -/
def isNull (t : Text) : Bool :=
  ofText? t == some null

end SpecialAttr

end QueryBatch
