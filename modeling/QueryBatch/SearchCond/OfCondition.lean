/-
Conditions as search conditions.  Special attributes become tests of their own, a
test for null carries its own negation, and final offsets of timestamps are mended.
-/
import QueryBatch.Condition.Test
import QueryBatch.SearchCond.Basic
import QueryBatch.SearchCond.Timestamp
import QueryBatch.Settings.Basic
import QueryBatch.SpecialAttr

namespace QueryBatch

/-- The attribute test that makes the same comparison. -/
def OrderTest.attrTest : OrderTest → AttrTest
  | .greater => .gt
  | .greaterEquals => .ge
  | .less => .lt
  | .lessEquals => .le

namespace SearchCond

/-- What a search condition is made for: the settings, and the realm of those who
may assign, if any. -/
structure Target where
  settings : SearchSettings
  realm? : Option Text

/-- A search condition, or its negation. -/
def negatedIf (negated : Bool) (c : SearchCond) : SearchCond :=
  if negated then .not c else c

/-- The leaf of an attribute test: a field of every entity, or an attribute of a schema. -/
def ofAttrCond (settings : SearchSettings) (cond : AttrCond) : SearchCond :=
  .leaf (if settings.isAnyField cond.schema then .any cond else .attr cond)

/-- The leaf of a special attribute. -/
def ofSpecial (realm? : Option Text) (special : SpecialAttr) (value : Text) :
    Except Error Leaf :=
  match special with
  | .type => .ok (.anyType value)
  | .auxClasses => .ok (.auxClass value)
  | .resources => .ok (.resource value)
  | .groups => .ok (.membership value)
  | .relationships => .ok (.relationship value)
  | .relationshipTypes => .ok (.relationshipType value)
  | .roles => .ok (.role value)
  | .privileges => .ok (.privilege value)
  | .dynRealms => .ok (.dynRealm value)
  | .assignable => .ok (.assignable realm?)
  | .member => .ok (.member value)
  | .null => .error (.unsupportedSpecialAttr special.name)

/-- The attribute test of an equality: with wildcards or without, in any case or not. -/
def equalityTest (value : Text) (ignoringCase : Bool) : AttrTest :=
  match value.contains '%', ignoringCase with
  | false, false => .eq
  | false, true => .ieq
  | true, false => .like
  | true, true => .ilike

/-- An equality as a search condition. -/
def ofEquality (target : Target) (s : Statement) (negated ignoringCase : Bool) :
    Except Error SearchCond :=
  let value := Timestamp.restore s.value
  match SpecialAttr.ofText? s.property with
  | some special =>
      (ofSpecial target.realm? special value).map fun leaf => negatedIf negated (.leaf leaf)
  | none =>
      if SpecialAttr.isNull value then
        .ok (ofAttrCond target.settings
          ⟨s.property, if negated then .isNotNull else .isNull, none⟩)
      else
        .ok (negatedIf negated (ofAttrCond target.settings
          ⟨s.property, equalityTest value ignoringCase, some value⟩))

/-- A statement as a search condition. -/
def ofStatement (target : Target) (s : Statement) : Except Error SearchCond :=
  match s.test with
  | .error e => .error e
  | .ok (.equality negated ignoringCase) => ofEquality target s negated ignoringCase
  | .ok (.order test) =>
      .ok (ofAttrCond target.settings
        ⟨s.property, test.attrTest, some (Timestamp.restore s.value)⟩)

/-- A condition as a search condition. -/
def ofCondition (target : Target) (c : Condition) : Except Error SearchCond :=
  c.foldM (ofStatement target) .compound

end SearchCond

end QueryBatch
