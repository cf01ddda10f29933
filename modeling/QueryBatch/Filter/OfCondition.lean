/-
Conditions as filters.  A filter knows no null: "has a value" is a match with the
empty start and "has none" its negation.  The attribute names that a filter refers
to are collected on the way, and those of statements before a failure are kept.
-/
import QueryBatch.Condition.Test
import QueryBatch.Filter.Basic
import QueryBatch.SpecialAttr
import QueryBatch.Wildcard

namespace QueryBatch

namespace OrderTest

/-- The match that makes the same comparison. -/
def matchKind : OrderTest → MatchKind
  | .greater => .greaterThan
  | .greaterEquals => .greaterThanOrEqual
  | .less => .lessThan
  | .lessEquals => .lessThanOrEqual

end OrderTest

namespace Filter

/-- A filter, or its negation. -/
def negatedIf (negated : Bool) (f : Filter) : Filter :=
  if negated then .not f else f

/-- The leaf that matches a value with wildcards, if one kind of match can. -/
def ofValue? (property value : Text) (ignoringCase : Bool) : Option Filter :=
  match Wildcard.classify value, ignoringCase with
  | .exact, false => some (.leaf .equals ⟨property, value⟩)
  | .exact, true => some (.leaf .equalsIgnoreCase ⟨property, value⟩)
  | .leading rest, false => some (.leaf .endsWith ⟨property, rest⟩)
  | .trailing rest, false => some (.leaf .startsWith ⟨property, rest⟩)
  | .both inner, false => some (.leaf .contains ⟨property, inner⟩)
  | _, _ => none

/-- An equality as a filter, with the attribute names it refers to.  A test for a
missing attribute refers to none. -/
def ofEquality (s : Statement) (negated ignoringCase : Bool) :
    Except Error (Filter × List Text) :=
  match SpecialAttr.ofText? s.property with
  | some special => .error (.unsupportedSpecialAttr special.name)
  | none =>
      if SpecialAttr.isNull s.value then
        let hasValue : Filter := .leaf .startsWith ⟨s.property, []⟩
        if negated then .ok (hasValue, [s.property]) else .ok (.not hasValue, [])
      else
        match ofValue? s.property s.value ignoringCase with
        | some f => .ok (negatedIf negated f, [s.property])
        | none => .error (.unsupportedValue s.value)

/-- A statement as a filter, with the attribute names it refers to. -/
def ofStatement (s : Statement) : Except Error (Filter × List Text) :=
  match s.test with
  | .error e => .error e
  | .ok (.equality negated ignoringCase) => ofEquality s negated ignoringCase
  | .ok (.order test) => .ok (.leaf test.matchKind ⟨s.property, s.value⟩, [s.property])

/-- A computation that collects attribute names and keeps them when it fails. -/
abbrev Collecting := ExceptT Error (StateM (List Text))

/-- A statement as a filter, its attribute names added to those collected. -/
def collectStatement (s : Statement) : Collecting Filter :=
  fun names =>
    match ofStatement s with
    | .ok (f, more) => (.ok f, names ++ more)
    | .error e => (.error e, names)

/-- A condition as a filter, its attribute names added to the given ones. -/
def collect (c : Condition) (names : List Text) : Except Error Filter × List Text :=
  (c.foldM collectStatement .compound : Collecting Filter) names

/-- A condition as a filter, with the attribute names it refers to in order of mention. -/
def ofCondition (c : Condition) : Except Error (Filter × List Text) :=
  match collect c [] with
  | (.ok f, names) => .ok (f, names)
  | (.error e, _) => .error e

/-- Names in ascending order of their code points, each once. -/
def sortNames (names : List Text) : List Text :=
  names.eraseDups.mergeSort Text.notAfter

end Filter

end QueryBatch
