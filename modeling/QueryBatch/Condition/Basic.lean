/-
Conditions: comparisons of one property with one value, joined by `;` (and) and
`,` (or) to a tree of any depth.
-/
import QueryBatch.Text.Basic

namespace QueryBatch

/-- What joins the children of a compound condition. -/
inductive Connective where
  | and
  | or
deriving DecidableEq, Repr

namespace Connective

/-- The separator that stands between two joined conditions. -/
def symbol : Connective → Char
  | .and => ';'
  | .or => ','

/-- The connective that a separator stands for. -/
def ofSymbol? (c : Char) : Option Connective :=
  if c = ';' then some .and else if c = ',' then some .or else none

end Connective

/-- How a statement compares its property with its value. -/
inductive Operator where
  | equals
  | notEquals
  | greater
  | greaterEquals
  | less
  | lessEquals
  /-- An extension, named by the comparator that the statement carries. -/
  | custom
deriving DecidableEq, Repr

namespace Operator

/-- The comparator an operator is written with; an extension has none of its own. -/
def comparator? : Operator → Option Text
  | .equals => some "==".toList
  | .notEquals => some "!=".toList
  | .greater => some "=gt=".toList
  | .greaterEquals => some "=ge=".toList
  | .less => some "=lt=".toList
  | .lessEquals => some "=le=".toList
  | .custom => none

/-- The name by which reports refer to an operator. -/
def name : Operator → Text
  | .equals => "EQUALS".toList
  | .notEquals => "NOT_EQUALS".toList
  | .greater => "GREATER_THAN".toList
  | .greaterEquals => "GREATER_OR_EQUALS".toList
  | .less => "LESS_THAN".toList
  | .lessEquals => "LESS_OR_EQUALS".toList
  | .custom => "CUSTOM".toList

end Operator

/-- The comparator of equality up to letter case. -/
def equalsIgnoringCase : Text := "=~".toList

/-- The comparator of inequality up to letter case. -/
def notEqualsIgnoringCase : Text := "!~".toList

/-- One comparison.  A `%` in the value stands for any sequence of characters. -/
structure Statement where
  property : Text
  operator : Operator
  value : Text
  /-- The comparator of an extension; it has a meaning beside `Operator.custom` only. -/
  extension? : Option Text := none
deriving DecidableEq, Repr

/-- A tree of comparisons. -/
inductive Condition where
  | statement (s : Statement)
  | compound (connective : Connective) (children : List Condition)
deriving Repr

namespace Condition

mutual

/-- The comparisons of a condition, from left to right. -/
def statements : Condition → List Statement
  | .statement s => [s]
  | .compound _ children => statementsOfAll children

/-- The comparisons of a list of conditions, from left to right. -/
def statementsOfAll : List Condition → List Statement
  | [] => []
  | c :: cs => c.statements ++ statementsOfAll cs

end

/-- The number of comparisons in a condition. -/
def size (c : Condition) : Nat :=
  c.statements.length

mutual

/-- Structural equality. -/
def same : Condition → Condition → Bool
  | .statement s, .statement t => s == t
  | .compound k cs, .compound l ds => k == l && sameAll cs ds
  | _, _ => false

/-- Structural equality, child by child. -/
def sameAll : List Condition → List Condition → Bool
  | [], [] => true
  | c :: cs, d :: ds => same c d && sameAll cs ds
  | _, _ => false

end

mutual

theorem eq_of_same : ∀ {c d : Condition}, same c d = true → c = d
  | .statement s, .statement t, h => by simp_all [same]
  | .compound k cs, .compound l ds, h => by
      simp only [same, Bool.and_eq_true, beq_iff_eq] at h
      rw [h.1, eq_of_sameAll h.2]
  | .statement _, .compound _ _, h => by simp [same] at h
  | .compound _ _, .statement _, h => by simp [same] at h

theorem eq_of_sameAll : ∀ {cs ds : List Condition}, sameAll cs ds = true → cs = ds
  | [], [], _ => rfl
  | c :: cs, d :: ds, h => by
      simp only [sameAll, Bool.and_eq_true] at h
      rw [eq_of_same h.1, eq_of_sameAll h.2]
  | [], _ :: _, h => by simp [sameAll] at h
  | _ :: _, [], h => by simp [sameAll] at h

end

mutual

theorem same_self : ∀ c : Condition, same c c = true
  | .statement s => by simp [same]
  | .compound k cs => by simp [same, sameAll_self cs]

theorem sameAll_self : ∀ cs : List Condition, sameAll cs cs = true
  | [] => rfl
  | c :: cs => by simp [sameAll, same_self c, sameAll_self cs]

end

instance : DecidableEq Condition := fun c d =>
  if h : same c d = true then isTrue (eq_of_same h)
  else isFalse fun heq => h (heq ▸ same_self c)

end Condition

end QueryBatch
