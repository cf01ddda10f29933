/-
Conditions as queries.  A compound inside a compound stands in brackets; how a
value is written is left to the caller.
-/
import QueryBatch.Condition.Value

namespace QueryBatch

namespace Statement

/-- The comparator as a query writes it; an extension without one is an equality. -/
def comparator (s : Statement) : Text :=
  match s.operator, s.extension? with
  | .custom, some c => c
  | o, _ => o.comparator?.getD "==".toList

/-- A statement as a query, its value written by `write`. -/
def renderWith (write : Text → Text) (s : Statement) : Text :=
  s.property ++ s.comparator ++ write s.writtenValue

end Statement

namespace Condition

mutual

/-- A condition as a query, its values written by `write`. -/
def renderWith (write : Text → Text) : Condition → Text
  | .statement s => s.renderWith write
  | .compound k children => renderAllWith write k children

/-- A condition as a child of a compound. -/
def renderChildWith (write : Text → Text) : Condition → Text
  | .statement s => s.renderWith write
  | .compound k children => '(' :: renderAllWith write k children ++ [')']

/-- Conditions as the children of a compound, separated by its symbol. -/
def renderAllWith (write : Text → Text) (k : Connective) : List Condition → Text
  | [] => []
  | c :: cs => renderChildWith write c ++ renderRestWith write k cs

/-- The children after the first, each behind a separator. -/
def renderRestWith (write : Text → Text) (k : Connective) : List Condition → Text
  | [] => []
  | c :: cs => k.symbol :: renderChildWith write c ++ renderRestWith write k cs

end

/-- A condition as a query whose values stand as they are. -/
def render (c : Condition) : Text :=
  c.renderWith id

end Condition

/-- A statement as a query whose value stands as it is. -/
def Statement.render (s : Statement) : Text :=
  s.renderWith id

end QueryBatch
