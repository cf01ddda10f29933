/-
Queries as filters and as search conditions.  A filter takes values as they are
written, a search condition decodes them.  Every failure carries the query.
-/
import QueryBatch.Condition.Parser
import QueryBatch.Filter.OfCondition
import QueryBatch.SearchCond.OfCondition

namespace QueryBatch

/-- A result whose failure carries the query it was asked for. -/
def wrapErrors {α : Type} (query : Text) : Except Error α → Except Error α
  | .ok a => .ok a
  | .error e => .error (e.wrap query)

namespace Filter

/-- The filter of a query whose reading is given, with the names it refers to. -/
def ofParsed (query : Text) (parsed : Except Error Condition) :
    Except Error (Filter × List Text) :=
  wrapErrors query do
    let condition ← parsed
    let (filter, names) ← ofCondition condition
    return (filter, sortNames names)

/-- The filter of a query, with the attribute names it refers to in ascending order. -/
def ofQuery (query : Text) : Except Error (Filter × List Text) :=
  ofParsed query (Condition.parse .plain query)

end Filter

namespace SearchCond

/-- The search condition of a query whose reading is given. -/
def ofParsed (target : Target) (query : Text) (parsed : Except Error Condition) :
    Except Error SearchCond :=
  wrapErrors query do
    let condition ← parsed
    ofCondition target condition

/-- The search condition of a query. -/
def ofQuery (target : Target) (query : Text) : Except Error SearchCond :=
  ofParsed target query (Condition.parse .formEncoded query)

end SearchCond

end QueryBatch
