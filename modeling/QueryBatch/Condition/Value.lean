/-
Values of statements.  In a query a value may be form-encoded; in a condition `%`
stands for any sequence of characters, which a query writes as `*`.
-/
import QueryBatch.Text.FormEncoding

namespace QueryBatch

/-- How the values of a query are written. -/
inductive ValueCoding where
  | plain
  | formEncoded
deriving DecidableEq, Repr

/-- Turns the wildcard `*` into `%` and undoes the escape of an underscore. -/
def normalizeWildcards : Text → Text
  | [] => []
  | '\\' :: '_' :: r => '_' :: normalizeWildcards r
  | c :: r => (if c = '*' then '%' else c) :: normalizeWildcards r

/-- The value that a statement holds for a value written in a query. -/
def ValueCoding.read : ValueCoding → Text → Except Error Text
  | .plain, raw => .ok (normalizeWildcards raw)
  | .formEncoded, raw => (FormEncoding.decode raw).map normalizeWildcards

/-- The value as a query writes it: `%` as the wildcard `*`. -/
def Statement.writtenValue (s : Statement) : Text :=
  s.value.map fun c => if c = '%' then '*' else c

/-- Writes the characters that end a value as their escapes. -/
def escapeSeparators (value : Text) : Text :=
  value.flatMap fun c =>
    if c = ';' then "%3B".toList
    else if c = ',' then "%2C".toList
    else if c = '(' then "%28".toList
    else if c = ')' then "%29".toList
    else [c]

end QueryBatch
