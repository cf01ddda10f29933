/-
Wildcards in values: where the `%` signs of a value stand decides whether a match
at one end, at both ends or in the middle can express it.
-/
import QueryBatch.Text.Basic

namespace QueryBatch

/-- Where the wildcards of a value stand, with the text that is left to match. -/
inductive Wildcard where
  | exact
  | leading (rest : Text)
  | trailing (rest : Text)
  | both (inner : Text)
  /-- Any other place. -/
  | interior
deriving DecidableEq, Repr

namespace Wildcard

/-- The sign that stands for any sequence of characters. -/
def sign : Char := '%'

/-- The text after a wildcard at the start. -/
def afterSign? : Text → Option Text
  | [] => none
  | c :: r => if c = sign then some r else none

/-- Keeps a text without wildcards. -/
def plain? (t? : Option Text) : Option Text :=
  t?.filter fun t => !t.contains sign

/-- Where the wildcards of a value stand.  A lone wildcard counts as leading, and
two of them as leading and trailing. -/
def classify (value : Text) : Wildcard :=
  if !value.contains sign then .exact
  else
    let rest? := afterSign? value
    match plain? rest?, plain? (Text.dropLast? sign value),
        plain? (rest?.bind (Text.dropLast? sign)) with
    | some rest, _, _ => .leading rest
    | none, some rest, _ => .trailing rest
    | none, none, some inner => .both inner
    | none, none, none => .interior

end Wildcard

end QueryBatch
