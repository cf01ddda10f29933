/-
What a statement asks for, once extensions are understood: an equality, possibly
negated or ignoring letter case, or a comparison in an order.
-/
import QueryBatch.Error

namespace QueryBatch

/-- A comparison in the order of values. -/
inductive OrderTest where
  | greater
  | greaterEquals
  | less
  | lessEquals
deriving DecidableEq, Repr

/-- What a statement asks for. -/
inductive Test where
  | equality (negated ignoringCase : Bool)
  | order (test : OrderTest)
deriving DecidableEq, Repr

namespace Test

/-- The plain operator of a test. -/
def operator : Test → Operator
  | .equality negated _ => if negated then .notEquals else .equals
  | .order .greater => .greater
  | .order .greaterEquals => .greaterEquals
  | .order .less => .less
  | .order .lessEquals => .lessEquals

/-- Whether a test ignores letter case. -/
def ignoresCase : Test → Bool
  | .equality _ ignoringCase => ignoringCase
  | .order _ => false

end Test

/-- What a statement asks for; only two extensions are known. -/
def Statement.test (s : Statement) : Except Error Test :=
  match s.operator with
  | .equals => .ok (.equality false false)
  | .notEquals => .ok (.equality true false)
  | .greater => .ok (.order .greater)
  | .greaterEquals => .ok (.order .greaterEquals)
  | .less => .ok (.order .less)
  | .lessEquals => .ok (.order .lessEquals)
  | .custom =>
      match s.extension? with
      | none => .error (.unsupportedCondition Operator.custom.name)
      | some c =>
          if c = equalsIgnoringCase then .ok (.equality false true)
          else if c = notEqualsIgnoringCase then .ok (.equality true true)
          else .error (.unsupportedCondition c)

namespace Condition

variable {m : Type → Type} {α : Type} [Monad m]

mutual

/-- Folds a condition: a statement gives what `leaf` makes of it, and a compound what
`node` makes of the results for its children, which come from left to right. -/
def foldM (leaf : Statement → m α) (node : Connective → List α → α) : Condition → m α
  | .statement s => leaf s
  | .compound k children => do
      let results ← foldAllM leaf node children
      return node k results

/-- Folds conditions from left to right. -/
def foldAllM (leaf : Statement → m α) (node : Connective → List α → α) :
    List Condition → m (List α)
  | [] => return []
  | c :: cs => do
      let first ← foldM leaf node c
      let others ← foldAllM leaf node cs
      return first :: others

end

end Condition

end QueryBatch
