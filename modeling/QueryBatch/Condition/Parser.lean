/-
Queries as conditions.  `;` binds tighter than `,`, brackets group, and a chain of
one operand is that operand.
-/
import QueryBatch.Condition.Brackets
import QueryBatch.Condition.Value

namespace QueryBatch

/-- The comparators a query may use; at one position the first that fits is taken. -/
def comparators : List (Text × Operator) :=
  [("==".toList, .equals), ("!=".toList, .notEquals),
    (equalsIgnoringCase, .custom), (notEqualsIgnoringCase, .custom),
    ("=gt=".toList, .greater), ("=ge=".toList, .greaterEquals),
    ("=lt=".toList, .less), ("=le=".toList, .lessEquals),
    (">=".toList, .greaterEquals), ("<=".toList, .lessEquals),
    (">".toList, .greater), ("<".toList, .less)]

/-- A statement's text, cut at its comparator. -/
structure Comparison where
  property : Text
  comparator : Text
  operator : Operator
  raw : Text
deriving DecidableEq, Repr

namespace Comparison

/-- The comparator at the start of a text. -/
def atStart? (t : Text) : Option Comparison :=
  comparators.findSome? fun (comparator, operator) =>
    (Text.dropStart? comparator t).map fun raw => ⟨[], comparator, operator, raw⟩

/-- Cuts a text at its leftmost comparator. -/
def cut? : Text → Option Comparison
  | [] => none
  | c :: r =>
      match atStart? (c :: r) with
      | some found => some found
      | none => (cut? r).map fun found => { found with property := c :: found.property }

end Comparison

namespace Condition

/-- Reads a statement. -/
def parseStatement (coding : ValueCoding) (t : Text) : Except Error Condition :=
  match Comparison.cut? t with
  | none => .error (.expression (.noComparison t))
  | some found =>
      if found.property = [] then .error (.expression (.noProperty t))
      else if found.raw = [] then .error (.expression (.noComparison t))
      else
        (coding.read found.raw).map fun value =>
          .statement
            { property := found.property
              operator := found.operator
              value := value
              extension? := if found.operator = .custom then some found.comparator else none }

/-- The operands of a query: the chains between `,` and in each the operands between `;`. -/
def operands (t : Text) : List (List Text) :=
  (Brackets.split ',' t).map (Brackets.split ';')

/-- The separator at the end of a text and the operand before it. -/
def dangling? (t : Text) : Option (Text × Connective) :=
  t.getLast?.bind fun c =>
    (Connective.ofSymbol? c).map fun k =>
      (((operands t.dropLast).getLastD []).getLastD [], k)

/-- Fails unless the brackets of a text match and an operand follows its last separator. -/
def checkOperands (t : Text) : Except Error Unit :=
  match Brackets.depthAfter 0 0 t with
  | .error position => .error (.expression (.unmatchedClose position))
  | .ok depth =>
      if depth ≠ 0 then .error (.expression (.unmatchedBrackets t))
      else
        match dangling? t with
        | some (operand, k) => .error (.expression (.dangling operand k))
        | none => .ok ()

/-- A chain of conditions; a chain of one is its only member. -/
def chain (k : Connective) : List Condition → Condition
  | [c] => c
  | cs => .compound k cs

/-- What stands between the brackets of an operand that opens with one. -/
def inside? (operand : Text) : Except Error (Option Text) :=
  match operand with
  | '(' :: body =>
      match Text.dropLast? ')' body with
      | none => .error (.expression (.afterBrackets operand))
      | some [] => .error (.expression .emptyBrackets)
      | some inner => .ok (some inner)
  | _ => .ok none

theorem length_of_inside? {operand inner : Text} (h : inside? operand = .ok (some inner)) :
    inner.length < operand.length := by
  unfold inside? at h
  split at h
  · rename_i body
    split at h
    · simp at h
    · simp at h
    · rename_i rest hdrop
      cases h
      rw [Text.dropLast?_eq_some_iff.mp hdrop]
      simp only [List.length_cons, List.length_append, List.length_nil]
      omega
  · simp at h

theorem length_le_of_mem_operands {t operand : Text} {group : List Text}
    (hgroup : group ∈ operands t) (h : operand ∈ group) : operand.length ≤ t.length := by
  obtain ⟨piece, hpiece, rfl⟩ := List.mem_map.mp hgroup
  exact Nat.le_trans (Brackets.length_le_of_mem_split h) (Brackets.length_le_of_mem_split hpiece)

/-- Applies `f` to the members of a list, in order, up to the first failure. -/
def mapMembers {α β : Type} (l : List α) (f : (a : α) → a ∈ l → Except Error β) :
    Except Error (List β) :=
  l.attach.mapM fun member => f member.1 member.2

theorem mapMembers_eq {α β : Type} (l : List α) (f : α → Except Error β) :
    mapMembers l (fun a _ => f a) = l.mapM f := by
  have h : (l.attach.map Subtype.val).mapM f = l.mapM f := by rw [List.attach_map_subtype_val]
  rw [← h, List.mapM_map]
  rfl

set_option linter.unusedVariables false in
/-- Reads the operands of a query, left to right; the first that fails decides. -/
def parseOperands (coding : ValueCoding) (t : Text) : Except Error Condition := do
  checkOperands t
  chain .or <$> mapMembers (operands t) fun group hgroup =>
    chain .and <$> mapMembers group fun operand hoperand =>
      match hinside : inside? operand with
      | .error e => .error e
      | .ok none => parseStatement coding operand
      | .ok (some inner) => parseOperands coding inner
termination_by t.length
decreasing_by
  have hlen := length_le_of_mem_operands hgroup hoperand
  have hinner := length_of_inside? hinside
  omega

/-- Reads an operand: a query in brackets, or a statement. -/
def parseOperand (coding : ValueCoding) (operand : Text) : Except Error Condition :=
  match inside? operand with
  | .error e => .error e
  | .ok none => parseStatement coding operand
  | .ok (some inner) => parseOperands coding inner

/-- Reads the operands of one chain. -/
def parseChain (coding : ValueCoding) (group : List Text) : Except Error Condition :=
  chain .and <$> group.mapM (parseOperand coding)

theorem parseOperands_eq (coding : ValueCoding) (t : Text) :
    parseOperands coding t =
      (do
        checkOperands t
        chain .or <$> (operands t).mapM (parseChain coding)) := by
  rw [parseOperands]
  have hoperand : ∀ operand : Text,
      (match hinside : inside? operand with
        | .error e => Except.error e
        | .ok none => parseStatement coding operand
        | .ok (some inner) => parseOperands coding inner) = parseOperand coding operand := by
    intro operand
    unfold parseOperand
    split <;> simp [*]
  simp only [hoperand, mapMembers_eq]
  rfl

/-- Reads a query. -/
def parse (coding : ValueCoding) (t : Text) : Except Error Condition :=
  if t.allBlank then .error (.expression .blank) else parseOperands coding t

end Condition

end QueryBatch
