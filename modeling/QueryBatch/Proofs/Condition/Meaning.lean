/-
What conditions say about an entity.  A translation that keeps the meaning of every
statement, and joins what it makes of children as their connective says, keeps the
meaning of every condition.
-/
import QueryBatch.Condition.Test
import QueryBatch.Proofs.Failure
import QueryBatch.Proofs.Text.Matching
import QueryBatch.SpecialAttr

namespace QueryBatch

/-- An entity, and how its values are compared: the attributes it has, what letters
count as when case is ignored, and the order of values. -/
structure World where
  value? : Text → Option Text
  fold : Char → Text
  Ordered : OrderTest → Text → Text → Prop

namespace World

/-- The attribute has a value, and the value is as said. -/
def Present (w : World) (name : Text) (P : Text → Prop) : Prop :=
  ∃ t, w.value? name = some t ∧ P t

/-- Two texts are equal, or equal up to case. -/
def Same (w : World) (ignoringCase : Bool) (s t : Text) : Prop :=
  if ignoringCase then s.flatMap w.fold = t.flatMap w.fold else s = t

/-- A text is among those that a value with wildcards stands for, possibly up to case. -/
def Matches (w : World) (ignoringCase : Bool) (value t : Text) : Prop :=
  ∃ u, Wildcard.Stands value u ∧ w.Same ignoringCase u t

theorem matches_plain_iff {w : World} {ignoringCase : Bool} {value t : Text}
    (hplain : Wildcard.sign ∉ value) :
    w.Matches ignoringCase value t ↔ w.Same ignoringCase value t := by
  simp [Matches, Wildcard.stands_iff_eq hplain]

theorem matches_exactly_iff {w : World} {value t : Text} :
    w.Matches false value t ↔ Wildcard.Stands value t := by
  simp [Matches, Same]

theorem present_congr {w : World} {name : Text} {P Q : Text → Prop} (h : ∀ t, P t ↔ Q t) :
    w.Present name P ↔ w.Present name Q := by
  simp only [Present, h]

theorem not_absent_iff {w : World} {name : Text} :
    ¬ w.value? name = none ↔ ∃ t, w.value? name = some t := by
  rw [← ne_eq, Option.ne_none_iff_exists']

end World

namespace Statement

/-- The attribute matches the value; the reserved value matches an absent one. -/
def Matches (w : World) (ignoringCase : Bool) (s : Statement) : Prop :=
  if SpecialAttr.isNull s.value then w.value? s.property = none
  else w.Present s.property (w.Matches ignoringCase s.value)

/-- The attribute has a value in the order to the value of the statement. -/
def Compares (w : World) (test : OrderTest) (s : Statement) : Prop :=
  w.Present s.property fun t => w.Ordered test t s.value

/-- What a statement says; an extension that is not known says nothing that is true. -/
def Holds (w : World) (s : Statement) : Prop :=
  match s.operator with
  | .equals => s.Matches w false
  | .notEquals => ¬ s.Matches w false
  | .greater => s.Compares w .greater
  | .greaterEquals => s.Compares w .greaterEquals
  | .less => s.Compares w .less
  | .lessEquals => s.Compares w .lessEquals
  | .custom =>
      (s.extension? = some equalsIgnoringCase ∧ s.Matches w true) ∨
        (s.extension? = some notEqualsIgnoringCase ∧ ¬ s.Matches w true)

/-- A property, or its negation. -/
def negatedIf (negated : Bool) (P : Prop) : Prop :=
  if negated then ¬ P else P

theorem test_custom_eq_ok_iff {s : Statement} {test : Test} (hcustom : s.operator = .custom) :
    s.test = .ok test ↔
      (s.extension? = some equalsIgnoringCase ∧ test = .equality false true) ∨
        (s.extension? = some notEqualsIgnoringCase ∧ test = .equality true true) := by
  have hdistinct : notEqualsIgnoringCase ≠ equalsIgnoringCase := by decide
  unfold Statement.test
  simp only [hcustom]
  cases s.extension? with
  | none => simp
  | some c =>
      by_cases hequal : c = equalsIgnoringCase
      · simp [hequal, hdistinct.symm, eq_comm]
      · by_cases hnot : c = notEqualsIgnoringCase
        · simp [hnot, hdistinct, hdistinct.symm, eq_comm]
        · simp [hequal, hnot]

theorem holds_equality_iff {w : World} {s : Statement} {negated ignoringCase : Bool}
    (h : s.test = .ok (.equality negated ignoringCase)) :
    s.Holds w ↔ negatedIf negated (s.Matches w ignoringCase) := by
  unfold Holds
  cases hoperator : s.operator with
  | equals | notEquals =>
      simp only [Statement.test, hoperator, Except.ok.injEq, Test.equality.injEq] at h
      obtain ⟨rfl, rfl⟩ := h
      rfl
  | greater | greaterEquals | less | lessEquals => simp [Statement.test, hoperator] at h
  | custom =>
      have hdistinct : notEqualsIgnoringCase ≠ equalsIgnoringCase := by decide
      rcases (test_custom_eq_ok_iff hoperator).mp h with ⟨hextension, htest⟩ | ⟨hextension, htest⟩
      · cases htest
        simp [hextension, negatedIf, hdistinct.symm]
      · cases htest
        simp [hextension, negatedIf, hdistinct]

theorem holds_order_iff {w : World} {s : Statement} {test : OrderTest}
    (h : s.test = .ok (.order test)) : s.Holds w ↔ s.Compares w test := by
  unfold Holds
  cases hoperator : s.operator with
  | equals | notEquals => simp [Statement.test, hoperator] at h
  | greater | greaterEquals | less | lessEquals =>
      simp only [Statement.test, hoperator, Except.ok.injEq, Test.order.injEq] at h
      obtain rfl := h
      rfl
  | custom =>
      rcases (test_custom_eq_ok_iff hoperator).mp h with ⟨-, htest⟩ | ⟨-, htest⟩ <;> cases htest

/-- A statement that asks for an attribute: an equality does not have the name of a
special one. -/
def Plain (s : Statement) : Prop :=
  (∃ test, s.test = .ok (.order test)) ∨
    ∃ negated ignoringCase, s.test = .ok (.equality negated ignoringCase) ∧
      SpecialAttr.ofText? s.property = none

end Statement

/-- What a connective says of its children. -/
def Connective.Joins : Connective → List Prop → Prop
  | .and, ps => ∀ p ∈ ps, p
  | .or, ps => ∃ p ∈ ps, p

namespace Condition

mutual

/-- What a condition says. -/
def Holds (w : World) : Condition → Prop
  | .statement s => s.Holds w
  | .compound k children => k.Joins (holdsEach w children)

/-- What each of the conditions says. -/
def holdsEach (w : World) : List Condition → List Prop
  | [] => []
  | c :: cs => Holds w c :: holdsEach w cs

end

variable {ε α : Type} {leaf : Statement → Except ε α} {node : Connective → List α → α}

mutual

/-- A fold succeeds if it does so on every statement. -/
theorem exists_foldM_iff : ∀ {c : Condition},
    (∃ a, foldM leaf node c = .ok a) ↔ ∀ s ∈ c.statements, ∃ b, leaf s = .ok b
  | .statement s => by simp [foldM, statements]
  | .compound k cs => by
      rw [statements, ← exists_foldAllM_iff]
      simp only [foldM, bind_eq_ok_iff]
      constructor
      · rintro ⟨-, as, has, -⟩
        exact ⟨as, has⟩
      · rintro ⟨as, has⟩
        exact ⟨_, as, has, rfl⟩

theorem exists_foldAllM_iff : ∀ {cs : List Condition},
    (∃ as, foldAllM leaf node cs = .ok as) ↔ ∀ s ∈ statementsOfAll cs, ∃ b, leaf s = .ok b
  | [] => by simp [foldAllM, statementsOfAll, pure, Except.pure]
  | c :: cs => by
      rw [statementsOfAll, List.forall_mem_append, ← exists_foldM_iff, ← exists_foldAllM_iff]
      simp only [foldAllM, bind_eq_ok_iff]
      constructor
      · rintro ⟨-, a, ha, as, has, -⟩
        exact ⟨⟨a, ha⟩, as, has⟩
      · rintro ⟨⟨a, ha⟩, as, has⟩
        exact ⟨_, a, ha, as, has, rfl⟩

end

variable {w : World} {holds : α → Prop}

mutual

/-- A fold that keeps the meaning of statements and connectives keeps that of conditions. -/
theorem holds_foldM_iff (hnode : ∀ k as, holds (node k as) ↔ k.Joins (as.map holds)) :
    ∀ {c : Condition} {a : α}, foldM leaf node c = .ok a →
      (∀ s ∈ c.statements, ∀ b, leaf s = .ok b → (holds b ↔ s.Holds w)) →
        (holds a ↔ c.Holds w)
  | .statement s, a, h, hleaf => hleaf s (by simp [statements]) a h
  | .compound k cs, _, h, hleaf => by
      rw [foldM] at h
      obtain ⟨as, has, h⟩ := bind_eq_ok_iff.mp h
      cases h
      rw [hnode, Holds, map_foldAllM_eq hnode has hleaf]

theorem map_foldAllM_eq (hnode : ∀ k as, holds (node k as) ↔ k.Joins (as.map holds)) :
    ∀ {cs : List Condition} {as : List α}, foldAllM leaf node cs = .ok as →
      (∀ s ∈ statementsOfAll cs, ∀ b, leaf s = .ok b → (holds b ↔ s.Holds w)) →
        as.map holds = holdsEach w cs
  | [], _, h, _ => by
      cases h
      rfl
  | c :: cs, _, h, hleaf => by
      rw [foldAllM] at h
      obtain ⟨a, ha, h⟩ := bind_eq_ok_iff.mp h
      obtain ⟨as, has, h⟩ := bind_eq_ok_iff.mp h
      cases h
      rw [statementsOfAll, List.forall_mem_append] at hleaf
      rw [List.map_cons, holdsEach, propext (holds_foldM_iff hnode ha hleaf.1),
        map_foldAllM_eq hnode has hleaf.2]

end

end Condition

end QueryBatch
