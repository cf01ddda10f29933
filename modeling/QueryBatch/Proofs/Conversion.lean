/-
Failures of conversions.  A conversion fails where the query cannot be read, and else at
the leftmost statement that the target cannot express; what a query can say is never an
unknown comparison.
-/
import QueryBatch.Conversion
import QueryBatch.Proofs.Condition.Parsing
import QueryBatch.Proofs.Condition.Rendering
import QueryBatch.Proofs.Filter.Meaning

namespace QueryBatch

section

variable {ε α : Type} {leaf : Statement → Except ε α}

/-- The failure of the leftmost of the statements that fails. -/
def FirstFailure (leaf : Statement → Except ε α) (statements : List Statement) (e : ε) : Prop :=
  ∃ before s after, statements = before ++ s :: after ∧
    (∀ b ∈ before, ∃ a, leaf b = .ok a) ∧ leaf s = .error e

theorem firstFailure_nil_iff {e : ε} : FirstFailure leaf [] e ↔ False := by
  simp [FirstFailure]

theorem firstFailure_cons_iff {s : Statement} {others : List Statement} {e : ε} :
    FirstFailure leaf (s :: others) e ↔
      leaf s = .error e ∨ (∃ a, leaf s = .ok a) ∧ FirstFailure leaf others e := by
  constructor
  · rintro ⟨before, s', after, heq, hbefore, hs'⟩
    cases before with
    | nil =>
        obtain ⟨rfl, rfl⟩ := List.cons.inj heq
        exact Or.inl hs'
    | cons b before =>
        obtain ⟨rfl, rfl⟩ := List.cons.inj heq
        rw [List.forall_mem_cons] at hbefore
        exact Or.inr ⟨hbefore.1, before, s', after, rfl, hbefore.2, hs'⟩
  · rintro (hs | ⟨hs, before, s', after, rfl, hbefore, hs'⟩)
    · exact ⟨[], s, others, rfl, List.forall_mem_nil _, hs⟩
    · exact ⟨s :: before, s', after, rfl, List.forall_mem_cons.mpr ⟨hs, hbefore⟩, hs'⟩

theorem firstFailure_append_iff {l l' : List Statement} {e : ε} :
    FirstFailure leaf (l ++ l') e ↔
      FirstFailure leaf l e ∨ (∀ s ∈ l, ∃ a, leaf s = .ok a) ∧ FirstFailure leaf l' e := by
  induction l with
  | nil => simp [firstFailure_nil_iff]
  | cons s l ih =>
      rw [List.cons_append, firstFailure_cons_iff, firstFailure_cons_iff, ih,
        List.forall_mem_cons]
      tauto

/-- Some statement fails if and only if one of them is the first to fail. -/
theorem exists_firstFailure_iff {l : List Statement} :
    (∃ e, FirstFailure leaf l e) ↔ ∃ s ∈ l, ∃ e, leaf s = .error e := by
  induction l with
  | nil => simp [firstFailure_nil_iff]
  | cons s l ih =>
      simp only [firstFailure_cons_iff, List.exists_mem_cons_iff, ← ih]
      cases hs : leaf s with
      | ok a => simp
      | error e => simp

namespace Condition

variable {node : Connective → List α → α}

mutual

/-- A fold fails as the leftmost statement that fails does. -/
theorem foldM_eq_error_iff : ∀ {c : Condition} {e : ε},
    foldM leaf node c = .error e ↔ FirstFailure leaf c.statements e
  | .statement s, e => by
      simp [foldM, statements, firstFailure_cons_iff, firstFailure_nil_iff]
  | .compound k children, e => by
      rw [foldM, statements, ← foldAllM_eq_error_iff]
      exact map_eq_error_iff

theorem foldAllM_eq_error_iff : ∀ {cs : List Condition} {e : ε},
    foldAllM leaf node cs = .error e ↔ FirstFailure leaf (statementsOfAll cs) e
  | [], e => by
      simp [foldAllM, statementsOfAll, firstFailure_nil_iff, pure, Except.pure]
  | c :: cs, e => by
      have hfirst : (∃ a, foldM leaf node c = .ok a) ↔
          ∀ s ∈ c.statements, ∃ b, leaf s = .ok b := exists_foldM_iff
      rw [statementsOfAll, firstFailure_append_iff, ← foldM_eq_error_iff,
        ← foldAllM_eq_error_iff, ← hfirst, foldAllM]
      cases foldM leaf node c with
      | error e' => simp [bind, Except.bind]
      | ok a =>
          cases foldAllM leaf node cs with
          | error e' => simp [bind, Except.bind]
          | ok as => simp [bind, Except.bind, pure, Except.pure]

end

end Condition

end

namespace Statement

/-- A statement that asks for equality, possibly negated or in any letter case. -/
def IsEquality (s : Statement) : Prop :=
  s.comparator ∈ ["==".toList, "!=".toList, "=~".toList, "!~".toList]

/-- A statement whose comparator ignores letter case. -/
def IgnoresCase (s : Statement) : Prop :=
  s.comparator ∈ ["=~".toList, "!~".toList]

/-- What a statement asks for, if its comparator is one that queries are written with. -/
theorem test_of_canonical {s : Statement} (h : Grammar.Canonical s) :
    (s.IsEquality ∧ ∃ negated ignoringCase, s.test = .ok (.equality negated ignoringCase) ∧
        (ignoringCase = true ↔ s.IgnoresCase)) ∨
      ¬ s.IsEquality ∧ ∃ test, s.test = .ok (.order test) := by
  have hforms : ∀ form ∈ Grammar.canonicalForms,
      (form.1 ∈ ["==".toList, "!=".toList, "=~".toList, "!~".toList] ∧
        ∃ negated ∈ [true, false], ∃ ignoringCase ∈ [true, false],
          test ⟨[], form.2.1, [], form.2.2⟩ = .ok (.equality negated ignoringCase) ∧
            (ignoringCase = true ↔ form.1 ∈ ["=~".toList, "!~".toList])) ∨
      form.1 ∉ ["==".toList, "!=".toList, "=~".toList, "!~".toList] ∧
        ∃ order ∈ [OrderTest.greater, .greaterEquals, .less, .lessEquals],
          test ⟨[], form.2.1, [], form.2.2⟩ = .ok (.order order) := by
    decide
  rcases hforms _ h with ⟨hequality, negated, -, ignoringCase, -, htest⟩ | ⟨horder, test, -, htest⟩
  · exact Or.inl ⟨hequality, negated, ignoringCase, htest⟩
  · exact Or.inr ⟨horder, test, htest⟩

/-- A statement that no filter expresses: an equality of a special attribute, or with a
value, other than the one for no value, whose wildcards no match can express. -/
def Unfilterable (s : Statement) : Prop :=
  s.IsEquality ∧
    ((∃ special, SpecialAttr.ofText? s.property = some special) ∨
      SpecialAttr.isNull s.value = false ∧
        (Wildcard.Inside s.value ∨ Wildcard.sign ∈ s.value ∧ s.IgnoresCase))

/-- A statement that no search condition expresses: an equality of the reserved value for
no value. -/
def Unsearchable (s : Statement) : Prop :=
  s.IsEquality ∧ SpecialAttr.isNull s.property = true

end Statement

namespace Filter

theorem ofValue?_eq_none_iff (property : Text) {value : Text} {ignoringCase : Bool} :
    ofValue? property value ignoringCase = none ↔
      Wildcard.Inside value ∨ Wildcard.sign ∈ value ∧ ignoringCase = true := by
  have hsign : Wildcard.sign ∈ value ↔ Wildcard.classify value ≠ .exact := by
    rw [Ne, Wildcard.classify_eq_exact_iff, Classical.not_not]
  rw [← Wildcard.classify_eq_interior_iff, hsign]
  cases hplace : Wildcard.classify value <;> cases ignoringCase <;> simp [ofValue?, hplace]

/-- An equality has no filter because of its property, or else because of its value. -/
theorem ofEquality_eq_error_iff {s : Statement} {negated ignoringCase : Bool} {e : Error} :
    ofEquality s negated ignoringCase = .error e ↔
      (∃ special, SpecialAttr.ofText? s.property = some special ∧
        e = .unsupportedSpecialAttr special.name) ∨
      SpecialAttr.ofText? s.property = none ∧ SpecialAttr.isNull s.value = false ∧
        (Wildcard.Inside s.value ∨ Wildcard.sign ∈ s.value ∧ ignoringCase = true) ∧
        e = .unsupportedValue s.value := by
  rw [← ofValue?_eq_none_iff s.property]
  unfold ofEquality
  cases hspecial : SpecialAttr.ofText? s.property with
  | some special => simpa using eq_comm
  | none =>
      cases hnull : SpecialAttr.isNull s.value with
      | true => cases negated <;> simp
      | false =>
          cases hvalue : ofValue? s.property s.value ignoringCase with
          | some f => simp
          | none => simpa using eq_comm

/-- Of the statements that queries can hold, only equalities have no filter. -/
theorem ofStatement_eq_error_iff {s : Statement} (h : Grammar.Canonical s) {e : Error} :
    ofStatement s = .error e ↔ s.IsEquality ∧
      ((∃ special, SpecialAttr.ofText? s.property = some special ∧
        e = .unsupportedSpecialAttr special.name) ∨
      SpecialAttr.ofText? s.property = none ∧ SpecialAttr.isNull s.value = false ∧
        (Wildcard.Inside s.value ∨ Wildcard.sign ∈ s.value ∧ s.IgnoresCase) ∧
        e = .unsupportedValue s.value) := by
  unfold ofStatement
  rcases Statement.test_of_canonical h with
    ⟨hequality, negated, ignoringCase, htest, hcase⟩ | ⟨horder, test, htest⟩
  · simp only [htest, hequality, true_and, ofEquality_eq_error_iff, hcase]
  · simp [htest, horder]

theorem exists_ofStatement_eq_error_iff {s : Statement} (h : Grammar.Canonical s) :
    (∃ e, ofStatement s = .error e) ↔ s.Unfilterable := by
  simp only [ofStatement_eq_error_iff h, Statement.Unfilterable]
  constructor
  · rintro ⟨e, hequality, ⟨special, hspecial, -⟩ | ⟨-, hnull, hsigns, -⟩⟩
    · exact ⟨hequality, Or.inl ⟨special, hspecial⟩⟩
    · exact ⟨hequality, Or.inr ⟨hnull, hsigns⟩⟩
  · rintro ⟨hequality, ⟨special, hspecial⟩ | ⟨hnull, hsigns⟩⟩
    · exact ⟨_, hequality, Or.inl ⟨special, hspecial, rfl⟩⟩
    · cases hspecial : SpecialAttr.ofText? s.property with
      | some special => exact ⟨_, hequality, Or.inl ⟨special, rfl, rfl⟩⟩
      | none => exact ⟨_, hequality, Or.inr ⟨rfl, hnull, hsigns, rfl⟩⟩

theorem ofCondition_eq_error_iff {c : Condition} {e : Error} :
    ofCondition c = .error e ↔ FirstFailure ofStatement c.statements e := by
  have hleaf : FirstFailure (fun s => (ofStatement s).map Prod.fst) c.statements e ↔
      FirstFailure ofStatement c.statements e := by
    simp only [FirstFailure, map_eq_error_iff, map_eq_ok_iff]
    simp
  have hfold : (collect c []).1 = .error e ↔
      FirstFailure (fun s => (ofStatement s).map Prod.fst) c.statements e := by
    rw [collect_eq]
    exact Condition.foldM_eq_error_iff
  rw [← hleaf, ← hfold, ofCondition]
  rcases collect c [] with ⟨_ | f, names⟩ <;> simp

end Filter

namespace SearchCond

theorem ofSpecial_eq_error_iff {realm? : Option Text} {special : SpecialAttr} {value : Text}
    {e : Error} :
    ofSpecial realm? special value = .error e ↔
      special = .null ∧ e = .unsupportedSpecialAttr SpecialAttr.null.name := by
  cases special <;> simp [ofSpecial, eq_comm]

/-- Of the statements that queries can hold, only an equality of the reserved value for no
value has no search condition. -/
theorem ofStatement_eq_error_iff {target : Target} {s : Statement} (h : Grammar.Canonical s)
    {e : Error} :
    ofStatement target s = .error e ↔
      s.Unsearchable ∧ e = .unsupportedSpecialAttr SpecialAttr.null.name := by
  unfold ofStatement Statement.Unsearchable
  rcases Statement.test_of_canonical h with
    ⟨hequality, negated, ignoringCase, htest, -⟩ | ⟨horder, test, htest⟩
  · simp only [htest, hequality, true_and, ofEquality, SpecialAttr.isNull, beq_iff_eq]
    cases hspecial : SpecialAttr.ofText? s.property with
    | some special => simp [map_eq_error_iff, ofSpecial_eq_error_iff]
    | none =>
        simp only [reduceCtorEq, false_and, iff_false]
        split <;> simp
  · simp [htest, horder]

theorem ofCondition_eq_error_iff {target : Target} {c : Condition} {e : Error} :
    ofCondition target c = .error e ↔ FirstFailure (ofStatement target) c.statements e :=
  Condition.foldM_eq_error_iff

end SearchCond

namespace Error

/-- A failure that wraps no other, and that is no unknown comparison. -/
structure Elementary (e : Error) : Prop where
  unwrapped : ∀ query cause, e ≠ .searchParameters query cause
  known : ∀ comparator, e ≠ .unsupportedCondition comparator

theorem Elementary.wrap {e : Error} (h : e.Elementary) (query : Text) :
    e.wrap query = .searchParameters query e ∧ (e.wrap query).rootCause = e := by
  rw [rootCause_wrap]
  cases e with
  | searchParameters inner cause => exact absurd rfl (h.unwrapped inner cause)
  | _ => exact ⟨rfl, rfl⟩

theorem elementary_of_fault {coding : ValueCoding} {e : Error} (h : Condition.Fault coding e) :
    e.Elementary := by
  rcases h with ⟨fault, rfl⟩ | ⟨-, fault, rfl⟩
  · exact ⟨fun _ _ => Error.noConfusion, fun _ => Error.noConfusion⟩
  · exact ⟨fun _ _ => Error.noConfusion, fun _ => Error.noConfusion⟩

end Error

theorem wrapErrors_eq_error_iff {α : Type} {query : Text} {x : Except Error α} {e : Error} :
    wrapErrors query x = .error e ↔ ∃ cause, x = .error cause ∧ e = cause.wrap query := by
  cases x <;> simp [wrapErrors, eq_comm]

/-- Why a conversion fails: the failure of the parse, or of the leftmost statement of the
condition that fails. -/
def CausedBy {α : Type} (parsed : Except Error Condition) (leaf : Statement → Except Error α)
    (cause : Error) : Prop :=
  parsed = .error cause ∨ ∃ c, parsed = .ok c ∧ FirstFailure leaf c.statements cause

/-- How a conversion fails: it tells the query and a cause, which wraps no other failure, and
what is at the root is no unknown comparison. -/
def FailsWith {α : Type} (query : Text) (parsed : Except Error Condition)
    (leaf : Statement → Except Error α) (e : Error) : Prop :=
  ∃ cause, e = .searchParameters query cause ∧ CausedBy parsed leaf cause ∧
    (∀ inner other, cause ≠ .searchParameters inner other) ∧
    ∀ comparator, e.rootCause ≠ .unsupportedCondition comparator

section

variable {α : Type} {query : Text} {coding : ValueCoding} {leaf : Statement → Except Error α}

theorem canonical_of_parse {c : Condition} (h : Condition.parse coding query = .ok c) :
    ∀ s ∈ c.statements, Grammar.Canonical s := by
  intro s hs
  obtain ⟨u, r, hr, rfl⟩ := Condition.stmt_of_parse h s hs
  exact hr.cut.canonical

/-- A failure caused by a parse or a statement is told as it is. -/
theorem failsWith_of_causedBy
    (hleaf : ∀ s e, Grammar.Canonical s → leaf s = .error e → e.Elementary) {cause : Error}
    (h : CausedBy (Condition.parse coding query) leaf cause) :
    FailsWith query (Condition.parse coding query) leaf (cause.wrap query) := by
  have helementary : cause.Elementary := by
    rcases h with hparse | ⟨c, hparse, before, s, after, hstatements, -, hs⟩
    · exact Error.elementary_of_fault (Condition.fault_of_parse hparse)
    · exact hleaf s cause (canonical_of_parse hparse s (by simp [hstatements])) hs
  obtain ⟨hwrap, hroot⟩ := helementary.wrap query
  refine ⟨cause, hwrap, h, helementary.unwrapped, ?_⟩
  rw [hroot]
  exact helementary.known

/-- Some cause makes a conversion fail if the parse fails or a statement is refused. -/
theorem exists_causedBy_iff {P : Statement → Prop}
    (hleaf : ∀ s, Grammar.Canonical s → ((∃ e, leaf s = .error e) ↔ P s)) :
    (∃ cause, CausedBy (Condition.parse coding query) leaf cause) ↔
      (∃ e, Condition.parse coding query = .error e) ∨
        ∃ c, Condition.parse coding query = .ok c ∧ ∃ s ∈ c.statements, P s := by
  simp only [CausedBy, exists_or]
  apply or_congr_right
  rw [exists_comm]
  apply exists_congr
  intro c
  rw [exists_and_left, exists_firstFailure_iff]
  apply and_congr_right
  intro hparse
  apply exists_congr
  intro s
  apply and_congr_right
  intro hs
  exact hleaf s (canonical_of_parse hparse s hs)

end

namespace Filter

theorem ofParsed_eq_error_iff {query : Text} {parsed : Except Error Condition} {e : Error} :
    ofParsed query parsed = .error e ↔
      ∃ cause, CausedBy parsed ofStatement cause ∧ e = cause.wrap query := by
  rw [ofParsed, wrapErrors_eq_error_iff]
  apply exists_congr
  intro cause
  rw [bind_eq_error_iff, CausedBy]
  simp only [bind_eq_error_iff, ofCondition_eq_error_iff]
  simp [pure, Except.pure]

theorem elementary_of_ofStatement {s : Statement} {e : Error}
    (h : Grammar.Canonical s) (hs : ofStatement s = .error e) : e.Elementary := by
  obtain ⟨-, ⟨special, -, rfl⟩ | ⟨-, -, -, rfl⟩⟩ := (ofStatement_eq_error_iff h).mp hs
  · exact ⟨fun _ _ => Error.noConfusion, fun _ => Error.noConfusion⟩
  · exact ⟨fun _ _ => Error.noConfusion, fun _ => Error.noConfusion⟩

end Filter

namespace SearchCond

theorem ofParsed_eq_error_iff {target : Target} {query : Text} {parsed : Except Error Condition}
    {e : Error} :
    ofParsed target query parsed = .error e ↔
      ∃ cause, CausedBy parsed (ofStatement target) cause ∧ e = cause.wrap query := by
  rw [ofParsed, wrapErrors_eq_error_iff]
  apply exists_congr
  intro cause
  rw [bind_eq_error_iff, CausedBy]
  simp only [ofCondition_eq_error_iff]

theorem elementary_of_ofStatement {target : Target} {s : Statement} {e : Error}
    (h : Grammar.Canonical s) (hs : ofStatement target s = .error e) : e.Elementary := by
  obtain ⟨-, rfl⟩ := (ofStatement_eq_error_iff h).mp hs
  exact ⟨fun _ _ => Error.noConfusion, fun _ => Error.noConfusion⟩

end SearchCond

/-- Conversions fail exactly if the query cannot be read or holds a statement that the target
cannot express; and then with the query and the failure of the parse, or that of the leftmost
statement that fails. -/
theorem ofQuery_fails_iff (query : Text) :
    ((∃ e, Filter.ofQuery query = .error e) ↔
      (∃ e, Condition.parse .plain query = .error e) ∨
        ∃ c, Condition.parse .plain query = .ok c ∧ ∃ s ∈ c.statements, s.Unfilterable) ∧
    (∀ target, (∃ e, SearchCond.ofQuery target query = .error e) ↔
      (∃ e, Condition.parse .formEncoded query = .error e) ∨
        ∃ c, Condition.parse .formEncoded query = .ok c ∧ ∃ s ∈ c.statements, s.Unsearchable) ∧
    (∀ e, Filter.ofQuery query = .error e →
      FailsWith query (Condition.parse .plain query) Filter.ofStatement e) ∧
    ∀ target e, SearchCond.ofQuery target query = .error e →
      FailsWith query (Condition.parse .formEncoded query) (SearchCond.ofStatement target) e := by
  refine ⟨?_, fun target => ?_, fun e h => ?_, fun target e h => ?_⟩
  · rw [← exists_causedBy_iff fun s => Filter.exists_ofStatement_eq_error_iff]
    simp only [Filter.ofQuery, Filter.ofParsed_eq_error_iff]
    rw [exists_comm]
    simp
  · have hleaf : ∀ s : Statement, Grammar.Canonical s →
          ((∃ e, SearchCond.ofStatement target s = .error e) ↔ s.Unsearchable) := by
      intro s hs
      simp [SearchCond.ofStatement_eq_error_iff hs]
    rw [← exists_causedBy_iff hleaf]
    simp only [SearchCond.ofQuery, SearchCond.ofParsed_eq_error_iff]
    rw [exists_comm]
    simp
  · obtain ⟨cause, hcause, rfl⟩ := Filter.ofParsed_eq_error_iff.mp h
    exact failsWith_of_causedBy (fun s e => Filter.elementary_of_ofStatement) hcause
  · obtain ⟨cause, hcause, rfl⟩ := SearchCond.ofParsed_eq_error_iff.mp h
    exact failsWith_of_causedBy (fun s e => SearchCond.elementary_of_ofStatement) hcause

end QueryBatch
