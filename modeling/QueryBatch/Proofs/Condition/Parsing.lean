/-
Reading queries.  The parser reads the queries that the grammar derives and no other
text, and gives the tree of the derivation with its values read.
-/
import QueryBatch.Proofs.Condition.Grammar
import QueryBatch.Proofs.Text.FormValues

namespace QueryBatch

namespace ValueCoding

/-- A value that can be read. -/
def Readable : ValueCoding → Text → Prop
  | .plain, _ => True
  | .formEncoded, raw => FormEncoding.Escaped raw

/-- What a value stands for: decoded if it is encoded, with its wildcards normalized. -/
def meaning : ValueCoding → Text → Text
  | .plain, raw => normalizeWildcards raw
  | .formEncoded, raw => normalizeWildcards (Utf8.decode (FormEncoding.bytes raw))

theorem read_eq_ok_iff {coding : ValueCoding} {raw value : Text} :
    coding.read raw = .ok value ↔ coding.Readable raw ∧ value = coding.meaning raw := by
  cases coding with
  | plain => simp [read, Readable, meaning, eq_comm]
  | formEncoded =>
      rw [read, map_eq_ok_iff]
      simp only [FormEncoding.decode_eq_ok_iff, Readable, meaning]
      constructor
      · rintro ⟨decoded, ⟨hescaped, rfl⟩, rfl⟩
        exact ⟨hescaped, rfl⟩
      · rintro ⟨hescaped, rfl⟩
        exact ⟨_, ⟨hescaped, rfl⟩, rfl⟩

end ValueCoding

namespace Condition

mutual

/-- A condition with other values in its statements. -/
def mapValues (f : Text → Text) : Condition → Condition
  | .statement s => .statement { s with value := f s.value }
  | .compound k children => .compound k (mapValuesOfAll f children)

/-- Conditions with other values in their statements. -/
def mapValuesOfAll (f : Text → Text) : List Condition → List Condition
  | [] => []
  | c :: cs => mapValues f c :: mapValuesOfAll f cs

end

mutual

theorem statements_mapValues (f : Text → Text) : ∀ c : Condition,
    (c.mapValues f).statements = c.statements.map fun s => { s with value := f s.value }
  | .statement _ => rfl
  | .compound _ children => statementsOfAll_mapValues f children

theorem statementsOfAll_mapValues (f : Text → Text) : ∀ cs : List Condition,
    statementsOfAll (mapValuesOfAll f cs) =
      (statementsOfAll cs).map fun s => { s with value := f s.value }
  | [] => rfl
  | c :: cs => by
      rw [mapValuesOfAll, statementsOfAll, statementsOfAll, List.map_append,
        statements_mapValues f c, statementsOfAll_mapValues f cs]

end

theorem mem_statementsOfAll_iff {cs : List Condition} {s : Statement} :
    s ∈ statementsOfAll cs ↔ ∃ c ∈ cs, s ∈ c.statements := by
  induction cs with
  | nil => simp [statementsOfAll]
  | cons c cs ih => simp [statementsOfAll, ih]

/-- A condition with values as written, and what it reads as. -/
def Reads (coding : ValueCoding) (raw c : Condition) : Prop :=
  (∀ s ∈ raw.statements, coding.Readable s.value) ∧ c = raw.mapValues coding.meaning

variable {coding : ValueCoding}

theorem reads_statement_iff {s : Statement} {c : Condition} :
    Reads coding (.statement s) c ↔
      coding.Readable s.value ∧ c = .statement { s with value := coding.meaning s.value } := by
  simp [Reads, statements, mapValues]

theorem forall₂_reads_iff {raws cs : List Condition} :
    List.Forall₂ (Reads coding) raws cs ↔
      (∀ s ∈ statementsOfAll raws, coding.Readable s.value) ∧
        cs = mapValuesOfAll coding.meaning raws := by
  induction raws generalizing cs with
  | nil => cases cs <;> simp [statementsOfAll, mapValuesOfAll]
  | cons raw raws ih =>
      cases cs with
      | nil => simp [mapValuesOfAll]
      | cons c cs =>
          rw [List.forall₂_cons, ih, Reads, statementsOfAll, mapValuesOfAll, List.cons.injEq,
            List.forall_mem_append]
          exact and_and_and_comm

theorem reads_compound_iff {k : Connective} {raws : List Condition} {c : Condition} :
    Reads coding (.compound k raws) c ↔
      ∃ cs, List.Forall₂ (Reads coding) raws cs ∧ c = .compound k cs := by
  simp only [forall₂_reads_iff, Reads, statements, mapValues]
  constructor
  · rintro ⟨hreadable, rfl⟩
    exact ⟨_, ⟨hreadable, rfl⟩, rfl⟩
  · rintro ⟨cs, ⟨hreadable, rfl⟩, rfl⟩
    exact ⟨hreadable, rfl⟩

/-- The tree of a chain reads as the chain of what its members read as. -/
theorem reads_chained_iff {k : Connective} {raws : List Condition} {raw c : Condition}
    (h : Grammar.Chained k raws raw) :
    Reads coding raw c ↔ ∃ cs, List.Forall₂ (Reads coding) raws cs ∧ c = chain k cs := by
  cases h with
  | single raw =>
      constructor
      · exact fun hread => ⟨[c], .cons hread .nil, rfl⟩
      · rintro ⟨cs, hall, rfl⟩
        cases hall with
        | cons hread hnil =>
            cases hnil
            exact hread
  | @many d e rest =>
      have hchain : ∀ cs, List.Forall₂ (Reads coding) (d :: e :: rest) cs →
          chain k cs = .compound k cs := by
        rintro _ (_ | ⟨-, _ | _⟩)
        rfl
      rw [reads_compound_iff]
      constructor
      · rintro ⟨cs, hall, rfl⟩
        exact ⟨cs, hall, (hchain cs hall).symm⟩
      · rintro ⟨cs, hall, rfl⟩
        exact ⟨cs, hall, hchain cs hall⟩

theorem parseStatement_eq_ok_iff {t : Text} {c : Condition} :
    parseStatement coding t = .ok c ↔
      ∃ s, Grammar.Cut t s ∧ Reads coding (.statement s) c := by
  simp only [Grammar.cut_iff, reads_statement_iff]
  unfold parseStatement
  cases hcut : Comparison.cut? t with
  | none => simp
  | some found =>
      simp only [Option.some.injEq, exists_eq_left']
      by_cases hproperty : found.property = []
      · simp [hproperty]
      · by_cases hraw : found.raw = []
        · simp [hraw, hproperty]
        · simp only [hproperty, hraw, if_false, map_eq_ok_iff, ValueCoding.read_eq_ok_iff]
          constructor
          · rintro ⟨value, ⟨hreadable, rfl⟩, rfl⟩
            exact ⟨_, ⟨hproperty, hraw, rfl⟩, hreadable, rfl⟩
          · rintro ⟨_, ⟨-, -, rfl⟩, hreadable, rfl⟩
            exact ⟨_, ⟨hreadable, rfl⟩, rfl⟩

theorem inside?_eq_ok_some_iff {t inner : Text} :
    inside? t = .ok (some inner) ↔ t = '(' :: inner ++ [')'] ∧ inner ≠ [] := by
  unfold inside?
  split
  · rename_i body
    rw [List.cons_append, List.cons.injEq, ← Text.dropLast?_eq_some_iff]
    cases Text.dropLast? ')' body with
    | none => simp
    | some rest =>
        cases rest with
        | nil =>
            simp only [reduceCtorEq, Option.some.injEq, ne_eq, false_iff, not_and, not_not]
            exact fun h => h.2.symm
        | cons x rest =>
            simp only [Except.ok.injEq, Option.some.injEq, true_and, ne_eq, iff_self_and]
            rintro rfl
            exact List.cons_ne_nil x rest
  · rename_i hopen
    simp only [Except.ok.injEq, reduceCtorEq, false_iff]
    rintro ⟨rfl, -⟩
    exact hopen _ rfl

theorem inside?_eq_ok_none_iff {t : Text} : inside? t = .ok none ↔ t.head? ≠ some '(' := by
  unfold inside?
  split
  · split <;> simp
  · rename_i hopen
    simp only [List.head?_eq_some_iff, ne_eq, true_iff]
    rintro ⟨body, rfl⟩
    exact hopen body rfl

/-- An operand is a query in brackets or else a statement. -/
theorem parseOperand_eq_ok_iff {t : Text} {c : Condition} :
    parseOperand coding t = .ok c ↔
      (∃ inner, t = '(' :: inner ++ [')'] ∧ inner ≠ [] ∧ parseOperands coding inner = .ok c) ∨
        (t.head? ≠ some '(' ∧ parseStatement coding t = .ok c) := by
  simp only [← and_assoc, ← inside?_eq_ok_some_iff, ← inside?_eq_ok_none_iff]
  unfold parseOperand
  cases hinside : inside? t with
  | error e => simp
  | ok inner? => cases inner? <;> simp

theorem checkOperands_eq_ok_iff {t : Text} :
    checkOperands t = .ok () ↔ Brackets.Matched t ∧ dangling? t = none := by
  rw [← Brackets.balanced_iff_matched, Brackets.Balanced]
  unfold checkOperands
  cases Brackets.depthAfter 0 0 t with
  | error position => simp
  | ok depth =>
      by_cases hdepth : depth = 0
      · cases dangling? t <;> simp [hdepth]
      · simp [hdepth]

theorem parseChain_eq_ok_iff {group : List Text} {c : Condition} :
    parseChain coding group = .ok c ↔
      ∃ cs, List.Forall₂ (fun t c => parseOperand coding t = .ok c) group cs ∧
        c = chain .and cs := by
  show (group.mapM (parseOperand coding)).map (chain .and) = .ok c ↔ _
  simp only [map_eq_ok_iff, mapM_eq_ok_iff, eq_comm (b := c)]

theorem parseOperands_eq_ok_iff {t : Text} {c : Condition} :
    parseOperands coding t = .ok c ↔
      (Brackets.Matched t ∧ dangling? t = none) ∧
        ∃ ds, List.Forall₂ (fun p d => parseChain coding (Brackets.split ';' p) = .ok d)
          (Brackets.split ',' t) ds ∧ c = chain .or ds := by
  rw [parseOperands_eq, bind_eq_ok_iff]
  show (∃ _, _ ∧ ((operands t).mapM (parseChain coding)).map (chain .or) = .ok c) ↔ _
  simp only [map_eq_ok_iff, mapM_eq_ok_iff, operands, List.forall₂_map_left_iff]
  rw [← checkOperands_eq_ok_iff]
  constructor
  · rintro ⟨_, hcheck, ds, hds, rfl⟩
    exact ⟨hcheck, ds, hds, rfl⟩
  · rintro ⟨hcheck, ds, hds, rfl⟩
    exact ⟨(), hcheck, ds, hds, rfl⟩

theorem pieces_whole {t : Text} (h : Brackets.Matched t) :
    ∀ p ∈ Brackets.split ',' t, ∀ o ∈ Brackets.split ';' p, Grammar.Whole o := by
  intro p hp o ho
  have hpieces := Brackets.pieces_split (by decide : ',' ≠ '(' ∧ ',' ≠ ')') h
  have hmatched := hpieces.matched p hp
  have hoperands := Brackets.pieces_split (by decide : ';' ≠ '(' ∧ ';' ≠ ')') hmatched
  exact ⟨hoperands.matched o ho, hoperands.undivided o ho,
    hoperands.undivided_of_undivided (by decide) (hpieces.undivided p hp) o ho⟩

/-- A text in one piece is an operand of the grammar if it parses as one; queries that
stand in it in brackets are taken care of. -/
theorem parseOperand_iff_of_inner {t : Text} {c : Condition} (hwhole : Grammar.Whole t)
    (hinner : ∀ inner, inner.length < t.length → ∀ c,
      parseOperands coding inner = .ok c ↔ ∃ raw, Grammar.Expr inner raw ∧ Reads coding raw c) :
    parseOperand coding t = .ok c ↔ ∃ raw, Grammar.Operand t raw ∧ Reads coding raw c := by
  rw [parseOperand_eq_ok_iff, parseStatement_eq_ok_iff]
  constructor
  · rintro (⟨inner, rfl, -, h⟩ | ⟨hopen, s, hcut, hread⟩)
    · have hlen : inner.length < ('(' :: inner ++ [')']).length := by
        rw [List.length_append, List.length_cons]
        omega
      obtain ⟨raw, ⟨ds, hds, hraw⟩, hread⟩ := (hinner inner hlen c).mp h
      exact ⟨raw, .group hds hraw, hread⟩
    · exact ⟨.statement s, .statement hwhole hopen hcut, hread⟩
  · rintro ⟨raw, hoperand, hread⟩
    cases hoperand with
    | statement _ hopen hcut => exact Or.inr ⟨hopen, _, hcut, hread⟩
    | @group inner ds _ hds hraw =>
        have hlen : inner.length < ('(' :: inner ++ [')']).length := by
          rw [List.length_append, List.length_cons]
          omega
        exact Or.inl ⟨inner, rfl, hds.closed.ne_nil,
          (hinner inner hlen c).mpr ⟨raw, ⟨ds, hds, hraw⟩, hread⟩⟩

/-- A chain of what members read as is what a chain of members reads as. -/
theorem exists_chain_iff {k : Connective} {R : Text → Condition → Prop} {ps : List Text}
    {c : Condition} (hne : ps ≠ []) :
    (∃ cs, List.Forall₂ (fun p c => ∃ raw, R p raw ∧ Reads coding raw c) ps cs ∧
        c = chain k cs) ↔
      ∃ raw, (∃ raws, List.Forall₂ R ps raws ∧ Grammar.Chained k raws raw) ∧
        Reads coding raw c := by
  simp only [forall₂_exists_iff]
  constructor
  · rintro ⟨cs, ⟨raws, hraws, hreads⟩, rfl⟩
    have hraws_ne : raws ≠ [] := by
      rintro rfl
      cases hraws
      exact hne rfl
    have hchained : Grammar.Chained k raws (chain k raws) :=
      Grammar.chained_iff.mpr ⟨hraws_ne, rfl⟩
    exact ⟨_, ⟨raws, hraws, hchained⟩, (reads_chained_iff hchained).mpr ⟨cs, hreads, rfl⟩⟩
  · rintro ⟨raw, ⟨raws, hraws, hchained⟩, hread⟩
    obtain ⟨cs, hreads, rfl⟩ := (reads_chained_iff hchained).mp hread
    exact ⟨cs, ⟨raws, hraws, hreads⟩, rfl⟩

theorem dangling?_eq_none {t : Text} (h : Grammar.Closed t) : dangling? t = none := by
  obtain ⟨c, hlast, hand, hor⟩ := h
  simp [dangling?, hlast, Connective.ofSymbol?, hand, hor]

/-- The parser reads what the grammar derives, each value as its coding says. -/
theorem parseOperands_iff {t : Text} {c : Condition} :
    parseOperands coding t = .ok c ↔ ∃ raw, Grammar.Expr t raw ∧ Reads coding raw c := by
  induction hn : t.length using Nat.strongRecOn generalizing t c with
  | ind n ih =>
      rw [parseOperands_eq_ok_iff]
      by_cases hmatched : Brackets.Matched t
      · have hoperand : ∀ p ∈ Brackets.split ',' t, ∀ o ∈ Brackets.split ';' p, ∀ c,
            parseOperand coding o = .ok c ↔ ∃ raw, Grammar.Operand o raw ∧ Reads coding raw c := by
          intro p hp o ho c
          have hlen : o.length ≤ n := by
            rw [← hn]
            exact Nat.le_trans (Brackets.length_le_of_mem_split ho)
              (Brackets.length_le_of_mem_split hp)
          exact parseOperand_iff_of_inner (pieces_whole hmatched p hp o ho)
            fun inner hinner c => ih inner.length (by omega) rfl
        have hconj : ∀ p ∈ Brackets.split ',' t, ∀ d,
            parseChain coding (Brackets.split ';' p) = .ok d ↔
              ∃ raw, Grammar.Conj p raw ∧ Reads coding raw d := by
          intro p hp d
          simp only [parseChain_eq_ok_iff, forall₂_congr (hoperand p hp), Grammar.Conj,
            Grammar.conjuncts_iff]
          exact exists_chain_iff (Brackets.splitFrom_ne_nil ';' 0 p)
        have hdangling : ∀ raw, Grammar.Expr t raw → dangling? t = none :=
          fun raw ⟨ds, hds, _⟩ => dangling?_eq_none hds.closed
        have hne : Brackets.split ',' t ≠ [] := Brackets.splitFrom_ne_nil ',' 0 t
        simp only [forall₂_congr hconj]
        rw [exists_chain_iff hne]
        simp only [← Grammar.disjuncts_iff]
        constructor
        · rintro ⟨-, raw, hraw, hread⟩
          exact ⟨raw, hraw, hread⟩
        · rintro ⟨raw, hraw, hread⟩
          exact ⟨⟨hmatched, hdangling raw hraw⟩, raw, hraw, hread⟩
      · constructor
        · rintro ⟨⟨h, -⟩, -⟩
          exact absurd h hmatched
        · rintro ⟨raw, ⟨ds, hds, -⟩, -⟩
          exact absurd hds.matched hmatched

/-- What can be at fault if a query is not read: the expression, or a value that is to be
decoded. -/
def Fault (coding : ValueCoding) (e : Error) : Prop :=
  (∃ fault, e = .expression fault) ∨ coding = .formEncoded ∧ ∃ fault, e = .encoding fault

theorem fault_of_read {raw : Text} {e : Error} (h : coding.read raw = .error e) :
    Fault coding e := by
  cases coding with
  | plain => cases h
  | formEncoded =>
      obtain ⟨position, -, he⟩ := FormEncoding.decode_eq_error_iff.mp (map_eq_error_iff.mp h)
      exact Or.inr ⟨rfl, _, he⟩

theorem fault_of_parseStatement {t : Text} {e : Error}
    (h : parseStatement coding t = .error e) : Fault coding e := by
  unfold parseStatement at h
  cases hcut : Comparison.cut? t with
  | none =>
      simp only [hcut, Except.error.injEq] at h
      exact Or.inl ⟨_, h.symm⟩
  | some found =>
      simp only [hcut] at h
      by_cases hproperty : found.property = []
      · simp only [hproperty, if_true, Except.error.injEq] at h
        exact Or.inl ⟨_, h.symm⟩
      · by_cases hraw : found.raw = []
        · simp only [hproperty, hraw, if_false, if_true, Except.error.injEq] at h
          exact Or.inl ⟨_, h.symm⟩
        · simp only [hproperty, hraw, if_false] at h
          exact fault_of_read (map_eq_error_iff.mp h)

theorem fault_of_inside? {t : Text} {e : Error} (h : inside? t = .error e) : Fault coding e := by
  unfold inside? at h
  split at h
  · split at h
    · exact Or.inl ⟨_, (Except.error.inj h).symm⟩
    · exact Or.inl ⟨_, (Except.error.inj h).symm⟩
    · simp at h
  · simp at h

theorem fault_of_checkOperands {t : Text} {e : Error} (h : checkOperands t = .error e) :
    Fault coding e := by
  unfold checkOperands at h
  split at h
  · exact Or.inl ⟨_, (Except.error.inj h).symm⟩
  · split at h
    · exact Or.inl ⟨_, (Except.error.inj h).symm⟩
    · split at h
      · exact Or.inl ⟨_, (Except.error.inj h).symm⟩
      · simp at h

theorem fault_of_parseOperands {t : Text} {e : Error}
    (h : parseOperands coding t = .error e) : Fault coding e := by
  induction hn : t.length using Nat.strongRecOn generalizing t with
  | ind n ih =>
      rw [parseOperands_eq] at h
      cases hcheck : checkOperands t with
      | error e' =>
          rw [hcheck] at h
          cases h
          exact fault_of_checkOperands hcheck
      | ok _ =>
          rw [hcheck] at h
          obtain ⟨group, hgroup, h⟩ := exists_of_mapM_eq_error (map_eq_error_iff.mp h)
          obtain ⟨operand, hoperand, h⟩ := exists_of_mapM_eq_error (map_eq_error_iff.mp h)
          have hlen := length_le_of_mem_operands hgroup hoperand
          unfold parseOperand at h
          cases hinside : inside? operand with
          | error e' =>
              simp only [hinside, Except.error.injEq] at h
              rw [← h]
              exact fault_of_inside? hinside
          | ok inner? =>
              cases inner? with
              | none =>
                  simp only [hinside] at h
                  exact fault_of_parseStatement h
              | some inner =>
                  simp only [hinside] at h
                  have hinner := length_of_inside? hinside
                  exact ih inner.length (by omega) h rfl

/-- Without values to decode, only the expression can be at fault. -/
theorem eq_expression_of_parseOperands {t : Text} {e : Error}
    (h : parseOperands .plain t = .error e) : ∃ fault, e = .expression fault := by
  rcases fault_of_parseOperands h with hexpression | ⟨hcoding, -⟩
  · exact hexpression
  · cases hcoding

/-- A query that is not read is at fault itself; values are only if they are decoded. -/
theorem fault_of_parse {t : Text} {e : Error} (h : parse coding t = .error e) :
    Fault coding e := by
  unfold parse at h
  by_cases hblank : t.allBlank = true
  · simp only [hblank, if_true, Except.error.injEq] at h
    exact Or.inl ⟨_, h.symm⟩
  · simp only [hblank, Bool.false_eq_true, if_false] at h
    exact fault_of_parseOperands h

theorem parse_eq_ok_iff {t : Text} {c : Condition} :
    parse coding t = .ok c ↔ ∃ raw, Grammar.Expr t raw ∧ Reads coding raw c := by
  unfold parse
  by_cases hblank : t.allBlank = true
  · simp only [hblank, if_true, reduceCtorEq, false_iff]
    rintro ⟨raw, ⟨ds, hds, -⟩, -⟩
    simp [hds.not_allBlank] at hblank
  · simp only [hblank, Bool.false_eq_true, if_false]
    exact parseOperands_iff

/-- A query of one statement is read as the statement. -/
theorem parse_of_stmt {t : Text} {s : Statement} (h : Grammar.Stmt t s)
    (hreadable : coding.Readable s.value) :
    parse coding t = .ok (.statement { s with value := coding.meaning s.value }) :=
  parse_eq_ok_iff.mpr ⟨.statement s, ⟨_, .last (.last h.operand) (.single _), .single _⟩,
    reads_statement_iff.mpr ⟨hreadable, rfl⟩⟩

/-- The statements of a tree are the statements of its query. -/
theorem inherited_statements : Grammar.Inherited fun c : Condition =>
    ∀ s ∈ c.statements, ∃ t, Grammar.Stmt t s where
  statement := by
    intro t s h
    simpa [statements] using ⟨t, h⟩
  compound := by
    intro k cs _ hcs s hs
    obtain ⟨c, hc, hmem⟩ := mem_statementsOfAll_iff.mp hs
    exact hcs c hc s hmem

/-- Every statement of a condition that was read stands in the query, its value as written. -/
theorem stmt_of_parse {t : Text} {c : Condition} (h : parse coding t = .ok c) :
    ∀ s ∈ c.statements, ∃ u r, Grammar.Stmt u r ∧
      s = { r with value := coding.meaning r.value } := by
  obtain ⟨raw, hraw, -, rfl⟩ := parse_eq_ok_iff.mp h
  intro s hs
  rw [statements_mapValues] at hs
  obtain ⟨r, hr, rfl⟩ := List.mem_map.mp hs
  obtain ⟨u, hu⟩ := inherited_statements.expr hraw r hr
  exact ⟨u, r, hu, rfl⟩

/-- A query parses if and only if the grammar derives it, and then to the one tree of
its derivation with each value normalized; every failure is a fault of the expression.
If values are to be decoded, the percent signs of all values have to start escapes, and
the tree is the same with each value decoded before it is normalized. -/
theorem parse_iff_derives (t : Text) :
    (∀ c, parse .plain t = .ok c ↔
      ∃ raw, Grammar.Expr t raw ∧ c = raw.mapValues normalizeWildcards) ∧
    (∀ e, parse .plain t = .error e → ∃ fault, e = .expression fault) ∧
    (∀ c, parse .formEncoded t = .ok c ↔
      ∃ raw, Grammar.Expr t raw ∧
        (∀ s ∈ raw.statements, FormEncoding.Escaped s.value) ∧
        c = raw.mapValues fun value =>
          normalizeWildcards (Utf8.decode (FormEncoding.bytes value))) ∧
    ∀ raw raw', Grammar.Expr t raw → Grammar.Expr t raw' → raw = raw' := by
  refine ⟨fun c => ?_, fun e h => ?_, fun c => parse_eq_ok_iff,
    fun raw raw' h h' => h.unique h'⟩
  · rw [parse_eq_ok_iff]
    simp only [Reads, ValueCoding.Readable, implies_true, true_and]
    rfl
  · unfold parse at h
    by_cases hblank : t.allBlank = true
    · simp only [hblank, if_true, Except.error.injEq] at h
      exact ⟨_, h.symm⟩
    · simp only [hblank, Bool.false_eq_true, if_false] at h
      exact eq_expression_of_parseOperands h

end Condition

end QueryBatch
