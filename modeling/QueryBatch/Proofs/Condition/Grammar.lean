/-
The grammar of queries, and the parser as its reader: a query is read exactly if the
grammar derives it, and its condition is the tree of the derivation.

  expr    := conj (',' conj)*
  conj    := operand (';' operand)*
  operand := '(' expr ')' | stmt
-/
import QueryBatch.Condition.Parser
import QueryBatch.Proofs.Condition.Comparator
import QueryBatch.Proofs.Condition.Matched
import QueryBatch.Proofs.Failure
import QueryBatch.Proofs.Text.Escapes

namespace QueryBatch

namespace Grammar

open Brackets (Matched Undivided)

/-- The comparators with the operator and the extension of a statement that has them. -/
def comparatorForms : List (Text × Operator × Option Text) :=
  [("==".toList, .equals, none), ("!=".toList, .notEquals, none),
    ("=~".toList, .custom, some "=~".toList), ("!~".toList, .custom, some "!~".toList),
    ("=gt=".toList, .greater, none), ("=ge=".toList, .greaterEquals, none),
    ("=lt=".toList, .less, none), ("=le=".toList, .lessEquals, none),
    (">=".toList, .greaterEquals, none), ("<=".toList, .lessEquals, none),
    (">".toList, .greater, none), ("<".toList, .less, none)]

/-- A text that is cut into a property and a raw value at the leftmost comparator, and
there at the longest. -/
def Cut (t : Text) (s : Statement) : Prop :=
  ∃ comparator, (comparator, s.operator, s.extension?) ∈ comparatorForms ∧
    t = s.property ++ comparator ++ s.value ∧ s.property ≠ [] ∧ s.value ≠ [] ∧
    (∀ before form after, form ∈ comparatorForms → t = before ++ form.1 ++ after →
      s.property.length ≤ before.length) ∧
    ∀ form after, form ∈ comparatorForms → t = s.property ++ form.1 ++ after →
      form.1.length ≤ comparator.length

/-- What brackets and separators leave in one piece: the brackets match, and no
separator stands outside them. -/
structure Whole (t : Text) : Prop where
  matched : Matched t
  andUndivided : Undivided ';' t
  orUndivided : Undivided ',' t

/-- The tree of a chain: a chain of one is its only member. -/
inductive Chained (k : Connective) : List Condition → Condition → Prop
  | single (c : Condition) : Chained k [c] c
  | many {c d : Condition} {cs : List Condition} :
      Chained k (c :: d :: cs) (.compound k (c :: d :: cs))

mutual

/-- `operand := '(' expr ')' | stmt`, with the tree of its derivation.  Values stand in
the tree as they are written. -/
inductive Operand : Text → Condition → Prop
  | statement {t : Text} {s : Statement} (hwhole : Whole t) (hopen : t.head? ≠ some '(')
      (hcut : Cut t s) : Operand t (.statement s)
  | group {t : Text} {ds : List Condition} {c : Condition} (hds : Disjuncts t ds)
      (hc : Chained .or ds c) : Operand ('(' :: t ++ [')']) c

/-- `operand (';' operand)*`. -/
inductive Conjuncts : Text → List Condition → Prop
  | last {t : Text} {c : Condition} (hc : Operand t c) : Conjuncts t [c]
  | more {t u : Text} {c : Condition} {cs : List Condition} (hc : Operand t c)
      (hcs : Conjuncts u cs) : Conjuncts (t ++ ';' :: u) (c :: cs)

/-- `conj (',' conj)*`. -/
inductive Disjuncts : Text → List Condition → Prop
  | last {t : Text} {cs : List Condition} {d : Condition} (hcs : Conjuncts t cs)
      (hd : Chained .and cs d) : Disjuncts t [d]
  | more {t u : Text} {cs ds : List Condition} {d : Condition} (hcs : Conjuncts t cs)
      (hd : Chained .and cs d) (hds : Disjuncts u ds) : Disjuncts (t ++ ',' :: u) (d :: ds)

end

/-- A query with the tree of its derivation. -/
def Expr (t : Text) (c : Condition) : Prop :=
  ∃ ds, Disjuncts t ds ∧ Chained .or ds c

theorem comparatorForms_eq :
    comparatorForms = comparators.map fun (c, operator) =>
      (c, operator, if operator = .custom then some c else none) := by
  decide

theorem mem_comparatorForms_iff {c : Text} {operator : Operator} {extension? : Option Text} :
    (c, operator, extension?) ∈ comparatorForms ↔
      (c, operator) ∈ comparators ∧
        extension? = if operator = .custom then some c else none := by
  rw [comparatorForms_eq, List.mem_map]
  constructor
  · rintro ⟨⟨c', operator'⟩, hmem, heq⟩
    cases heq
    exact ⟨hmem, rfl⟩
  · rintro ⟨hmem, rfl⟩
    exact ⟨(c, operator), hmem, rfl⟩

theorem isComparator_iff {c : Text} : IsComparator c ↔ ∃ form ∈ comparatorForms, form.1 = c := by
  constructor
  · rintro ⟨operator, hmem⟩
    exact ⟨_, mem_comparatorForms_iff.mpr ⟨hmem, rfl⟩, rfl⟩
  · rintro ⟨⟨c', operator, extension?⟩, hmem, rfl⟩
    exact ⟨operator, (mem_comparatorForms_iff.mp hmem).1⟩

/-- The statement that a cut comparison makes, with its value as written. -/
def statementOf (found : Comparison) : Statement :=
  { property := found.property
    operator := found.operator
    value := found.raw
    extension? := if found.operator = .custom then some found.comparator else none }

theorem cut_iff {t : Text} {s : Statement} :
    Cut t s ↔ ∃ found, Comparison.cut? t = some found ∧ found.property ≠ [] ∧ found.raw ≠ [] ∧
      s = statementOf found := by
  constructor
  · rintro ⟨comparator, hform, heq, hproperty, hvalue, hleft, hlong⟩
    obtain ⟨hmem, hextension⟩ := mem_comparatorForms_iff.mp hform
    refine ⟨⟨s.property, comparator, s.operator, s.value⟩, Comparison.cut?_eq_some_iff.mpr ?_,
      hproperty, hvalue, by cases s; simp_all [statementOf]⟩
    refine ⟨heq, hmem, fun before c after hc hcomparator => ?_, fun c after hc hcomparator => ?_⟩
    · obtain ⟨form, hform, rfl⟩ := isComparator_iff.mp hcomparator
      exact hleft before form after hform hc
    · obtain ⟨form, hform, rfl⟩ := isComparator_iff.mp hcomparator
      exact hlong form after hform hc
  · rintro ⟨found, hfound, hproperty, hraw, rfl⟩
    have h := Comparison.cut?_eq_some_iff.mp hfound
    refine ⟨found.comparator, mem_comparatorForms_iff.mpr ⟨h.known, rfl⟩, h.joined, hproperty,
      hraw, fun before form after hform heq => ?_, fun form after hform heq => ?_⟩
    · exact h.leftmost before form.1 after heq (isComparator_iff.mpr ⟨form, hform, rfl⟩)
    · exact h.longest form.1 after heq (isComparator_iff.mpr ⟨form, hform, rfl⟩)

theorem Cut.unique {t : Text} {s s' : Statement} (h : Cut t s) (h' : Cut t s') : s = s' := by
  obtain ⟨found, hfound, -, -, rfl⟩ := cut_iff.mp h
  obtain ⟨found', hfound', -, -, rfl⟩ := cut_iff.mp h'
  rw [hfound] at hfound'
  rw [Option.some.inj hfound']

theorem chained_iff {k : Connective} {cs : List Condition} {c : Condition} :
    Chained k cs c ↔ cs ≠ [] ∧ c = Condition.chain k cs := by
  constructor
  · rintro (_ | _) <;> simp [Condition.chain]
  · rintro ⟨hne, rfl⟩
    match cs with
    | [c] => exact .single c
    | c :: d :: cs => exact .many

/-- A text in brackets is in one piece, and so is the text of a statement. -/
theorem whole_brackets {t : Text} (h : Matched t) : Whole ('(' :: t ++ [')']) := by
  have hdiv : ∀ separator, separator ≠ ')' → separator ≠ '(' →
      Undivided separator ('(' :: t ++ [')']) := by
    intro separator hclose hopen before after heq hbefore
    cases before with
    | nil =>
        simp only [List.nil_append, List.cons_append, List.cons.injEq] at heq
        exact hopen heq.1.symm
    | cons c before =>
        simp only [List.cons_append, List.cons.injEq] at heq
        obtain ⟨rfl, heq⟩ := heq
        rcases List.eq_nil_or_concat after with rfl | ⟨after, x, rfl⟩
        · exact hclose (List.cons.inj (List.append_inj' heq rfl).2).1.symm
        · rw [List.concat_eq_append, ← List.cons_append, ← List.append_assoc] at heq
          rw [(List.append_inj' heq rfl).1] at h
          exact Brackets.not_matched_open h hbefore
  exact ⟨.group h .nil, hdiv ';' (by decide) (by decide), hdiv ',' (by decide) (by decide)⟩

mutual

theorem Operand.whole : ∀ {t : Text} {c : Condition}, Operand t c → Whole t
  | _, _, .statement hwhole _ _ => hwhole
  | _, _, .group hds _ => whole_brackets hds.matched

theorem Conjuncts.matched :
    ∀ {t : Text} {cs : List Condition}, Conjuncts t cs → Matched t ∧ Undivided ',' t
  | _, _, .last hc => ⟨hc.whole.matched, hc.whole.orUndivided⟩
  | _, _, .more hc hcs =>
      ⟨hc.whole.matched.append_cons (by decide) hcs.matched.1,
        hc.whole.orUndivided.append_cons (by decide) (by decide) hc.whole.matched hcs.matched.2⟩

theorem Disjuncts.matched : ∀ {t : Text} {ds : List Condition}, Disjuncts t ds → Matched t
  | _, _, .last hcs _ => hcs.matched.1
  | _, _, .more hcs _ hds => hcs.matched.1.append_cons (by decide) hds.matched

end

/-- A text that does not end in a separator. -/
def Closed (t : Text) : Prop :=
  ∃ c, t.getLast? = some c ∧ c ≠ ';' ∧ c ≠ ','

theorem Closed.ne_nil {t : Text} (h : Closed t) : t ≠ [] := by
  obtain ⟨c, hlast, -⟩ := h
  rintro rfl
  simp at hlast

theorem Closed.append_cons {t u : Text} {separator : Char} (h : Closed u) :
    Closed (t ++ separator :: u) := by
  obtain ⟨c, hlast, hc⟩ := h
  exact ⟨c, by simp [List.getLast?_append, List.getLast?_cons, hlast], hc⟩

theorem Whole.closed {t : Text} (h : Whole t) (hne : t ≠ []) : Closed t := by
  obtain ⟨before, c, rfl⟩ := List.eq_nil_or_concat t |>.resolve_left hne
  rw [List.concat_eq_append] at h ⊢
  refine ⟨c, by simp, ?_, ?_⟩
  · rintro rfl
    exact h.andUndivided before [] rfl (h.matched.of_concat (by decide))
  · rintro rfl
    exact h.orUndivided before [] rfl (h.matched.of_concat (by decide))

theorem Operand.ne_nil {t : Text} {c : Condition} (h : Operand t c) : t ≠ [] := by
  cases h with
  | statement _ _ hcut =>
      obtain ⟨comparator, -, rfl, hproperty, -⟩ := hcut
      simp [hproperty]
  | group _ _ => simp

theorem Conjuncts.closed : ∀ {t : Text} {cs : List Condition}, Conjuncts t cs → Closed t
  | _, _, .last hc => hc.whole.closed hc.ne_nil
  | _, _, .more _ hcs => hcs.closed.append_cons

theorem Disjuncts.closed : ∀ {t : Text} {ds : List Condition}, Disjuncts t ds → Closed t
  | _, _, .last hcs _ => hcs.closed
  | _, _, .more _ _ hds => hds.closed.append_cons

/-- A comparator or a bracket stands in every operand, so it is not blank. -/
theorem Operand.not_allBlank {t : Text} {c : Condition} (h : Operand t c) :
    Text.allBlank t = false := by
  cases h with
  | statement _ _ hcut =>
      obtain ⟨comparator, hform, rfl, -⟩ := hcut
      have hall : ∀ form ∈ comparatorForms, Text.allBlank form.1 = false := by decide
      obtain ⟨c, hc, hblank⟩ := List.all_eq_false.mp (hall _ hform)
      exact List.all_eq_false.mpr ⟨c, by simp [hc], hblank⟩
  | group _ _ => simp [Text.allBlank, Text.isBlank]

theorem Conjuncts.not_allBlank {t : Text} {cs : List Condition} (h : Conjuncts t cs) :
    Text.allBlank t = false := by
  cases h with
  | last hc => exact hc.not_allBlank
  | more hc _ => simp [Text.allBlank, Text.isBlank]

theorem Disjuncts.not_allBlank {t : Text} {ds : List Condition} (h : Disjuncts t ds) :
    Text.allBlank t = false := by
  cases h with
  | last hcs _ => exact hcs.not_allBlank
  | more _ _ _ => simp [Text.allBlank, Text.isBlank]

theorem Conjuncts.exists_pieces : ∀ {t : Text} {cs : List Condition}, Conjuncts t cs →
    ∃ ps, Brackets.Pieces ';' t ps ∧ List.Forall₂ Operand ps cs
  | t, _, .last hc => ⟨[t], .last hc.whole.matched hc.whole.andUndivided, .cons hc .nil⟩
  | _, _, .more hc hcs => by
      obtain ⟨ps, hps, hall⟩ := hcs.exists_pieces
      exact ⟨_, .more hc.whole.matched hc.whole.andUndivided hps, .cons hc hall⟩

/-- What holds of one piece, and goes from the pieces after a separator to the whole,
holds of a text that is split at the separator. -/
theorem joined_of_forall₂ {separator : Char} {R : Text → Condition → Prop}
    {P : Text → List Condition → Prop} (hlast : ∀ {p c}, R p c → P p [c])
    (hmore : ∀ {p c u cs}, R p c → P u cs → P (p ++ separator :: u) (c :: cs)) {t : Text}
    {cs : List Condition} (h : List.Forall₂ R (Brackets.split separator t) cs) : P t cs := by
  have hjoin : ∀ ps cs, ps ≠ [] → List.Forall₂ R ps cs →
      P ([separator].intercalate ps) cs := by
    intro ps cs hne hall
    induction hall with
    | nil => exact absurd rfl hne
    | @cons p c ps cs hp hps ih =>
        cases ps with
        | nil =>
            cases hps
            rw [List.intercalate_singleton]
            exact hlast hp
        | cons q ps =>
            rw [List.intercalate_cons_cons, List.append_assoc, List.singleton_append]
            exact hmore hp (ih (by simp))
  rw [← Brackets.intercalate_split separator t]
  exact hjoin _ cs (Brackets.splitFrom_ne_nil separator 0 t) h

/-- A conjunction is made of the operands between its separators. -/
theorem conjuncts_iff {t : Text} {cs : List Condition} :
    Conjuncts t cs ↔ List.Forall₂ Operand (Brackets.split ';' t) cs := by
  constructor
  · intro h
    obtain ⟨ps, hps, hall⟩ := h.exists_pieces
    rwa [hps.split_eq]
  · exact joined_of_forall₂ .last .more

/-- One of the alternatives of a query. -/
def Conj (t : Text) (c : Condition) : Prop :=
  ∃ cs, Conjuncts t cs ∧ Chained .and cs c

theorem Disjuncts.exists_pieces : ∀ {t : Text} {ds : List Condition}, Disjuncts t ds →
    ∃ ps, Brackets.Pieces ',' t ps ∧ List.Forall₂ Conj ps ds
  | t, _, .last hcs hd => ⟨[t], .last hcs.matched.1 hcs.matched.2, .cons ⟨_, hcs, hd⟩ .nil⟩
  | _, _, .more hcs hd hds => by
      obtain ⟨ps, hps, hall⟩ := hds.exists_pieces
      exact ⟨_, .more hcs.matched.1 hcs.matched.2 hps, .cons ⟨_, hcs, hd⟩ hall⟩

/-- A query is made of the conjunctions between its separators. -/
theorem disjuncts_iff {t : Text} {ds : List Condition} :
    Disjuncts t ds ↔ List.Forall₂ Conj (Brackets.split ',' t) ds := by
  constructor
  · intro h
    obtain ⟨ps, hps, hall⟩ := h.exists_pieces
    rwa [hps.split_eq]
  · exact joined_of_forall₂ (fun ⟨_, hcs, hd⟩ => .last hcs hd)
      (fun ⟨_, hcs, hd⟩ hds => .more hcs hd hds)

theorem Chained.unique {k : Connective} {cs : List Condition} {c c' : Condition}
    (h : Chained k cs c) (h' : Chained k cs c') : c = c' :=
  (chained_iff.mp h).2.trans (chained_iff.mp h').2.symm

/-- A text that is read as a statement. -/
structure Stmt (t : Text) (s : Statement) : Prop where
  whole : Whole t
  notGroup : t.head? ≠ some '('
  cut : Cut t s

theorem Stmt.operand {t : Text} {s : Statement} (h : Stmt t s) : Operand t (.statement s) :=
  .statement h.whole h.notGroup h.cut

theorem Operand.stmt {t : Text} {c : Condition} (h : Operand t c) (hopen : t.head? ≠ some '(') :
    ∃ s, c = .statement s ∧ Stmt t s := by
  cases h with
  | statement hwhole hopen hcut => exact ⟨_, rfl, hwhole, hopen, hcut⟩
  | group _ _ => exact absurd rfl hopen

theorem Operand.expr {t : Text} {c : Condition} (h : Operand ('(' :: t ++ [')']) c) :
    Expr t c := by
  generalize hgroup : '(' :: t ++ [')'] = u at h
  cases h with
  | statement _ hopen _ => exact absurd (by rw [← hgroup]; rfl) hopen
  | group hds hc =>
      obtain rfl := (List.append_inj' (List.cons.inj hgroup).2 rfl).1
      exact ⟨_, hds, hc⟩

mutual

theorem Operand.unique : ∀ {t : Text} {c c' : Condition}, Operand t c → Operand t c' → c = c'
  | _, _, _, .statement _ hopen hcut, h' => by
      obtain ⟨s', rfl, hs'⟩ := h'.stmt hopen
      rw [hcut.unique hs'.cut]
  | _, _, _, .group hds hc, h' => by
      obtain ⟨ds', hds', hc'⟩ := h'.expr
      obtain rfl := hds.unique hds'
      exact hc.unique hc'

theorem Conjuncts.unique :
    ∀ {t : Text} {cs cs' : List Condition}, Conjuncts t cs → Conjuncts t cs' → cs = cs'
  | _, _, _, .last hc, h' => by
      have hsplit := (Brackets.Pieces.last hc.whole.matched hc.whole.andUndivided).split_eq
      rw [conjuncts_iff, hsplit] at h'
      cases h' with
      | cons hc' hnil =>
          cases hnil
          rw [hc.unique hc']
  | _, _, _, .more hc hcs, h' => by
      have hu := Brackets.pieces_split (by decide : ';' ≠ '(' ∧ ';' ≠ ')') hcs.matched.1
      have hsplit := (Brackets.Pieces.more hc.whole.matched hc.whole.andUndivided hu).split_eq
      rw [conjuncts_iff, hsplit] at h'
      cases h' with
      | cons hc' hcs' => rw [hc.unique hc', hcs.unique (conjuncts_iff.mpr hcs')]

theorem Disjuncts.unique :
    ∀ {t : Text} {ds ds' : List Condition}, Disjuncts t ds → Disjuncts t ds' → ds = ds'
  | _, _, _, .last hcs hd, h' => by
      have hsplit := (Brackets.Pieces.last hcs.matched.1 hcs.matched.2).split_eq
      rw [disjuncts_iff, hsplit] at h'
      cases h' with
      | cons hd' hnil =>
          cases hnil
          obtain ⟨cs', hcs', hd'⟩ := hd'
          obtain rfl := hcs.unique hcs'
          rw [hd.unique hd']
  | _, _, _, .more hcs hd hds, h' => by
      have hu := Brackets.pieces_split (by decide : ',' ≠ '(' ∧ ',' ≠ ')') hds.matched
      have hsplit := (Brackets.Pieces.more hcs.matched.1 hcs.matched.2 hu).split_eq
      rw [disjuncts_iff, hsplit] at h'
      cases h' with
      | cons hd' hds' =>
          obtain ⟨cs', hcs', hd'⟩ := hd'
          obtain rfl := hcs.unique hcs'
          rw [hd.unique hd', hds.unique (disjuncts_iff.mpr hds')]

end

/-- A query has one tree. -/
theorem Expr.unique {t : Text} {c c' : Condition} (h : Expr t c) (h' : Expr t c') : c = c' := by
  obtain ⟨ds, hds, hc⟩ := h
  obtain ⟨ds', hds', hc'⟩ := h'
  obtain rfl := hds.unique hds'
  exact hc.unique hc'

/-- A property of trees that statements of a query have and that two or more conditions
hand on to what joins them. -/
structure Inherited (P : Condition → Prop) : Prop where
  statement : ∀ {t s}, Stmt t s → P (.statement s)
  compound : ∀ {k cs}, 2 ≤ cs.length → (∀ c ∈ cs, P c) → P (.compound k cs)

section

variable {P : Condition → Prop}

theorem Inherited.chained (hP : Inherited P) {k : Connective} {cs : List Condition}
    {c : Condition} (hcs : ∀ c ∈ cs, P c) (h : Chained k cs c) : P c := by
  cases h with
  | single => exact hcs c List.mem_cons_self
  | many => exact hP.compound (by simp) hcs

mutual

theorem Inherited.operand (hP : Inherited P) : ∀ {t : Text} {c : Condition}, Operand t c → P c
  | _, _, .statement hwhole hopen hcut => hP.statement ⟨hwhole, hopen, hcut⟩
  | _, _, .group hds hc => hP.chained (hP.disjuncts hds) hc

theorem Inherited.conjuncts (hP : Inherited P) :
    ∀ {t : Text} {cs : List Condition}, Conjuncts t cs → ∀ c ∈ cs, P c
  | _, _, .last hc => List.forall_mem_cons.mpr ⟨hP.operand hc, List.forall_mem_nil _⟩
  | _, _, .more hc hcs => List.forall_mem_cons.mpr ⟨hP.operand hc, hP.conjuncts hcs⟩

theorem Inherited.disjuncts (hP : Inherited P) :
    ∀ {t : Text} {ds : List Condition}, Disjuncts t ds → ∀ d ∈ ds, P d
  | _, _, .last hcs hd =>
      List.forall_mem_cons.mpr ⟨hP.chained (hP.conjuncts hcs) hd, List.forall_mem_nil _⟩
  | _, _, .more hcs hd hds =>
      List.forall_mem_cons.mpr ⟨hP.chained (hP.conjuncts hcs) hd, hP.disjuncts hds⟩

end

/-- An inherited property holds of the tree of every query. -/
theorem Inherited.expr (hP : Inherited P) {t : Text} {c : Condition} (h : Expr t c) : P c := by
  obtain ⟨ds, hds, hc⟩ := h
  exact hP.chained (hP.disjuncts hds) hc

end

end Grammar

end QueryBatch
