/-
Conditions that were read from queries, written and read again.  The text of such a
condition falls apart into the texts of its statements.  It reads back exactly if each of
them is cut where it was joined and no value is unescaped once more.
-/
import QueryBatch.Proofs.Condition.Rendering

namespace QueryBatch

section

variable {value : Text}

theorem star_notMem_normalizeWildcards (value : Text) : '*' ∉ normalizeWildcards value := by
  rw [normalizeWildcards_eq_map]
  exact notMem_map_replace (by decide) (unescape value)

theorem normalizeWildcards_ne_nil (h : value ≠ []) : normalizeWildcards value ≠ [] := by
  fun_cases normalizeWildcards value <;> simp_all

/-- Undoing an escape makes a value shorter. -/
theorem length_normalizeWildcards_lt (h : "\\_".toList <:+: value) :
    (normalizeWildcards value).length < value.length := by
  rw [normalizeWildcards_eq_map, List.length_map]
  exact length_unescape_lt h

/-- Normalizing takes no bracket and no separator away. -/
theorem filter_normalizeWildcards (value : Text) :
    ((normalizeWildcards value).filter fun c => decide (c ∈ ";,()".toList)) =
      value.filter fun c => decide (c ∈ ";,()".toList) := by
  fun_induction normalizeWildcards value with
  | case1 => rfl
  | case2 r ih => simpa using ih
  | case3 c r _ ih =>
      by_cases hc : c = '*'
      · simpa [hc] using ih
      · rw [if_neg hc, List.filter_cons, List.filter_cons, ih]

end

namespace Grammar

/-- The comparators of the four orders, as queries are written with them. -/
def orderComparators : List Text :=
  ["=gt=".toList, "=ge=".toList, "=lt=".toList, "=le=".toList]

/-- The ends of a property that make a comparator with the first sign behind it, if that is
the first sign of an order. -/
def shadowingEnds : List Text :=
  ["=".toList, "!".toList, "=gt".toList, "=ge".toList, "=lt".toList, "=le".toList]

/-- A comparator that is not an order is written as it was read. -/
theorem comparator_eq_of_mem_comparatorForms {s : Statement} {comparator : Text}
    (h : (comparator, s.operator, s.extension?) ∈ comparatorForms)
    (horder : s.comparator ∉ orderComparators) : s.comparator = comparator := by
  have hforms : ∀ form ∈ comparatorForms,
      Statement.comparator ⟨[], form.2.1, [], form.2.2⟩ ∉ orderComparators →
        Statement.comparator ⟨[], form.2.1, [], form.2.2⟩ = form.1 := by
    decide
  exact hforms _ h horder

theorem order_of_comparator : ∀ form ∈ canonicalForms, form.1 ∈ orderComparators ↔
    form.2.1 ∈ [Operator.greater, .greaterEquals, .less, .lessEquals] := by
  decide

/-- A comparator that ends within an order ends in its first sign. -/
theorem drop_eq_of_overlap : ∀ form ∈ comparatorForms, ∀ n < form.1.length, n ≠ 0 →
    ∀ comparator ∈ orderComparators, form.1.drop n <+: comparator → form.1.drop n = ['='] := by
  decide

/-- Without its last sign a comparator is an end that makes it, or it holds another one. -/
theorem take_of_overlap : ∀ form ∈ comparatorForms, ∀ n < form.1.length,
    form.1.drop n = ['='] →
      form.1.take n ∈ shadowingEnds ∨ ∃ other ∈ comparatorForms, other.1 <:+: form.1.take n := by
  decide

/-- A comparator that starts in a property and ends in an order starts at an end that makes
it, unless one stands in the property itself. -/
theorem shadowing_of_overlap {form : Text × Operator × Option Text} {comparator more rest : Text}
    (hform : form ∈ comparatorForms) (hcomparator : comparator ∈ orderComparators)
    (hmade : form.1 = more ++ rest) (hmore : more ≠ []) (hrest : rest ≠ [])
    (hstart : rest <+: comparator) :
    more ∈ shadowingEnds ∨ ∃ other ∈ comparatorForms, other.1 <:+: more := by
  have hpos := List.length_pos_iff.mpr hmore
  have hlt : more.length < form.1.length := by
    rw [hmade, List.length_append]
    have := List.length_pos_iff.mpr hrest
    omega
  have htake : form.1.take more.length = more := by rw [hmade, List.take_left]
  have hdrop : form.1.drop more.length = rest := by rw [hmade, List.drop_left]
  have hsign : form.1.drop more.length = ['='] := by
    apply drop_eq_of_overlap form hform more.length hlt (by omega) comparator hcomparator
    rwa [hdrop]
  rw [← htake]
  exact take_of_overlap form hform more.length hlt hsign

theorem ne_nil_of_mem_comparatorForms : ∀ form ∈ comparatorForms, form.1 ≠ [] := by
  decide

/-- No comparator stands in the property that a text was cut at. -/
theorem Cut.property_free {t : Text} {s : Statement} (h : Cut t s) :
    ∀ form ∈ comparatorForms, ¬ form.1 <:+: s.property := by
  obtain ⟨comparator, -, heq, -, -, hleft, -⟩ := h
  rintro form hform ⟨before, after, hproperty⟩
  have hle := hleft before form (after ++ comparator ++ s.value) hform
    (by rw [heq, ← hproperty]; simp only [List.append_assoc])
  have hpos := List.length_pos_iff.mpr (ne_nil_of_mem_comparatorForms form hform)
  rw [← hproperty] at hle
  simp only [List.length_append] at hle
  omega

/-- Before an order, a property without a comparator hides one only if it ends in a part
of one. -/
theorem unshadowed_iff_of_order {property comparator : Text}
    (hcomparator : comparator ∈ orderComparators)
    (hfree : ∀ form ∈ comparatorForms, ¬ form.1 <:+: property) :
    Unshadowed property comparator ↔ ∀ ending ∈ shadowingEnds, ¬ ending <:+ property := by
  constructor
  · rintro hunshadowed ending hending ⟨before, rfl⟩
    have hends : ∀ ending ∈ shadowingEnds, ending ≠ [] ∧
        ∃ form ∈ comparatorForms, form.1 = ending ++ ['='] := by
      decide
    have hfirst : ∀ comparator ∈ orderComparators, comparator = '=' :: comparator.drop 1 := by
      decide
    obtain ⟨hne, form, hform, hmade⟩ := hends ending hending
    have hle := hunshadowed before form (comparator.drop 1) hform (by
      rw [hmade, hfirst comparator hcomparator]
      simp)
    have hpos := List.length_pos_iff.mpr hne
    rw [List.length_append] at hle
    omega
  · intro hends before form after hform heq
    rw [List.append_assoc] at heq
    rcases List.append_eq_append_iff.mp heq with ⟨more, rfl, -⟩ | ⟨more, rfl, hrest⟩
    · simp
    · have hwithin : ∀ other ∈ comparatorForms, ¬ other.1 <:+: more := fun other hother hother' =>
        hfree other hother (hother'.trans (List.suffix_append before more).isInfix)
      rcases List.append_eq_append_iff.mp hrest with ⟨gap, rfl, -⟩ | ⟨rest, hmade, rfl⟩
      · exact absurd (List.prefix_append form.1 gap).isInfix (hwithin form hform)
      · rcases Nat.eq_zero_or_pos more.length with hmore | hmore
        · simp [List.length_eq_zero_iff.mp hmore]
        have hrest : rest ≠ [] := by
          rintro rfl
          rw [List.append_nil] at hmade
          exact hwithin form hform (hmade ▸ List.infix_refl _)
        rcases shadowing_of_overlap hform hcomparator hmade (List.length_pos_iff.mp hmore) hrest
          (List.prefix_append rest after) with hend | ⟨other, hother, hmem⟩
        · exact absurd (List.suffix_append before more) (hends more hend)
        · exact absurd hmem (hwithin other hother)

end Grammar

namespace Statement

/-- The statement that a query means by one that it holds. -/
def normalized (r : Statement) : Statement :=
  { r with value := normalizeWildcards r.value }

/-- A statement that its own text is taken for: undoing escapes leaves its value alone, and
an order is not taken for the end of another comparator. -/
structure Faithful (s : Statement) : Prop where
  escape : ¬ "\\_".toList <:+: s.value
  property : s.operator ∈ [Operator.greater, .greaterEquals, .less, .lessEquals] →
    ∀ ending ∈ Grammar.shadowingEnds, ¬ ending <:+ s.property

variable {t : Text} {r : Statement}

/-- The comparator that a statement is written with is found, unless it is an order behind
an end that makes another one of it. -/
theorem unshadowed_iff_of_cut (h : Grammar.Cut t r) :
    Grammar.Unshadowed r.property r.comparator ↔
      (r.operator ∈ [Operator.greater, .greaterEquals, .less, .lessEquals] →
        ∀ ending ∈ Grammar.shadowingEnds, ¬ ending <:+ r.property) := by
  have hcanonical := h.canonical
  rw [← Grammar.order_of_comparator _ hcanonical]
  by_cases horder : r.comparator ∈ Grammar.orderComparators
  · rw [Grammar.unshadowed_iff_of_order horder h.property_free]
    exact ⟨fun hends _ => hends, fun hends => hends horder⟩
  · have hcut := h
    obtain ⟨comparator, hform, heq, hproperty, hvalue, -⟩ := h
    have hsame := Grammar.comparator_eq_of_mem_comparatorForms hform horder
    rw [heq, ← hsame, Grammar.cut_append_iff hcanonical hproperty hvalue] at hcut
    exact iff_of_true hcut fun hmem => absurd hmem horder

/-- What a statement that was read is written as is in one piece, and no group. -/
theorem whole_render_of_stmt (h : Grammar.Stmt t r) :
    Grammar.Whole r.normalized.render ∧ r.normalized.render.head? ≠ some '(' := by
  obtain ⟨hwhole, hopen, hcut⟩ := h
  have hcanonical := hcut.canonical
  obtain ⟨comparator, hform, rfl, hproperty, -⟩ := hcut
  obtain ⟨c, rest, hfirst⟩ := List.exists_cons_of_ne_nil hproperty
  have hmarks : ∀ form ∈ Grammar.comparatorForms,
      (form.1.filter fun c => decide (c ∈ ";,()".toList)) = [] := by
    decide
  constructor
  · apply hwhole.of_filter_eq
    simp only [render, renderWith, writtenValue, id_eq, List.filter_append]
    rw [Grammar.filter_map_marks written_mark_iff]
    simp only [normalized]
    rw [filter_normalizeWildcards, hmarks _ hform]
    congr 2
    exact hmarks _ (Grammar.canonicalForms_spec _ hcanonical).1
  · simp only [hfirst, List.cons_append, List.head?_cons, render, renderWith, normalized] at hopen ⊢
    exact hopen

/-- A statement with its value as its own text holds it. -/
def asWritten (s : Statement) : Statement :=
  { s with value := Condition.written id s.value }

theorem cut_render_iff (h : Grammar.Stmt t r) :
    Grammar.Cut r.normalized.render r.normalized.asWritten ↔
      Grammar.Unshadowed r.property r.comparator := by
  have hcanonical := h.cut.canonical
  obtain ⟨-, -, -, hproperty, hvalue, -⟩ := h.cut
  have hwritten : r.normalized.asWritten.value ≠ [] := by
    simpa [asWritten, Condition.written, normalized] using normalizeWildcards_ne_nil hvalue
  exact Grammar.cut_append_iff (s := r.normalized.asWritten) hcanonical hproperty hwritten

/-- If the text of a statement is cut into a statement with the same property and comparator,
the rest is the value as it was written. -/
theorem eq_asWritten_of_cut {s r' : Statement}
    (hcanonical : Grammar.Canonical s)
    (hcut : Grammar.Cut s.render r') (hproperty : r'.property = s.property)
    (hoperator : r'.operator = s.operator) (hextension : r'.extension? = s.extension?) :
    r' = s.asWritten := by
  obtain ⟨hknown, hinside, -⟩ := Grammar.canonicalForms_spec _ hcanonical
  obtain ⟨comparator, hform, heq, -, -, -, hlong⟩ := hcut
  have hjoined : s.render = s.property ++ s.comparator ++ s.asWritten.value := rfl
  have hrest : s.comparator ++ s.asWritten.value = comparator ++ r'.value := by
    rw [hjoined, hproperty, List.append_assoc, List.append_assoc] at heq
    exact List.append_cancel_left heq
  have hstart : s.comparator <+: comparator := by
    apply List.prefix_of_prefix_length_le (List.prefix_append _ s.asWritten.value)
    · exact ⟨r'.value, hrest.symm⟩
    · exact hlong _ s.asWritten.value hknown (by rw [hproperty, hjoined])
  obtain rfl : comparator = s.comparator := hinside _ hform hstart.isInfix
  have hvalue := List.append_cancel_left hrest
  cases r'
  simp_all [asWritten]

/-- The text of a faithful statement is read with the value as it was written. -/
theorem Faithful.stmt_render (h : Grammar.Stmt t r) (hfaithful : r.normalized.Faithful) :
    Grammar.Stmt r.normalized.render r.normalized.asWritten := by
  obtain ⟨hwhole, hopen⟩ := whole_render_of_stmt h
  have hunshadowed := (unshadowed_iff_of_cut h.cut).mpr hfaithful.property
  exact ⟨hwhole, hopen, (cut_render_iff h).mpr hunshadowed⟩

/-- A statement whose text is read as it is faithful. -/
theorem faithful_of_stmt_render {r' : Statement} (h : Grammar.Stmt t r)
    (hr' : Grammar.Stmt r.normalized.render r') (hsame : r'.normalized = r.normalized) :
    r.normalized.Faithful := by
  have hproperty : r'.normalized.property = r.normalized.property := congrArg property hsame
  have hoperator : r'.normalized.operator = r.normalized.operator := congrArg operator hsame
  have hextension : r'.normalized.extension? = r.normalized.extension? := congrArg extension? hsame
  have hcanonical := h.cut.canonical
  obtain rfl := eq_asWritten_of_cut (s := r.normalized) hcanonical hr'.cut hproperty hoperator
    hextension
  constructor
  · -- the escape would be undone again, and the value read would be shorter
    intro hescape
    have hvalue : normalizeWildcards (Condition.written id r.normalized.value) =
        r.normalized.value := congrArg value hsame
    have hwritten : "\\_".toList <:+: Condition.written id r.normalized.value :=
      hescape.map fun c => if c = '%' then '*' else c
    have hlt := length_normalizeWildcards_lt hwritten
    rw [hvalue, Condition.written, id, List.length_map] at hlt
    exact Nat.lt_irrefl _ hlt
  · exact (unshadowed_iff_of_cut h.cut).mp ((cut_render_iff h).mp hr'.cut)

end Statement

namespace Grammar

theorem Chained.eq_compound {k : Connective} {cs : List Condition} {c : Condition}
    (h : Chained k cs c) (hlength : 2 ≤ cs.length) : c = .compound k cs := by
  cases h with
  | single => simp at hlength
  | many => rfl

theorem conj_iff_of_whole {t : Text} {c : Condition} (h : Whole t) : Conj t c ↔ Operand t c := by
  constructor
  · rintro ⟨cs, hcs, hc⟩
    rw [conjuncts_iff, (Brackets.Pieces.last h.matched h.andUndivided).split_eq] at hcs
    cases hcs with
    | cons hoperand hnil =>
        cases hnil
        cases hc
        exact hoperand
  · exact fun hoperand => ⟨[c], .last hoperand, .single c⟩

/-- A text in one piece is a query if and only if it is an operand. -/
theorem expr_iff_of_whole {t : Text} {c : Condition} (h : Whole t) : Expr t c ↔ Operand t c := by
  rw [← conj_iff_of_whole h]
  constructor
  · rintro ⟨ds, hds, hc⟩
    rw [disjuncts_iff, (Brackets.Pieces.last h.matched h.orUndivided).split_eq] at hds
    cases hds with
    | cons hconj hnil =>
        cases hnil
        cases hc
        exact hconj
  · rintro ⟨cs, hcs, hc⟩
    exact ⟨[c], .last hcs hc, .single c⟩

end Grammar

namespace Condition

open Grammar (Whole Operand Expr Stmt)

variable {write : Text → Text}

/-- The pieces of a written compound are its written children. -/
theorem pieces_renderAllWith (k : Connective) {cs : List Condition} (hne : cs ≠ [])
    (hwhole : ∀ c ∈ cs, Whole (renderChildWith write c)) :
    Brackets.Pieces k.symbol (renderAllWith write k cs) (cs.map (renderChildWith write)) := by
  have hundivided : ∀ {t : Text}, Whole t → Brackets.Undivided k.symbol t := by
    intro t h
    cases k with
    | and => exact h.andUndivided
    | or => exact h.orUndivided
  induction cs with
  | nil => exact absurd rfl hne
  | cons c cs ih =>
      rw [List.forall_mem_cons] at hwhole
      cases cs with
      | nil =>
          rw [renderAllWith, renderRestWith, List.append_nil]
          exact .last hwhole.1.matched (hundivided hwhole.1)
      | cons d cs =>
          rw [renderAllWith_cons_cons]
          exact .more hwhole.1.matched (hundivided hwhole.1) (ih (by simp) hwhole.2)

theorem symbol_ne_bracket (k : Connective) : k.symbol ≠ '(' ∧ k.symbol ≠ ')' := by
  cases k <;> decide

theorem matched_renderAllWith (k : Connective) {cs : List Condition}
    (hwhole : ∀ c ∈ cs, Whole (renderChildWith write c)) :
    Brackets.Matched (renderAllWith write k cs) := by
  by_cases hne : cs = []
  · rw [hne, renderAllWith]
    exact .nil
  · exact (pieces_renderAllWith k hne hwhole).matched_text (symbol_ne_bracket k)

mutual

theorem whole_renderChildWith : ∀ {c : Condition},
    (∀ s ∈ c.statements, Whole (s.renderWith write)) → Whole (renderChildWith write c)
  | .statement s, h => h s (by simp [statements])
  | .compound k children, h =>
      Grammar.whole_brackets (matched_renderAllWith k (wholes_renderChildWith h))

theorem wholes_renderChildWith : ∀ {cs : List Condition},
    (∀ s ∈ statementsOfAll cs, Whole (s.renderWith write)) →
      ∀ c ∈ cs, Whole (renderChildWith write c)
  | [], _ => List.forall_mem_nil _
  | c :: cs, h => by
      rw [statementsOfAll, List.forall_mem_append] at h
      exact List.forall_mem_cons.mpr ⟨whole_renderChildWith h.1, wholes_renderChildWith h.2⟩

end

/-- What a compound is written as is a query of what its children are written as. -/
theorem children_of_expr {k : Connective} {cs : List Condition} {raw : Condition}
    (hlength : 2 ≤ cs.length) (hwhole : ∀ c ∈ cs, Whole (renderChildWith write c))
    (h : Expr (renderAllWith write k cs) raw) :
    ∃ raws, raw = .compound k raws ∧
      List.Forall₂ (fun c raw => Operand (renderChildWith write c) raw) cs raws := by
  have hne : cs ≠ [] := by
    rintro rfl
    simp at hlength
  obtain ⟨ds, hds, hraw⟩ := h
  cases k with
  | and =>
      have hpieces : Brackets.Pieces ';' (renderAllWith write .and cs)
          (cs.map (renderChildWith write)) := pieces_renderAllWith .and hne hwhole
      have hdiv : Brackets.Undivided ',' (renderAllWith write .and cs) := by
        apply hpieces.undivided_text (by decide) (by decide)
        rw [List.forall_mem_map]
        exact fun c hc => (hwhole c hc).orUndivided
      have hmatched := hpieces.matched_text (by decide)
      rw [Grammar.disjuncts_iff, (Brackets.Pieces.last hmatched hdiv).split_eq] at hds
      cases hds with
      | cons hconj hnil =>
          cases hnil
          cases hraw
          obtain ⟨raws, hraws, hchained⟩ := hconj
          rw [Grammar.conjuncts_iff, hpieces.split_eq, List.forall₂_map_left_iff] at hraws
          exact ⟨raws, hchained.eq_compound (hraws.length_eq ▸ hlength), hraws⟩
  | or =>
      have hpieces : Brackets.Pieces ',' (renderAllWith write .or cs)
          (cs.map (renderChildWith write)) := pieces_renderAllWith .or hne hwhole
      rw [Grammar.disjuncts_iff, hpieces.split_eq, List.forall₂_map_left_iff] at hds
      rw [forall₂_congr fun c hc d => Grammar.conj_iff_of_whole (hwhole c hc)] at hds
      exact ⟨ds, hraw.eq_compound (hds.length_eq ▸ hlength), hds⟩

mutual

/-- The statements of a tree that is read from a written condition are read from what the
statements of the condition are written as. -/
theorem statements_of_operand : ∀ {c raw : Condition}, c.Branching →
    (∀ s ∈ c.statements, Whole (s.renderWith write) ∧ (s.renderWith write).head? ≠ some '(') →
      Operand (renderChildWith write c) raw →
      List.Forall₂ (fun s r => Stmt (s.renderWith write) r) c.statements raw.statements
  | .statement s, raw, _, hstatements, h => by
      have hs := hstatements s (by simp [statements])
      obtain ⟨r, rfl, hr⟩ := Operand.stmt h hs.2
      exact .cons hr .nil
  | .compound k children, raw, hbranching, hstatements, h => by
      have hwhole := wholes_renderChildWith fun s hs => (hstatements s hs).1
      obtain ⟨raws, rfl, hraws⟩ := children_of_expr hbranching.1 hwhole (Operand.expr h)
      exact statements_of_operands hbranching.2 hstatements hraws

theorem statements_of_operands : ∀ {cs raws : List Condition}, BranchingAll cs →
    (∀ s ∈ statementsOfAll cs,
      Whole (s.renderWith write) ∧ (s.renderWith write).head? ≠ some '(') →
      List.Forall₂ (fun c raw => Operand (renderChildWith write c) raw) cs raws →
      List.Forall₂ (fun s r => Stmt (s.renderWith write) r) (statementsOfAll cs)
        (statementsOfAll raws)
  | [], [], _, _, _ => .nil
  | c :: cs, raw :: raws, hbranching, hstatements, h => by
      rw [statementsOfAll, List.forall_mem_append] at hstatements
      rw [List.forall₂_cons] at h
      exact List.rel_append (statements_of_operand hbranching.1 hstatements.1 h.1)
        (statements_of_operands hbranching.2 hstatements.2 h.2)

end

theorem statements_of_expr {c raw : Condition} (hbranching : c.Branching)
    (hstatements : ∀ s ∈ c.statements,
      Whole (s.renderWith write) ∧ (s.renderWith write).head? ≠ some '(')
    (h : Expr (c.renderWith write) raw) :
    List.Forall₂ (fun s r => Stmt (s.renderWith write) r) c.statements raw.statements := by
  cases c with
  | statement s =>
      have hs := hstatements s (by simp [statements])
      exact statements_of_operand hbranching hstatements ((Grammar.expr_iff_of_whole hs.1).mp h)
  | compound k children =>
      have hwhole := wholes_renderChildWith fun s hs => (hstatements s hs).1
      obtain ⟨raws, rfl, hraws⟩ := children_of_expr hbranching.1 hwhole h
      exact statements_of_operands hbranching.2 hstatements hraws

theorem mapValuesOfAll_eq_map (f : Text → Text) (cs : List Condition) :
    mapValuesOfAll f cs = cs.map (mapValues f) := by
  induction cs with
  | nil => rfl
  | cons c cs ih => rw [mapValuesOfAll, ih, List.map_cons]

theorem branchingAll_iff {cs : List Condition} : BranchingAll cs ↔ ∀ c ∈ cs, c.Branching := by
  induction cs with
  | nil => simp [BranchingAll]
  | cons c cs ih => rw [BranchingAll, ih, List.forall_mem_cons]

/-- The compounds of a tree come from two or more members, whatever its values are. -/
theorem inherited_branching (f : Text → Text) :
    Grammar.Inherited fun raw => (raw.mapValues f).Branching where
  statement _ := trivial
  compound := by
    intro k cs hlength hcs
    rw [mapValues, mapValuesOfAll_eq_map, Branching, List.length_map, branchingAll_iff,
      List.forall_mem_map]
    exact ⟨hlength, hcs⟩

theorem branching_of_parse {coding : ValueCoding} {t : Text} {c : Condition}
    (h : parse coding t = .ok c) : c.Branching := by
  obtain ⟨raw, hraw, -, rfl⟩ := parse_eq_ok_iff.mp h
  exact (inherited_branching coding.meaning).expr hraw

/-- A condition that was read from a query reads back from what it is written as if and only
if each of its statements is faithful. -/
theorem parse_render_iff_of_parse {t : Text} {c : Condition} (h : parse .plain t = .ok c) :
    parse .plain c.render = .ok c ↔ ∀ s ∈ c.statements, s.Faithful := by
  have hbranching := branching_of_parse h
  have hread : ∀ s ∈ c.statements, ∃ u r, Stmt u r ∧ s = r.normalized := stmt_of_parse h
  constructor
  · intro hparse
    have hwhole : ∀ s ∈ c.statements,
        Whole (s.renderWith id) ∧ (s.renderWith id).head? ≠ some '(' := by
      intro s hs
      obtain ⟨u, r, hr, rfl⟩ := hread s hs
      exact Statement.whole_render_of_stmt hr
    obtain ⟨raw, hraw, -, hc⟩ := parse_eq_ok_iff.mp hparse
    have hstatements : c.statements = raw.statements.map Statement.normalized := by
      rw [hc, statements_mapValues]
      rfl
    have hstmt := statements_of_expr hbranching hwhole hraw
    rw [hstatements, List.forall₂_map_left_iff, List.forall₂_same] at hstmt
    rw [hstatements, List.forall_mem_map] at hread ⊢
    intro r' hr'
    obtain ⟨u, r, hr, hsame⟩ := hread r' hr'
    have hr'' := hstmt r' hr'
    rw [hsame] at hr'' ⊢
    exact Statement.faithful_of_stmt_render hr hr'' hsame
  · intro hfaithful
    apply parse_renderWith hbranching
    · intro s hs
      have hs' := hfaithful s hs
      obtain ⟨u, r, hr, rfl⟩ := hread s hs
      exact (hs'.stmt_render hr).operand
    · exact fun s _ => trivial
    · intro s hs
      have hs' := hfaithful s hs
      obtain ⟨u, r, -, rfl⟩ := hread s hs
      exact normalizeWildcards_written (star_notMem_normalizeWildcards r.value) hs'.escape

/-- What the query `(a>=5,b==x\_*);c!~y` says. -/
def shortened : Condition :=
  .compound .and
    [.compound .or
      [.statement ⟨"a".toList, .greaterEquals, "5".toList, none⟩,
        .statement ⟨"b".toList, .equals, "x_%".toList, none⟩],
      .statement ⟨"c".toList, .custom, "y".toList, some notEqualsIgnoringCase⟩]

/-- A query with a short comparator, a wildcard and an escape is written differently and
reads back. -/
theorem parse_render_shortened : parse .plain "(a>=5,b==x\\_*);c!~y".toList = .ok shortened ∧
    (∀ s ∈ shortened.statements, s.Faithful) ∧ parse .plain shortened.render = .ok shortened := by
  have hparse : parse .plain "(a>=5,b==x\\_*);c!~y".toList = .ok shortened := by
    decide +kernel
  have hescape : ∀ s ∈ shortened.statements, ¬ "\\_".toList <:+: s.value := by
    decide
  have hends : ∀ s ∈ shortened.statements,
      s.operator ∈ [Operator.greater, .greaterEquals, .less, .lessEquals] →
        ∀ ending ∈ Grammar.shadowingEnds, ¬ ending <:+ s.property := by
    decide
  have hfaithful : ∀ s ∈ shortened.statements, s.Faithful :=
    fun s hs => ⟨hescape s hs, hends s hs⟩
  exact ⟨hparse, hfaithful, (parse_render_iff_of_parse hparse).mpr hfaithful⟩

/-- Not every condition reads back: an order behind `!` becomes an inequality, and a second
backslash escapes what follows it. -/
theorem parse_render_ne :
    (∃ c, parse .plain "a!>5".toList = .ok c ∧
      parse .plain c.render = .ok (.statement ⟨"a".toList, .notEquals, "gt=5".toList, none⟩) ∧
      parse .plain c.render ≠ .ok c) ∧
    ∃ c, parse .plain "a==\\\\_".toList = .ok c ∧
      parse .plain c.render = .ok (.statement ⟨"a".toList, .equals, "_".toList, none⟩) ∧
      parse .plain c.render ≠ .ok c := by
  constructor
  · refine ⟨.statement ⟨"a!".toList, .greater, "5".toList, none⟩, ?_⟩
    decide +kernel
  · refine ⟨.statement ⟨"a".toList, .equals, "\\_".toList, none⟩, ?_⟩
    decide +kernel

end Condition

end QueryBatch
