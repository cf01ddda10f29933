/-
Conditions written as queries.  A condition whose statements are written as operands is
derived from the query it is written as, so reading the query gives the condition back.
-/
import Mathlib.Data.Bool.AllAny
import QueryBatch.Condition.Printer
import QueryBatch.Proofs.Condition.Parsing

namespace QueryBatch

namespace Grammar

open Brackets (Matched Undivided)

theorem depth?_filter (t : Text) (depth : Nat) :
    Brackets.depth? depth (t.filter fun c => decide (c ∈ ";,()".toList)) =
      Brackets.depth? depth t := by
  induction t generalizing depth with
  | nil => rfl
  | cons c t ih =>
      by_cases hc : c ∈ ";,()".toList
      · rw [List.filter_cons_of_pos (by simpa using hc), Brackets.depth?, Brackets.depth?, ih]
      · have hopen : c ≠ '(' := fun h => hc (h ▸ by decide)
        have hclose : c ≠ ')' := fun h => hc (h ▸ by decide)
        rw [List.filter_cons_of_neg (by simpa using hc), ih, Brackets.depth?]
        simp [Brackets.next, hopen, hclose]

/-- Whether a text is in one piece depends on its brackets and separators only. -/
theorem Whole.of_filter_eq {t u : Text} (h : Whole t)
    (heq : (u.filter fun c => decide (c ∈ ";,()".toList)) =
      t.filter fun c => decide (c ∈ ";,()".toList)) : Whole u := by
  have hmatched : ∀ {a b : Text}, (a.filter fun c => decide (c ∈ ";,()".toList)) =
      (b.filter fun c => decide (c ∈ ";,()".toList)) → Matched b → Matched a := by
    intro a b hab hb
    rw [Brackets.matched_iff_depth?, ← depth?_filter, hab, depth?_filter]
    exact hb.depth?_eq 0
  have hundivided : ∀ separator ∈ ";,()".toList, Undivided separator t →
      Undivided separator u := by
    rintro separator hseparator hdiv before after rfl hbefore
    rw [List.filter_append, List.filter_cons_of_pos (by simpa using hseparator)] at heq
    obtain ⟨first, rest, rfl, hfirst, hrest⟩ := List.filter_eq_append_iff.mp heq.symm
    obtain ⟨others, after', rfl, hothers, -⟩ := List.filter_eq_cons_iff.mp hrest
    apply hdiv (first ++ others) after'
    · rw [List.append_assoc]
    · apply hmatched _ hbefore
      rw [List.filter_append, List.filter_eq_nil_iff.mpr hothers, List.append_nil, hfirst]
  exact ⟨hmatched heq h.matched, hundivided ';' (by decide) h.andUndivided,
    hundivided ',' (by decide) h.orUndivided⟩

theorem Whole.append {s t : Text} (hs : ∀ c ∈ s, c ∉ ";,()".toList) (h : Whole t) :
    Whole (s ++ t) := by
  apply h.of_filter_eq
  rw [List.filter_append, List.filter_eq_nil_iff.mpr (by simpa using hs), List.nil_append]

/-- A text whose brackets match and that splitting leaves in one piece. -/
theorem whole_of_split {t : Text} (hdepth : Brackets.depth? 0 t = some 0)
    (hand : Brackets.split ';' t = [t]) (hor : Brackets.split ',' t = [t]) : Whole t := by
  have hmatched := Brackets.matched_of_depth?_eq hdepth
  have handPieces := Brackets.pieces_split (by decide : ';' ≠ '(' ∧ ';' ≠ ')') hmatched
  have horPieces := Brackets.pieces_split (by decide : ',' ≠ '(' ∧ ',' ≠ ')') hmatched
  exact ⟨hmatched, handPieces.undivided t (by simp [hand]), horPieces.undivided t (by simp [hor])⟩

/-- A text without brackets and separators is in one piece. -/
theorem whole_of_plain {t : Text} (h : ∀ c ∈ t, c ∉ ";,()".toList) : Whole t := by
  have hnil : Whole [] := whole_of_split rfl rfl rfl
  simpa using hnil.append h

/-- Other characters in the place of some that are neither brackets nor separators. -/
theorem filter_map_marks {f : Char → Char} (hf : ∀ c, ∀ d ∈ ";,()".toList, f c = d ↔ c = d)
    (t : Text) : ((t.map f).filter fun c => decide (c ∈ ";,()".toList)) =
      t.filter fun c => decide (c ∈ ";,()".toList) := by
  induction t with
  | nil => rfl
  | cons c t ih =>
      by_cases hc : c ∈ ";,()".toList
      · have hsame : f c = c := (hf c c hc).mpr rfl
        rw [List.map_cons, hsame, List.filter_cons_of_pos (by simpa using hc),
          List.filter_cons_of_pos (by simpa using hc), ih]
      · have hfc : f c ∉ ";,()".toList := fun h => hc ((hf c _ h).mp rfl ▸ h)
        rw [List.map_cons, List.filter_cons_of_neg (by simpa using hfc),
          List.filter_cons_of_neg (by simpa using hc), ih]

theorem initial_of_mem_comparatorForms : ∀ form ∈ comparatorForms,
    ∃ c ∈ form.1.head?, c ∈ "=!<>".toList := by
  have hany : ∀ form ∈ comparatorForms,
      form.1.head?.any (fun c => decide (c ∈ "=!<>".toList)) = true := by
    decide
  intro form hform
  obtain ⟨c, hc, hmem⟩ := (Option.any_eq_true _ _).mp (hany form hform)
  exact ⟨c, hc, of_decide_eq_true hmem⟩

/-- The comparators that queries are written with. -/
def canonicalForms : List (Text × Operator × Option Text) :=
  comparatorForms.take 8

/-- A comparator that queries are written with stands in no other one and holds nothing that
stands between statements. -/
theorem canonicalForms_spec : ∀ form ∈ canonicalForms, form ∈ comparatorForms ∧
    (∀ other ∈ comparatorForms, form.1 <:+: other.1 → other.1 = form.1) ∧
      ∀ c ∈ form.1, c ∉ ";,()".toList := by
  have hforms : ∀ form ∈ canonicalForms, form ∈ comparatorForms ∧
      (∀ other ∈ comparatorForms, form.1 <:+: other.1 → other.1 = form.1) ∧
        form.1.all (fun c => decide (c ∉ ";,()".toList)) = true := by
    decide
  intro form hform
  obtain ⟨hmem, hlongest, hmarks⟩ := hforms form hform
  exact ⟨hmem, hlongest, List.all_iff_forall_prop.mp hmarks⟩

/-- A statement whose comparator, as it is written, goes with its operator. -/
def Canonical (s : Statement) : Prop :=
  (s.comparator, s.operator, s.extension?) ∈ canonicalForms

/-- Whatever comparator a statement was read with, it is written with one that goes with its
operator. -/
theorem Cut.canonical {t : Text} {s : Statement} (h : Cut t s) : Canonical s := by
  have hforms : ∀ form ∈ comparatorForms,
      (Statement.comparator ⟨[], form.2.1, [], form.2.2⟩, form.2) ∈ canonicalForms := by
    decide
  obtain ⟨comparator, hform, -⟩ := h
  exact hforms _ hform

/-- A property in which no comparator starts, not even one that ends in the comparator
behind the property. -/
def Unshadowed (property comparator : Text) : Prop :=
  ∀ before form after, form ∈ comparatorForms → property ++ comparator = before ++ form.1 ++ after →
    property.length ≤ before.length

theorem unshadowed_of_plain {property comparator : Text}
    (hplain : ∀ c ∈ property, c ∉ "=!<>".toList) : Unshadowed property comparator := by
  intro before form after hmem heq
  rw [List.append_assoc] at heq
  rcases List.append_eq_append_iff.mp heq with ⟨more, rfl, -⟩ | ⟨more, hmore, hrest⟩
  · simp
  · cases more with
    | nil => simp [hmore]
    | cons c more =>
        -- the comparator would start at a character of the property
        obtain ⟨d, hd, hinitial⟩ := initial_of_mem_comparatorForms form hmem
        obtain ⟨rest, hform⟩ := List.head?_eq_some_iff.mp hd
        rw [hform, List.cons_append, List.cons_append, List.cons.injEq] at hrest
        apply absurd hinitial
        apply hplain d
        simp [hmore, hrest.1]

/-- A text is cut where a comparator follows a plain property, if the value does not go on to
make another comparator of it. -/
theorem cut_of_plain {s : Statement} {comparator : Text}
    (hform : (comparator, s.operator, s.extension?) ∈ comparatorForms)
    (hproperty : s.property ≠ []) (hplain : ∀ c ∈ s.property, c ∉ "=!<>".toList)
    (hvalue : s.value ≠ []) (hhead : s.value.head? ≠ some '=') :
    Cut (s.property ++ comparator ++ s.value) s := by
  have hlonger : ∀ form ∈ comparatorForms, ∀ other ∈ comparatorForms, form.1 <+: other.1 →
      other.1 = form.1 ∨ other.1 = form.1 ++ ['='] := by
    decide
  refine ⟨comparator, hform, rfl, hproperty, hvalue, fun before form after hother heq => ?_,
    fun form after hother heq => ?_⟩
  · rw [List.append_assoc] at heq
    exact unshadowed_of_plain hplain before form after hother heq
  · rw [List.append_assoc, List.append_assoc] at heq
    replace heq := List.append_cancel_left heq
    rcases List.prefix_or_prefix_of_prefix ⟨after, heq.symm⟩ ⟨s.value, rfl⟩ with hstart | hstart
    · exact hstart.length_le
    · rcases hlonger _ hform form hother hstart with hsame | hmore
      · exact Nat.le_of_eq (congrArg List.length hsame)
      · -- the value would start with the last sign of the longer comparator
        rw [hmore, List.append_assoc] at heq
        rw [List.append_cancel_left heq] at hhead
        exact absurd rfl hhead

/-- A text is the text of a statement if its property holds nothing that has a meaning in a
query, its value is in one piece and it is cut between them. -/
theorem stmt_append {s : Statement} {comparator : Text}
    (hcomparator : ∀ c ∈ comparator, c ∉ ";,()".toList)
    (hproperty_ne_nil : s.property ≠ []) (hproperty : ∀ c ∈ s.property, c ∉ ";,()".toList)
    (hvalue : Whole s.value) (hcut : Cut (s.property ++ comparator ++ s.value) s) :
    Stmt (s.property ++ comparator ++ s.value) s := by
  refine ⟨?_, ?_, hcut⟩
  · rw [List.append_assoc]
    exact (hvalue.append hcomparator).append hproperty
  · obtain ⟨c, rest, hfirst⟩ := List.exists_cons_of_ne_nil hproperty_ne_nil
    have hc := hproperty c (by simp [hfirst])
    rw [hfirst]
    intro hopen
    rw [Option.some.inj hopen] at hc
    exact hc (by decide)

/-- What has no meaning in a query makes no comparator and parts nothing. -/
theorem plain_of_meaningless {property : Text} (h : ∀ c ∈ property, c ∉ "=!<>;,()".toList) :
    ∀ c ∈ property, c ∉ "=!<>".toList ∧ c ∉ ";,()".toList := by
  intro c hc
  have hnot := h c hc
  simp only [String.reduceToList, List.mem_cons, List.not_mem_nil, or_false, not_or] at hnot ⊢
  tauto

/-- A text is cut where a comparator that queries are written with stands, if no comparator
starts in the property before it; what the value is does not matter. -/
theorem cut_append_iff {s : Statement} {comparator : Text}
    (hform : (comparator, s.operator, s.extension?) ∈ canonicalForms)
    (hproperty : s.property ≠ []) (hvalue : s.value ≠ []) :
    Cut (s.property ++ comparator ++ s.value) s ↔ Unshadowed s.property comparator := by
  obtain ⟨hmem, hinside, -⟩ := canonicalForms_spec _ hform
  constructor
  · rintro ⟨-, -, -, -, -, hleft, -⟩ before form after hother heq
    apply hleft before form (after ++ s.value) hother
    rw [heq, List.append_assoc]
  · intro hunshadowed
    refine ⟨comparator, hmem, rfl, hproperty, hvalue, ?_, ?_⟩
    · intro before form after hother heq
      rw [List.append_assoc before] at heq
      rcases List.append_eq_append_iff.mp heq with ⟨more, rfl, -⟩ | ⟨more, hmore, hrest⟩
      · simp only [List.length_append]
        omega
      rcases List.append_eq_append_iff.mp hrest with ⟨rest, hfits, -⟩ | ⟨beyond, hbeyond, -⟩
      · apply hunshadowed before form rest hother
        rw [hmore, hfits, List.append_assoc]
      · -- the other comparator goes beyond this one, so it is this one
        rcases List.append_eq_append_iff.mp hmore with ⟨gap, rfl, hgap⟩ | ⟨start, hstart, rfl⟩
        · simp
        · have hsame := hinside _ hother ⟨start, beyond, hbeyond.symm⟩
          have hlength := congrArg List.length hsame
          simp only [hbeyond, List.length_append] at hlength
          rw [hstart, List.length_append]
          omega
    · intro form after hother heq
      rw [List.append_assoc, List.append_assoc] at heq
      have hsame := List.append_cancel_left heq
      rcases List.prefix_or_prefix_of_prefix ⟨after, hsame.symm⟩ ⟨s.value, rfl⟩ with hstart | hstart
      · exact hstart.length_le
      · exact Nat.le_of_eq (congrArg List.length (hinside form hother hstart.isInfix))

end Grammar

namespace Condition

mutual

/-- No compound in the condition has fewer than two children. -/
def Branching : Condition → Prop
  | .statement _ => True
  | .compound _ children => 2 ≤ children.length ∧ BranchingAll children

/-- No compound in the conditions has fewer than two children. -/
def BranchingAll : List Condition → Prop
  | [] => True
  | c :: cs => Branching c ∧ BranchingAll cs

end

/-- A value as a query holds it, when values are written by `write`. -/
def written (write : Text → Text) (value : Text) : Text :=
  write (value.map fun c => if c = '%' then '*' else c)

mutual

theorem mapValues_mapValues (f g : Text → Text) :
    ∀ c : Condition, (c.mapValues f).mapValues g = c.mapValues fun value => g (f value)
  | .statement s => rfl
  | .compound k children => by
      rw [mapValues, mapValues, mapValues, mapValuesOfAll_mapValuesOfAll f g children]

theorem mapValuesOfAll_mapValuesOfAll (f g : Text → Text) :
    ∀ cs : List Condition,
      mapValuesOfAll g (mapValuesOfAll f cs) = mapValuesOfAll (fun value => g (f value)) cs
  | [] => rfl
  | c :: cs => by
      rw [mapValuesOfAll, mapValuesOfAll, mapValuesOfAll, mapValues_mapValues f g c,
        mapValuesOfAll_mapValuesOfAll f g cs]

end

mutual

/-- What happens to values that no statement has does not matter. -/
theorem mapValues_congr {f g : Text → Text} :
    ∀ {c : Condition}, (∀ s ∈ c.statements, f s.value = g s.value) → c.mapValues f = c.mapValues g
  | .statement s, h => by
      rw [mapValues, mapValues, h s (by simp [statements])]
  | .compound k children, h => by
      rw [mapValues, mapValues, mapValuesOfAll_congr h]

theorem mapValuesOfAll_congr {f g : Text → Text} :
    ∀ {cs : List Condition}, (∀ s ∈ statementsOfAll cs, f s.value = g s.value) →
      mapValuesOfAll f cs = mapValuesOfAll g cs
  | [], _ => rfl
  | c :: cs, h => by
      rw [statementsOfAll, List.forall_mem_append] at h
      rw [mapValuesOfAll, mapValuesOfAll, mapValues_congr h.1, mapValuesOfAll_congr h.2]

end

mutual

theorem mapValues_id : ∀ c : Condition, c.mapValues id = c
  | .statement _ => rfl
  | .compound k children => by rw [mapValues, mapValuesOfAll_id children]

theorem mapValuesOfAll_id : ∀ cs : List Condition, mapValuesOfAll id cs = cs
  | [] => rfl
  | c :: cs => by rw [mapValuesOfAll, mapValues_id c, mapValuesOfAll_id cs]

end

/-- A condition stays the same if and only if the values of its statements do. -/
theorem mapValues_eq_self_iff {f : Text → Text} {c : Condition} :
    c.mapValues f = c ↔ ∀ s ∈ c.statements, f s.value = s.value := by
  constructor
  · intro hsame s hs
    have hstatements : c.statements.map (fun s => { s with value := f s.value }) =
        c.statements.map id := by
      rw [← statements_mapValues, hsame, List.map_id]
    exact congrArg Statement.value (List.map_inj_left.mp hstatements s hs)
  · intro h
    rw [mapValues_congr (g := id) h, mapValues_id]

section

variable {write : Text → Text}

/-- A statement that is written as an operand with its value as written. -/
def WrittenAsOperand (write : Text → Text) (s : Statement) : Prop :=
  Grammar.Operand (s.renderWith write) (.statement { s with value := written write s.value })

theorem renderAllWith_cons_cons (k : Connective) (c d : Condition) (cs : List Condition) :
    renderAllWith write k (c :: d :: cs) =
      renderChildWith write c ++ k.symbol :: renderAllWith write k (d :: cs) := by
  rw [renderAllWith, renderRestWith, renderAllWith, List.cons_append]

/-- Operands between the separators of a connective are what it joins. -/
theorem joined_of_children {k : Connective} {P : Text → List Condition → Prop}
    (hlast : ∀ {t c}, Grammar.Operand t c → P t [c])
    (hmore : ∀ {t c u cs}, Grammar.Operand t c → P u cs → P (t ++ k.symbol :: u) (c :: cs))
    {cs raws : List Condition} (hne : cs ≠ [])
    (h : List.Forall₂ (fun c raw => Grammar.Operand (renderChildWith write c) raw) cs raws) :
    P (renderAllWith write k cs) raws := by
  induction h with
  | nil => exact absurd rfl hne
  | @cons c raw cs raws hc hcs ih =>
      cases hcs with
      | nil =>
          rw [renderAllWith, renderRestWith, List.append_nil]
          exact hlast hc
      | cons hd hds =>
          rw [renderAllWith_cons_cons]
          exact hmore hc (ih (by simp))

/-- Two or more operands and what joins them make up a query. -/
theorem expr_of_children {k : Connective} {cs raws : List Condition} (hlength : 2 ≤ cs.length)
    (h : List.Forall₂ (fun c raw => Grammar.Operand (renderChildWith write c) raw) cs raws) :
    Grammar.Expr (renderAllWith write k cs) (.compound k raws) := by
  have hne : cs ≠ [] := by
    intro hnil
    simp [hnil] at hlength
  have hchained : Grammar.Chained k raws (.compound k raws) := by
    rw [h.length_eq] at hlength
    obtain ⟨c, d, raws, rfl⟩ : ∃ c d others, raws = c :: d :: others := by
      match raws, hlength with
      | c :: d :: others, _ => exact ⟨c, d, others, rfl⟩
    exact .many
  cases k with
  | and =>
      have hconjuncts : Grammar.Conjuncts (renderAllWith write .and cs) raws :=
        joined_of_children .last .more hne h
      exact ⟨_, .last hconjuncts hchained, .single _⟩
  | or =>
      have hdisjuncts : Grammar.Disjuncts (renderAllWith write .or cs) raws :=
        joined_of_children (fun hc => .last (.last hc) (.single _))
          (fun hc hds => .more (.last hc) (.single _) hds) hne h
      exact ⟨raws, hdisjuncts, hchained⟩

mutual

/-- A child is written as an operand: a statement as it is, a compound in brackets. -/
theorem operand_renderChildWith :
    ∀ {c : Condition}, c.Branching → (∀ s ∈ c.statements, WrittenAsOperand write s) →
      Grammar.Operand (renderChildWith write c) (c.mapValues (written write))
  | .statement s, _, hstatements => hstatements s (by simp [statements])
  | .compound k children, hbranching, hstatements => by
      obtain ⟨ds, hds, hc⟩ :=
        expr_of_children (k := k) hbranching.1 (operands_renderChildWith hbranching.2 hstatements)
      exact .group hds hc

theorem operands_renderChildWith :
    ∀ {cs : List Condition}, BranchingAll cs →
      (∀ s ∈ statementsOfAll cs, WrittenAsOperand write s) →
      List.Forall₂ (fun c raw => Grammar.Operand (renderChildWith write c) raw) cs
        (mapValuesOfAll (written write) cs)
  | [], _, _ => .nil
  | c :: cs, hbranching, hstatements => by
      rw [statementsOfAll, List.forall_mem_append] at hstatements
      exact .cons (operand_renderChildWith hbranching.1 hstatements.1)
        (operands_renderChildWith hbranching.2 hstatements.2)

end

/-- What a condition is written as is a query, whose tree is the condition with its values
as written. -/
theorem expr_renderWith {c : Condition} (hbranching : c.Branching)
    (hstatements : ∀ s ∈ c.statements, WrittenAsOperand write s) :
    Grammar.Expr (c.renderWith write) (c.mapValues (written write)) := by
  cases c with
  | statement s =>
      have hs : WrittenAsOperand write s := hstatements s (by simp [statements])
      exact ⟨_, .last (.last hs) (.single _), .single _⟩
  | compound k children =>
      exact expr_of_children hbranching.1 (operands_renderChildWith hbranching.2 hstatements)

/-- A written condition reads as the condition with its values changed, if each of them reads
as what it is changed to. -/
theorem parse_renderWith_eq {coding : ValueCoding} {f : Text → Text} {c : Condition}
    (hbranching : c.Branching) (hstatements : ∀ s ∈ c.statements, WrittenAsOperand write s)
    (hreadable : ∀ s ∈ c.statements, coding.Readable (written write s.value))
    (hvalues : ∀ s ∈ c.statements, coding.meaning (written write s.value) = f s.value) :
    parse coding (c.renderWith write) = .ok (c.mapValues f) := by
  rw [parse_eq_ok_iff]
  refine ⟨_, expr_renderWith hbranching hstatements, ?_, ?_⟩
  · rw [statements_mapValues, List.forall_mem_map]
    exact hreadable
  · rw [mapValues_mapValues]
    exact (mapValues_congr hvalues).symm

/-- A written condition reads as the condition if each of its values reads as it was. -/
theorem parse_renderWith {coding : ValueCoding} {c : Condition} (hbranching : c.Branching)
    (hstatements : ∀ s ∈ c.statements, WrittenAsOperand write s)
    (hreadable : ∀ s ∈ (c.mapValues (written write)).statements, coding.Readable s.value)
    (hvalues : ∀ s ∈ c.statements, coding.meaning (written write s.value) = s.value) :
    parse coding (c.renderWith write) = .ok c := by
  rw [statements_mapValues, List.forall_mem_map] at hreadable
  rw [parse_renderWith_eq (f := id) hbranching hstatements hreadable hvalues, mapValues_id]

end

end Condition

/-- A statement that a query can hold as it is: a property that holds nothing that has a
meaning in a query, a value in one piece that writing changes in its wildcards only, and a
comparator that goes with the operator. -/
structure Statement.Writable (s : Statement) : Prop where
  property_ne_nil : s.property ≠ []
  property : ∀ c ∈ s.property, c ∉ "=!<>;,()".toList
  value_ne_nil : s.value ≠ []
  star : '*' ∉ s.value
  escape : ¬ "\\_".toList <:+: s.value
  whole : Grammar.Whole s.value
  extension : if s.operator = .custom
    then s.extension? = some equalsIgnoringCase ∨ s.extension? = some notEqualsIgnoringCase
    else s.extension? = none

namespace Statement

theorem Writable.canonical {s : Statement} (h : s.Writable) : Grammar.Canonical s := by
  have hextension := h.extension
  unfold Grammar.Canonical
  cases hoperator : s.operator with
  | custom =>
      rw [if_pos hoperator] at hextension
      rcases hextension with heq | heq
      · rw [comparator, hoperator, heq]
        decide
      · rw [comparator, hoperator, heq]
        decide
  | equals | notEquals | greater | greaterEquals | less | lessEquals =>
      rw [if_neg (by simp [hoperator])] at hextension
      rw [comparator, hoperator, hextension]
      decide

/-- Writing a wildcard makes and takes no bracket and no separator. -/
theorem written_mark_iff (c : Char) :
    ∀ d ∈ ";,()".toList, (if c = '%' then '*' else c) = d ↔ c = d := by
  intro d hd
  by_cases hc : c = '%'
  · have hsigns : ∀ d ∈ ";,()".toList, '*' ≠ d ∧ '%' ≠ d :=
      List.all_iff_forall_prop.mp (by decide)
    rw [hc, if_pos rfl]
    exact iff_of_false (hsigns d hd).1 (hsigns d hd).2
  · rw [if_neg hc]

/-- A statement is written as an operand if its property holds nothing that has a meaning in a
query and its value is written in one piece. -/
theorem writtenAsOperand {write : Text → Text} {s : Statement} (hcanonical : Grammar.Canonical s)
    (hproperty_ne_nil : s.property ≠ []) (hproperty : ∀ c ∈ s.property, c ∉ "=!<>;,()".toList)
    (hvalue_ne_nil : Condition.written write s.value ≠ [])
    (hvalue : Grammar.Whole (Condition.written write s.value)) :
    Condition.WrittenAsOperand write s := by
  obtain ⟨-, -, hcomparator⟩ := Grammar.canonicalForms_spec _ hcanonical
  have hplain := Grammar.plain_of_meaningless hproperty
  have hcut := (Grammar.cut_append_iff (s := { s with value := Condition.written write s.value })
    hcanonical hproperty_ne_nil hvalue_ne_nil).mpr
      (Grammar.unshadowed_of_plain fun c hc => (hplain c hc).1)
  have hstmt := Grammar.stmt_append (s := { s with value := Condition.written write s.value })
    hcomparator hproperty_ne_nil (fun c hc => (hplain c hc).2) hvalue hcut
  exact hstmt.operand

theorem Writable.writtenAsOperand {s : Statement} (h : s.Writable) :
    Condition.WrittenAsOperand id s := by
  apply Statement.writtenAsOperand h.canonical h.property_ne_nil h.property
  · simpa [Condition.written] using h.value_ne_nil
  · exact h.whole.of_filter_eq (Grammar.filter_map_marks written_mark_iff s.value)

end Statement

/-- A character that another one is put in the place of is gone. -/
theorem notMem_map_replace {a b : Char} (hab : a ≠ b) (t : Text) :
    a ∉ t.map fun c => if c = a then b else c := by
  rw [List.mem_map]
  rintro ⟨c, -, hc⟩
  by_cases hsame : c = a
  · rw [if_pos hsame] at hc
    exact hab hc.symm
  · rw [if_neg hsame] at hc
    exact hsame hc

/-- A text with the escapes of its underscores undone. -/
def unescape : Text → Text
  | [] => []
  | '\\' :: '_' :: r => '_' :: unescape r
  | c :: r => c :: unescape r

theorem length_unescape_le (t : Text) : (unescape t).length ≤ t.length := by
  fun_induction unescape t with
  | case1 => simp
  | case2 r ih =>
      simp only [List.length_cons]
      omega
  | case3 c r _ ih => simpa using ih

/-- Undoing an escape makes a text shorter. -/
theorem length_unescape_lt {t : Text} (h : "\\_".toList <:+: t) :
    (unescape t).length < t.length := by
  fun_induction unescape t with
  | case1 => simp at h
  | case2 r ih =>
      have hle := length_unescape_le r
      simp only [List.length_cons]
      omega
  | case3 c r hc ih =>
      have hrest : "\\_".toList <:+: r := by
        rcases List.infix_cons_iff.mp h with ⟨rest, hrest⟩ | hrest
        · obtain ⟨rfl, rfl⟩ := List.cons.inj hrest
          exact (hc rest rfl rfl).elim
        · exact hrest
      simpa using ih hrest

theorem unescape_eq_self_iff {t : Text} : unescape t = t ↔ ¬ "\\_".toList <:+: t := by
  constructor
  · intro hsame hescape
    have hlt := length_unescape_lt hescape
    rw [hsame] at hlt
    exact Nat.lt_irrefl _ hlt
  · intro hescape
    fun_induction unescape t with
    | case1 => rfl
    | case2 r ih => exact absurd (List.prefix_append "\\_".toList r).isInfix hescape
    | case3 c r _ ih =>
        have hrest : ¬ "\\_".toList <:+: r := fun hr =>
          hescape (hr.trans (List.suffix_cons c r).isInfix)
        rw [ih hrest]

/-- An escape ends in an underscore, so none begins before a text without underscores. -/
theorem escape_infix_of_append {s t : Text} (ht : '_' ∉ t) (h : "\\_".toList <:+: s ++ t) :
    "\\_".toList <:+: s := by
  obtain ⟨before, after, heq⟩ := h
  rcases List.append_eq_append_iff.mp heq with ⟨more, hs, -⟩ | ⟨more, hbefore, hrest⟩
  · exact ⟨before, more, hs.symm⟩
  · rcases List.eq_nil_or_concat more with rfl | ⟨init, c, rfl⟩
    · exact ⟨before, [], by rw [hbefore, List.append_nil, List.append_nil]⟩
    · have hends : (before ++ ['\\']) ++ ['_'] = (s ++ init) ++ [c] := by simpa using hbefore
      obtain rfl : '_' = c := (List.cons.inj (List.append_inj' hends rfl).2).1
      exact absurd (by simp [hrest]) ht

theorem normalizeWildcards_eq_map (t : Text) :
    normalizeWildcards t = (unescape t).map fun c => if c = '*' then '%' else c := by
  fun_induction unescape t with
  | case1 => rfl
  | case2 r ih => rw [normalizeWildcards, ih, List.map_cons, if_neg (by decide)]
  | case3 c r hc ih => rw [normalizeWildcards, ih, List.map_cons]; exact hc

/-- Normalizing leaves a value without wildcards and escapes as it is. -/
theorem normalizeWildcards_eq_self {t : Text} (hstar : '*' ∉ t) (hescape : ¬ "\\_".toList <:+: t) :
    normalizeWildcards t = t := by
  rw [normalizeWildcards_eq_map, unescape_eq_self_iff.mpr hescape]
  refine (List.map_congr_left fun c hc => ?_).trans (List.map_id t)
  exact if_neg fun heq : c = '*' => hstar (heq ▸ hc)

/-- Other characters in the place of some that are no part of an escape. -/
theorem unescape_map {f : Char → Char} (hf : ∀ c, ∀ d ∈ "\\_".toList, f c = d ↔ c = d) (t : Text) :
    unescape (t.map f) = (unescape t).map f := by
  have hslash : ∀ c, f c = '\\' ↔ c = '\\' := fun c => hf c '\\' (by decide)
  have hunder : ∀ c, f c = '_' ↔ c = '_' := fun c => hf c '_' (by decide)
  fun_induction unescape t with
  | case1 => rfl
  | case2 r ih =>
      rw [List.map_cons, List.map_cons, (hslash _).mpr rfl, (hunder _).mpr rfl, unescape, ih,
        List.map_cons, (hunder _).mpr rfl]
  | case3 c r hc ih =>
      rw [List.map_cons, List.map_cons, unescape, ih]
      intro others hfirst hmap
      obtain ⟨d, rest, rfl, hd, -⟩ := List.map_eq_cons_iff.mp hmap
      exact hc rest ((hslash c).mp hfirst) (by rw [(hunder d).mp hd])

theorem mem_of_mem_unescape {t : Text} {c : Char} (h : c ∈ unescape t) : c ∈ t := by
  fun_induction unescape t with
  | case1 => exact h
  | case2 r ih =>
      rcases List.mem_cons.mp h with rfl | h
      · simp
      · simp [ih h]
  | case3 d r _ ih =>
      rcases List.mem_cons.mp h with rfl | h
      · simp
      · simp [ih h]

/-- Reading a value as it is written undoes the escapes in it, if nothing in it is taken for a
wildcard. -/
theorem normalizeWildcards_written_eq {value : Text} (hstar : '*' ∉ value) :
    normalizeWildcards (Condition.written id value) = unescape value := by
  have hsigns : ∀ c, ∀ d ∈ "\\_".toList, (if c = '%' then '*' else c) = d ↔ c = d := by
    intro c d hd
    simp only [String.reduceToList, List.mem_cons, List.not_mem_nil, or_false] at hd
    split <;> rcases hd with rfl | rfl <;> simp_all
  rw [Condition.written, id, normalizeWildcards_eq_map, unescape_map hsigns, List.map_map]
  refine (List.map_congr_left fun c hc => ?_).trans (List.map_id _)
  have hne : c ≠ '*' := fun heq => hstar (mem_of_mem_unescape (heq ▸ hc))
  by_cases hpercent : c = '%'
  · simp [hpercent]
  · simp [hpercent, hne]

/-- Reading a value as it is written gives it back, if nothing in it is taken for a wildcard
or an escape. -/
theorem normalizeWildcards_written {value : Text} (hstar : '*' ∉ value)
    (hescape : ¬ "\\_".toList <:+: value) :
    normalizeWildcards (Condition.written id value) = value := by
  rw [normalizeWildcards_written_eq hstar, unescape_eq_self_iff.mpr hescape]

namespace Condition

/-- Reading undoes writing: a condition with at least two children in every compound, all
of whose statements a query can hold as they are, reads back from what it is written as. -/
theorem parse_render {c : Condition} (hbranching : c.Branching)
    (hstatements : ∀ s ∈ c.statements, s.Writable) : parse .plain c.render = .ok c := by
  apply parse_renderWith hbranching
  · exact fun s hs => (hstatements s hs).writtenAsOperand
  · exact fun s _ => trivial
  · intro s hs
    exact normalizeWildcards_written (hstatements s hs).star (hstatements s hs).escape

/-- A group inside a group of the same connective, with brackets and separators in a value. -/
def grouped : Condition :=
  .compound .or
    [.compound .or
      [.statement ⟨"a".toList, .equals, "f(x;y,%)".toList, none⟩,
        .statement ⟨"b c".toList, .custom, "=%25".toList, some equalsIgnoringCase⟩],
      .compound .and
        [.statement ⟨"d".toList, .greaterEquals, "\\%_".toList, none⟩,
          .statement ⟨"e".toList, .notEquals, ">!=".toList, none⟩]]

/-- The group reads back as it is. -/
theorem parse_render_grouped : grouped.Branching ∧ (∀ s ∈ grouped.statements, s.Writable) ∧
    parse .plain grouped.render = .ok grouped := by
  have hwhole : ∀ s ∈ grouped.statements, Brackets.depth? 0 s.value = some 0 ∧
      Brackets.split ';' s.value = [s.value] ∧ Brackets.split ',' s.value = [s.value] := by
    decide
  have hproperty : ∀ s ∈ grouped.statements,
      s.property ≠ [] ∧ s.property.all (fun c => decide (c ∉ "=!<>;,()".toList)) = true := by
    decide
  have hvalue : ∀ s ∈ grouped.statements,
      s.value ≠ [] ∧ '*' ∉ s.value ∧ ¬ "\\_".toList <:+: s.value := by
    decide +kernel
  have hextension : ∀ s ∈ grouped.statements, if s.operator = .custom
      then s.extension? = some equalsIgnoringCase ∨ s.extension? = some notEqualsIgnoringCase
      else s.extension? = none := by
    decide
  have hbranching : grouped.Branching := by
    simp [grouped, Branching, BranchingAll]
  have hwritable : ∀ s ∈ grouped.statements, s.Writable := by
    intro s hs
    obtain ⟨hdepth, hand, hor⟩ := hwhole s hs
    obtain ⟨hne, hplain⟩ := hproperty s hs
    obtain ⟨hvalueNe, hstar, hescape⟩ := hvalue s hs
    exact ⟨hne, List.all_iff_forall_prop.mp hplain, hvalueNe, hstar, hescape,
      Grammar.whole_of_split hdepth hand hor, hextension s hs⟩
  exact ⟨hbranching, hwritable, parse_render hbranching hwritable⟩

end Condition

end QueryBatch
