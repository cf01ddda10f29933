/-
Built queries, read by a reader that decodes values.  The escapes in the text settle where a
value ends, so a query is read as the tree that was built.  Its values come back but for what
decoding takes for a space or for an escape.
-/
import QueryBatch.Condition.Query
import QueryBatch.Proofs.Condition.Reparsing
import QueryBatch.Proofs.Text.Encoding

namespace QueryBatch

/-- A text with spaces in the place of its plus signs. -/
def spaced (t : Text) : Text :=
  t.map fun c => if c = '+' then ' ' else c

theorem spaced_eq_self_iff {t : Text} : spaced t = t ↔ '+' ∉ t := by
  constructor
  · intro hsame hplus
    have hall : ∀ c ∈ t, (if c = '+' then ' ' else c) = id c := by
      rw [← List.map_inj_left, List.map_id]
      exact hsame
    exact absurd (hall '+' hplus) (by decide)
  · intro hplus
    refine (List.map_congr_left fun c hc => ?_).trans (List.map_id t)
    exact if_neg fun heq : c = '+' => hplus (heq ▸ hc)

/-- What the value of a built query is read as. -/
def reread (value : Text) : Text :=
  unescape (spaced value)

/-- A value comes back as it is if there is neither a plus sign nor an escape in it. -/
theorem reread_eq_self_iff {value : Text} :
    reread value = value ↔ '+' ∉ value ∧ ¬ "\\_".toList <:+: value := by
  constructor
  · intro hsame
    -- Spaces leave the length as it is, and undoing an escape would shorten the value.
    have hescape : ¬ "\\_".toList <:+: spaced value := by
      intro hescape
      have hlt := length_unescape_lt hescape
      rw [← reread, hsame, spaced, List.length_map] at hlt
      exact Nat.lt_irrefl _ hlt
    have hspaced : spaced value = value := by
      rwa [reread, unescape_eq_self_iff.mpr hescape] at hsame
    exact ⟨spaced_eq_self_iff.mp hspaced, hspaced ▸ hescape⟩
  · rintro ⟨hplus, hescape⟩
    rw [reread, spaced_eq_self_iff.mpr hplus, unescape_eq_self_iff.mpr hescape]

/-- A character is written as an escape if it is a separator or a bracket, and as itself
otherwise. -/
theorem escapeSeparators_cons (c : Char) (t : Text) :
    (∃ high low, escapeSeparators (c :: t) = '%' :: high :: low :: escapeSeparators t ∧
      ∀ d ∈ ['%', high, low], d ∉ ";,()".toList) ∨
    (escapeSeparators (c :: t) = c :: escapeSeparators t ∧ c ∉ ";,()".toList) := by
  by_cases hc : c ∈ ";,()".toList
  · have hcases : c = ';' ∨ c = ',' ∨ c = '(' ∨ c = ')' := by simpa using hc
    rcases hcases with rfl | rfl | rfl | rfl
    · exact Or.inl ⟨'3', 'B', rfl, List.all_iff_forall_prop.mp (by decide)⟩
    · exact Or.inl ⟨'2', 'C', rfl, List.all_iff_forall_prop.mp (by decide)⟩
    · exact Or.inl ⟨'2', '8', rfl, List.all_iff_forall_prop.mp (by decide)⟩
    · exact Or.inl ⟨'2', '9', rfl, List.all_iff_forall_prop.mp (by decide)⟩
  · have hne : c ≠ ';' ∧ c ≠ ',' ∧ c ≠ '(' ∧ c ≠ ')' := by simpa using hc
    exact Or.inr ⟨by simp [escapeSeparators, hne], hc⟩

/-- Nothing in an escaped value ends it. -/
theorem plain_escapeSeparators (t : Text) : ∀ c ∈ escapeSeparators t, c ∉ ";,()".toList := by
  induction t with
  | nil => exact List.forall_mem_nil _
  | cons c t ih =>
      rcases escapeSeparators_cons c t with ⟨high, low, heq, hplain⟩ | ⟨heq, hplain⟩
      · rw [heq]
        exact List.forall_mem_append.mpr ⟨hplain, ih⟩
      · rw [heq]
        exact List.forall_mem_cons.mpr ⟨hplain, ih⟩

theorem whole_escapeSeparators (t : Text) : Grammar.Whole (escapeSeparators t) :=
  Grammar.whole_of_plain (plain_escapeSeparators t)

/-- An escaped value encodes the value, but for its plus signs: they are read as spaces. -/
theorem encodes_escapeSeparators {t : Text} (h : '%' ∉ t) :
    FormEncoding.Encodes (spaced t) (escapeSeparators t) := by
  refine ⟨t.map _, ?_, rfl⟩
  rw [spaced, List.forall₂_map_left_iff, List.forall₂_map_right_iff, List.forall₂_same]
  intro c hc
  by_cases hmark : c ∈ ";,()".toList
  · have hcases : c = ';' ∨ c = ',' ∨ c = '(' ∨ c = ')' := by simpa using hmark
    rcases hcases with rfl | rfl | rfl | rfl
    · exact FormEncoding.isWritten_of_isEscapeOf (by decide : String.utf8EncodeChar ';' = [0x3B])
        ⟨'3', 'B', .inl (by decide), .inr (by decide), rfl⟩
    · exact FormEncoding.isWritten_of_isEscapeOf (by decide : String.utf8EncodeChar ',' = [0x2C])
        ⟨'2', 'C', .inl (by decide), .inr (by decide), rfl⟩
    · exact FormEncoding.isWritten_of_isEscapeOf (by decide : String.utf8EncodeChar '(' = [0x28])
        ⟨'2', '8', .inl (by decide), .inl (by decide), rfl⟩
    · exact FormEncoding.isWritten_of_isEscapeOf (by decide : String.utf8EncodeChar ')' = [0x29])
        ⟨'2', '9', .inl (by decide), .inl (by decide), rfl⟩
  · obtain ⟨hand, hor, hopen, hclose⟩ : c ≠ ';' ∧ c ≠ ',' ∧ c ≠ '(' ∧ c ≠ ')' := by
      simpa using hmark
    rw [if_neg hand, if_neg hor, if_neg hopen, if_neg hclose]
    by_cases hplus : c = '+'
    · subst hplus
      exact .plus
    · rw [if_neg hplus]
      exact .literal hplus fun heq => h (heq ▸ hc)

namespace Condition

variable {value : Text}

theorem percent_notMem_written (value : Text) : '%' ∉ written id value :=
  notMem_map_replace (by decide) value

theorem written_escapeSeparators (value : Text) :
    written escapeSeparators value = escapeSeparators (written id value) :=
  rfl

theorem spaced_written (value : Text) : spaced (written id value) = written id (spaced value) := by
  simp only [spaced, written, id, List.map_map]
  refine List.map_congr_left fun c _ => ?_
  by_cases hpercent : c = '%'
  · simp [hpercent]
  · by_cases hplus : c = '+' <;> simp [hpercent, hplus]

theorem star_notMem_spaced (h : '*' ∉ value) : '*' ∉ spaced value := by
  rw [spaced, List.mem_map]
  rintro ⟨c, hc, heq⟩
  by_cases hplus : c = '+'
  · rw [if_pos hplus] at heq
    exact absurd heq (by decide)
  · rw [if_neg hplus] at heq
    exact h (heq ▸ hc)

/-- The value of a built query is decoded to what it was, but for its plus signs, and its
wildcards are normalized once more. -/
theorem meaning_written (h : '*' ∉ value) :
    ValueCoding.formEncoded.meaning (written escapeSeparators value) = reread value := by
  rw [ValueCoding.meaning, written_escapeSeparators,
    (encodes_escapeSeparators (percent_notMem_written value)).standsFor.2, Utf8.decode_encode,
    spaced_written,
    normalizeWildcards_written_eq (star_notMem_spaced h), reread]

theorem readable_written (value : Text) :
    ValueCoding.formEncoded.Readable (written escapeSeparators value) :=
  (encodes_escapeSeparators (percent_notMem_written value)).standsFor.1

theorem written_escapeSeparators_ne_nil (h : value ≠ []) : written escapeSeparators value ≠ [] := by
  obtain ⟨c, rest, rfl⟩ := List.exists_cons_of_ne_nil h
  rw [written, List.map_cons]
  rcases escapeSeparators_cons (if c = '%' then '*' else c)
    (rest.map fun c => if c = '%' then '*' else c) with ⟨_, _, heq, -⟩ | ⟨heq, -⟩ <;> simp [heq]

end Condition

/-- A statement that a built query can hold: its property holds nothing that has a meaning in a
query, its comparator goes with its operator, and its wildcards are normalized. -/
structure Statement.Built (s : Statement) : Prop where
  property_ne_nil : s.property ≠ []
  property : ∀ c ∈ s.property, c ∉ "=!<>;,()".toList
  canonical : Grammar.Canonical s
  value_ne_nil : s.value ≠ []
  star : '*' ∉ s.value

theorem Statement.Built.writtenAsOperand {s : Statement} (h : s.Built) :
    Condition.WrittenAsOperand escapeSeparators s :=
  Statement.writtenAsOperand h.canonical h.property_ne_nil h.property
    (Condition.written_escapeSeparators_ne_nil h.value_ne_nil) (whole_escapeSeparators _)

namespace Condition

theorem statementsOfAll_append (cs ds : List Condition) :
    statementsOfAll (cs ++ ds) = statementsOfAll cs ++ statementsOfAll ds := by
  induction cs with
  | nil => rfl
  | cons c cs ih => rw [List.cons_append, statementsOfAll, statementsOfAll, ih, List.append_assoc]

/-- Joining takes the statements of both conditions, whether or not it flattens the left one. -/
theorem statements_join (k : Connective) (left right : Condition) :
    (join k left right).statements = left.statements ++ right.statements := by
  cases left with
  | statement s => simp [join, statements, statementsOfAll]
  | compound l children =>
      rw [join]
      split <;> simp [statements, statementsOfAll, statementsOfAll_append]

theorem branching_join (k : Connective) {left right : Condition} (hleft : left.Branching)
    (hright : right.Branching) : (join k left right).Branching := by
  -- A left condition of the same connective only gains a child; all others become a pair.
  have hpair : (compound k [left, right]).Branching :=
    ⟨Nat.le_refl 2, hleft, hright, trivial⟩
  cases left with
  | statement s => exact hpair
  | compound l children =>
      by_cases hsame : l = k
      · obtain ⟨hlength, hchildren⟩ := hleft
        rw [join, if_pos hsame, Branching, List.length_append, branchingAll_iff,
          List.forall_mem_append, ← branchingAll_iff]
        exact ⟨by omega, hchildren, by simpa using hright⟩
      · rwa [join, if_neg hsame]

end Condition

namespace Query

/-- A query whose comparisons have a property, which holds nothing that has a meaning in a
query, and a value. -/
def Admissible : Query → Prop
  | .compare property _ value =>
      (property ≠ [] ∧ ∀ c ∈ property, c ∉ "=!<>;,()".toList) ∧ value ≠ []
  | .and left right => left.Admissible ∧ right.Admissible
  | .or left right => left.Admissible ∧ right.Admissible

theorem plain_literal (attr : SpecialAttr) :
    attr.literal ≠ [] ∧ ∀ c ∈ attr.literal, c ∉ "=!<>;,()".toList := by
  refine ⟨List.cons_ne_nil _ _, List.all_iff_forall_prop.mp ?_⟩
  cases attr <;> decide

theorem admissible_isNull {property : Text} (hne : property ≠ [])
    (hplain : ∀ c ∈ property, c ∉ "=!<>;,()".toList) : (isNull property).Admissible :=
  ⟨⟨hne, hplain⟩, (plain_literal .null).1⟩

theorem admissible_isNotNull {property : Text} (hne : property ≠ [])
    (hplain : ∀ c ∈ property, c ∉ "=!<>;,()".toList) : (isNotNull property).Admissible :=
  ⟨⟨hne, hplain⟩, (plain_literal .null).1⟩

theorem admissible_anyOf (attr : SpecialAttr) {values : List Text} (h : ∀ v ∈ values, v ≠ []) :
    (anyOf attr values).Admissible := by
  cases values with
  | nil => exact admissible_isNull (plain_literal attr).1 (plain_literal attr).2
  | cons v vs =>
      rw [List.forall_mem_cons] at h
      exact List.foldlRecOn vs _ ⟨plain_literal attr, h.1⟩
        fun q hq w hw => ⟨hq, plain_literal attr, h.2 w hw⟩

theorem admissible_noneOf (attr : SpecialAttr) {values : List Text} (h : ∀ v ∈ values, v ≠ []) :
    (noneOf attr values).Admissible := by
  cases values with
  | nil => exact admissible_isNotNull (plain_literal attr).1 (plain_literal attr).2
  | cons v vs =>
      rw [List.forall_mem_cons] at h
      exact List.foldlRecOn vs _ ⟨plain_literal attr, h.1⟩
        fun q hq w hw => ⟨hq, plain_literal attr, h.2 w hw⟩

theorem admissible_ofType {anyType : Text} (h : anyType ≠ []) : (ofType anyType).Admissible :=
  ⟨plain_literal .type, h⟩

theorem branching_condition (q : Query) : q.condition.Branching := by
  induction q with
  | compare => trivial
  | and left right ihleft ihright => exact Condition.branching_join .and ihleft ihright
  | or left right ihleft ihright => exact Condition.branching_join .or ihleft ihright

theorem canonical_compare (property : Text) (relation : Relation) (value : Text) :
    Grammar.Canonical ⟨property, relation.operator, value, relation.extension?⟩ := by
  have hforms : ∀ relation : Relation,
      (Statement.comparator ⟨[], relation.operator, [], relation.extension?⟩, relation.operator,
        relation.extension?) ∈ Grammar.canonicalForms := by
    intro relation
    cases relation <;> decide
  exact hforms relation

theorem Admissible.built {q : Query} (h : q.Admissible) :
    ∀ s ∈ q.condition.statements, s.Built := by
  induction q with
  | compare property relation value =>
      obtain ⟨⟨hne, hplain⟩, hvalue⟩ := h
      rw [condition, Condition.statements, List.forall_mem_singleton]
      exact ⟨hne, hplain, canonical_compare property relation _, normalizeWildcards_ne_nil hvalue,
        star_notMem_normalizeWildcards value⟩
  | and left right ihleft ihright =>
      rw [condition, Condition.statements_join, List.forall_mem_append]
      exact ⟨ihleft h.1, ihright h.2⟩
  | or left right ihleft ihright =>
      rw [condition, Condition.statements_join, List.forall_mem_append]
      exact ⟨ihleft h.1, ihright h.2⟩

/-- The text of a query reads as the condition of the query with its values reread: plus signs
become spaces, then escapes are undone.  It reads as the very condition if and only if no value
holds one or the other. -/
theorem parse_text {q : Query} (h : q.Admissible) :
    Condition.parse .formEncoded q.text = .ok (q.condition.mapValues reread) ∧
    (Condition.parse .formEncoded q.text = .ok q.condition ↔
      ∀ s ∈ q.condition.statements, '+' ∉ s.value ∧ ¬ "\\_".toList <:+: s.value) := by
  have hbuilt := h.built
  have hparse : Condition.parse .formEncoded q.text = .ok (q.condition.mapValues reread) := by
    apply Condition.parse_renderWith_eq q.branching_condition
    · exact fun s hs => (hbuilt s hs).writtenAsOperand
    · exact fun s _ => Condition.readable_written s.value
    · exact fun s hs => Condition.meaning_written (hbuilt s hs).star
  refine ⟨hparse, ?_⟩
  rw [hparse, Except.ok.injEq, Condition.mapValues_eq_self_iff]
  exact forall_congr' fun s => imp_congr_right fun _ => reread_eq_self_iff

/-- Names that hold separators, brackets, wildcards and what ends the fields of a form. -/
def selection : Query :=
  (inGroups ["a;b".toList, "(c,d".toList]).or
    ((ofType "=*&é%3B".toList).and ((isNotNull "full name".toList).and
      (notInRoles ["x".toList, "%".toList, ">".toList])))

/-- The selection with a value in which decoding takes signs for others. -/
def remarked : Query :=
  selection.and (.compare "remark".toList .lessThan "C++\\\\_".toList)

/-- The selection comes back as it was built, the value beside it does not. -/
theorem parse_text_remarked :
    (selection.Admissible ∧
      Condition.parse .formEncoded selection.text = .ok selection.condition) ∧
    remarked.Admissible ∧
      Condition.parse .formEncoded remarked.text =
        .ok (.compound .and [selection.condition,
          .statement ⟨"remark".toList, .less, "C  _".toList, none⟩]) ∧
      Condition.parse .formEncoded remarked.text ≠ .ok remarked.condition := by
  have hname : ∀ c ∈ "full name".toList, c ∉ "=!<>;,()".toList :=
    List.all_iff_forall_prop.mp (by decide)
  have hremark : ∀ c ∈ "remark".toList, c ∉ "=!<>;,()".toList :=
    List.all_iff_forall_prop.mp (by decide)
  have hselection : selection.Admissible :=
    ⟨admissible_anyOf .groups (by decide), admissible_ofType (by decide),
      admissible_isNotNull (by decide) hname, admissible_noneOf .roles (by decide)⟩
  have hremarked : remarked.Admissible := ⟨hselection, ⟨by decide, hremark⟩, by decide⟩
  obtain ⟨hparse, hiff⟩ := parse_text hremarked
  refine ⟨⟨hselection, (parse_text hselection).2.mpr (by decide +kernel)⟩, hremarked, ?_, ?_⟩
  · rw [hparse]
    decide +kernel
  · rw [Ne, hiff]
    decide +kernel

end Query

end QueryBatch
