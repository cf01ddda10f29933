/-
Timestamps with an offset.  Restoring changes nothing but a space before a final offset, and it
cuts where characters end.  However a query writes the sign of a final offset, its search
condition compares with the timestamp as it was meant.
-/
import QueryBatch.Proofs.Conversion
import QueryBatch.Proofs.Shape

namespace QueryBatch

namespace Timestamp

/-- The digits of an offset. -/
structure IsOffset (digits : Text) : Prop where
  four : digits.length = 4
  digit : ∀ c ∈ digits, c.isDigit = true

/-- A text that ends in a space and an offset, with all before them on one line. -/
structure Spaced (t before digits : Text) : Prop where
  joined : t = before ++ ' ' :: digits
  line : '\n' ∉ before
  offset : IsOffset digits

section

variable {t before digits : Text}

theorem hasSpacedOffset_iff :
    hasSpacedOffset t.reverse = true ↔ ∃ before digits, Spaced t before digits := by
  constructor
  · intro h
    unfold hasSpacedOffset at h
    split at h
    · rename_i d₄ d₃ d₂ d₁ before ht
      simp only [Bool.and_eq_true, List.all_eq_true, Bool.not_eq_true', List.contains_eq_mem,
        decide_eq_false_iff_not] at h
      refine ⟨before.reverse, [d₁, d₂, d₃, d₄], ⟨?_, by simpa using h.2, rfl, h.1⟩⟩
      rw [← t.reverse_reverse, ht]
      simp
    · cases h
  · rintro ⟨before, digits, rfl, hline, hfour, hdigit⟩
    match digits, hfour with
    | [d₁, d₂, d₃, d₄], _ => simp_all [hasSpacedOffset]

theorem utf8Size_of_isDigit {c : Char} (h : c.isDigit = true) : c.utf8Size = 1 := by
  simp only [Char.isDigit, Bool.and_eq_true, decide_eq_true_eq] at h
  exact Char.utf8Size_eq_one_iff.mpr (UInt32.le_trans h.2 (by decide))

/-- Digits are one byte each. -/
theorem IsOffset.byteLength_eq (h : IsOffset digits) : digits.byteLength = 4 := by
  obtain ⟨hfour, hdigit⟩ := h
  match digits, hfour with
  | [d₁, d₂, d₃, d₄], _ => simp_all [utf8Size_of_isDigit]

theorem IsOffset.notMem (h : IsOffset digits) {c : Char} (hc : c.isDigit = false) : c ∉ digits :=
  fun hmem => Bool.false_ne_true (hc.symm.trans (h.digit c hmem))

/-- The byte offsets around the space are ends of characters. -/
theorem Spaced.cuts (h : Spaced t before digits) : 5 ≤ t.byteLength ∧
    t.splitAtByte? (t.byteLength - 5) = some (before, ' ' :: digits) ∧
    t.splitAtByte? (t.byteLength - 5 + 1) = some (before ++ [' '], digits) := by
  have hspace : Char.utf8Size ' ' = 1 := by decide
  have hlength : t.byteLength = before.byteLength + 5 := by
    rw [h.joined, Text.byteLength_append, Text.byteLength_cons, h.offset.byteLength_eq, hspace]
  refine ⟨by omega, Text.splitAtByte?_eq_some_iff.mpr ⟨h.joined, by omega⟩,
    Text.splitAtByte?_eq_some_iff.mpr ⟨?_, ?_⟩⟩
  · rw [h.joined, List.append_assoc, List.singleton_append]
  · rw [Text.byteLength_append, Text.byteLength_cons, hspace, hlength]
    rfl

theorem Spaced.putPlus?_eq (h : Spaced t before digits) :
    putPlus? t = some (before ++ '+' :: digits) := by
  obtain ⟨-, hbefore, hdigits⟩ := h.cuts
  simp [putPlus?, hbefore, hdigits]

theorem Spaced.restore_eq (h : Spaced t before digits) : restore t = before ++ '+' :: digits := by
  rw [restore, if_pos (hasSpacedOffset_iff.mpr ⟨before, digits, h⟩), h.putPlus?_eq,
    Option.getD_some]

theorem restore_eq_self (h : hasSpacedOffset t.reverse = false) : restore t = t := by
  rw [restore, h, if_neg Bool.false_ne_true]

/-- No space stands before an offset that follows a sign. -/
theorem IsOffset.not_hasSpacedOffset (h : IsOffset digits) {sign : Char} (hsign : sign ≠ ' ') :
    hasSpacedOffset (before ++ sign :: digits).reverse = false := by
  rw [Bool.eq_false_iff, ne_eq, hasSpacedOffset_iff]
  rintro ⟨before', digits', hjoined, -, hfour, -⟩
  have hlast := (List.append_inj' hjoined (by rw [List.length_cons, List.length_cons, h.four,
    hfour])).2
  exact hsign (List.cons.inj hlast).1

theorem IsOffset.restore_signed (h : IsOffset digits) :
    restore (before ++ '+' :: digits) = before ++ '+' :: digits :=
  restore_eq_self (h.not_hasSpacedOffset (by decide))

/-- A text and what it is restored to: with a `+` in the place of the space before a final offset,
or else the same.  The cuts are at characters, and nothing is left to restore. -/
structure Restored (t restored : Text) : Prop where
  stable : restore restored = restored
  byteLength : restored.byteLength = t.byteLength
  replaced : (∃ before digits, Spaced t before digits ∧ restored = before ++ '+' :: digits) ∨
    (¬ ∃ before digits, Spaced t before digits) ∧ restored = t
  sliced : hasSpacedOffset t.reverse = true → putPlus? t = some restored
  cuts : ∀ before digits, Spaced t before digits → 5 ≤ t.byteLength ∧
    t.splitAtByte? (t.byteLength - 5) = some (before, ' ' :: digits) ∧
    t.splitAtByte? (t.byteLength - 5 + 1) = some (before ++ [' '], digits)

theorem restored_restore (t : Text) : Restored t (restore t) := by
  by_cases hspaced : ∃ before digits, Spaced t before digits
  · obtain ⟨before, digits, h⟩ := hspaced
    rw [h.restore_eq]
    refine ⟨h.offset.restore_signed, ?_, Or.inl ⟨before, digits, h, rfl⟩, fun _ => h.putPlus?_eq,
      fun _ _ => Spaced.cuts⟩
    rw [h.joined, Text.byteLength_append, Text.byteLength_append]
    rfl
  · have hnone : hasSpacedOffset t.reverse = false :=
      Bool.eq_false_iff.mpr fun h => hspaced (hasSpacedOffset_iff.mp h)
    have hsame := restore_eq_self hnone
    rw [hsame]
    exact ⟨hsame, rfl, Or.inr ⟨hspaced, rfl⟩, by simp [hnone], fun _ _ => Spaced.cuts⟩

end

/-- The ways to write the sign of an offset in a query. -/
def signs : List Text :=
  ["+".toList, "%2B".toList, "%20".toList]

/-- A written sign is read as a space or as the sign. -/
theorem standsFor_of_mem_signs : ∀ sign ∈ signs,
    ∃ c, (c = ' ' ∨ c = '+') ∧ FormEncoding.StandsFor sign (Utf8.encode [c]) := by
  have hescaped : ∀ sign ∈ signs, FormEncoding.Escaped sign := fun sign hsign =>
    FormEncoding.badEscape?_eq_none_iff.mp <|
      (by decide : ∀ sign ∈ signs, FormEncoding.badEscape? 0 sign = none) sign hsign
  have hbytes : ∀ sign ∈ signs, FormEncoding.bytes sign = Utf8.encode [' '] ∨
      FormEncoding.bytes sign = Utf8.encode ['+'] := by
    decide
  intro sign hsign
  rcases hbytes sign hsign with hspace | hplus
  · exact ⟨' ', Or.inl rfl, hescaped sign hsign, hspace⟩
  · exact ⟨'+', Or.inr rfl, hescaped sign hsign, hplus⟩

end Timestamp

/-- No sign of an offset stands in the reserved value. -/
theorem SpecialAttr.isNull_eq_false {t : Text} (h : '+' ∈ t) : isNull t = false := by
  rw [isNull, beq_eq_false_iff_ne]
  intro hnull
  obtain ⟨mark, body, rfl⟩ := List.exists_cons_of_ne_nil (List.ne_nil_of_mem h)
  rw [ofText?] at hnull
  obtain ⟨hmark, hword⟩ := Option.ite_none_right_eq_some.mp hnull
  rw [ofWord?] at hword
  have hnone : (word null == (Text.dropLast? '$' body).getD body) = true :=
    List.find?_some (p := fun a => word a == (Text.dropLast? '$' body).getD body) hword
  rw [beq_iff_eq, eq_comm] at hnone
  have hbody : '+' ∉ body := by
    cases hdrop : Text.dropLast? '$' body with
    | none =>
        rw [hdrop, Option.getD_none] at hnone
        rw [hnone]
        decide
    | some rest =>
        rw [hdrop, Option.getD_some] at hnone
        rw [Text.dropLast?_eq_some_iff.mp hdrop, hnone]
        decide
  rcases List.mem_cons.mp h with rfl | hmem
  · exact absurd hmark (by decide)
  · exact hbody hmem

/-- What the parts of a query are free of in which a value is a timestamp with an offset. -/
structure OffsetQuery (property comparator value digits : Text) : Prop where
  property_ne_nil : property ≠ []
  property_plain : ∀ c ∈ property, c ∉ "=!<>;,()".toList
  property_attribute : SpecialAttr.ofText? property = none
  comparator_known : IsComparator comparator
  value_head : value.head? ≠ some '='
  value_plain : ∀ c ∈ value, c ∉ "%+*\n;,()".toList
  value_unescaped : ¬ "\\_".toList <:+: value
  offset : Timestamp.IsOffset digits

namespace SearchCond

open Timestamp (signs)

/-- An attribute is compared with a value as it is restored. -/
theorem exists_ofStatement_eq (target : Target) {s : Statement} {expression : Text}
    (hcanonical : Grammar.Canonical s) (hattribute : SpecialAttr.ofText? s.property = none)
    (hnull : SpecialAttr.isNull expression = false) :
    ∃ negated test, ∀ value, Timestamp.restore value = expression →
      ofStatement target { s with value := value } =
        .ok (negatedIf negated
          (ofAttrCond target.settings ⟨s.property, test, some expression⟩)) := by
  rcases Statement.test_of_canonical hcanonical with
    ⟨-, negated, ignoringCase, htest, -⟩ | ⟨-, test, htest⟩
  · refine ⟨negated, equalityTest expression ignoringCase, fun value hvalue => ?_⟩
    have hsame : Statement.test { s with value := value } =
        .ok (.equality negated ignoringCase) := htest
    simp [ofStatement, hsame, ofEquality, hattribute, hvalue, hnull]
  · refine ⟨false, test.attrTest, fun value hvalue => ?_⟩
    have hsame : Statement.test { s with value := value } = .ok (.order test) := htest
    simp [ofStatement, hsame, hvalue, negatedIf]

section

variable {property comparator value digits : Text}

/-- A value with a final offset, as it is written, is not empty, makes no other comparator of the
one before it and is in one piece. -/
theorem raw_spec (h : OffsetQuery property comparator value digits) : ∀ sign ∈ signs,
    value ++ sign ++ digits ≠ [] ∧ (value ++ sign ++ digits).head? ≠ some '=' ∧
      ∀ c ∈ value ++ sign ++ digits, c ∉ ";,()".toList := by
  have hsigns : ∀ sign ∈ signs, sign ≠ [] ∧ sign.head? ≠ some '=' ∧
      ";,()".toList.all (fun c => decide (c ∉ sign)) = true := by
    decide
  have hplain : ∀ c ∈ ";,()".toList, c ∈ "%+*\n;,()".toList :=
    List.all_iff_forall_prop.mp (by decide)
  have hdigit : ∀ c ∈ ";,()".toList, c.isDigit = false :=
    List.all_iff_forall_prop.mp (by decide)
  intro sign hsign
  obtain ⟨hne, hhead, hmarks⟩ := hsigns sign hsign
  refine ⟨by simp [hne], ?_, ?_⟩
  · match value, h.value_head with
    | [], _ => rwa [List.nil_append, List.head?_append_of_ne_nil _ hne]
    | c :: rest, hc => exact hc
  · intro c hc hmark
    rcases List.mem_append.mp hc with hc | hc
    · rcases List.mem_append.mp hc with hc | hc
      · exact h.value_plain c hc (hplain c hmark)
      · exact List.all_iff_forall_prop.mp hmarks c hmark hc
    · exact h.offset.notMem (hdigit c hmark) hc

/-- The statement of a query, whichever way the sign of the offset is written. -/
theorem stmt_of_offsetQuery (h : OffsetQuery property comparator value digits) :
    ∃ operator extension?, Grammar.Canonical ⟨property, operator, [], extension?⟩ ∧
      ∀ sign ∈ signs, Grammar.Stmt (property ++ comparator ++ (value ++ sign ++ digits))
        ⟨property, operator, value ++ sign ++ digits, extension?⟩ := by
  obtain ⟨⟨comparator, operator, extension?⟩, hform, rfl⟩ :=
    Grammar.isComparator_iff.mp h.comparator_known
  have hmarks : ∀ form ∈ Grammar.comparatorForms,
      form.1.all (fun c => decide (c ∉ ";,()".toList)) = true := by
    decide
  have hproperty := Grammar.plain_of_meaningless h.property_plain
  have hstmt : ∀ sign ∈ signs, Grammar.Stmt (property ++ comparator ++ (value ++ sign ++ digits))
      ⟨property, operator, value ++ sign ++ digits, extension?⟩ := by
    intro sign hsign
    obtain ⟨hraw_ne_nil, hhead, hraw⟩ := raw_spec h sign hsign
    have hcut := Grammar.cut_of_plain
      (s := ⟨property, operator, value ++ sign ++ digits, extension?⟩) hform h.property_ne_nil
      (fun c hc => (hproperty c hc).1) hraw_ne_nil hhead
    exact Grammar.stmt_append (List.all_iff_forall_prop.mp (hmarks _ hform)) h.property_ne_nil
      (fun c hc => (hproperty c hc).2) (Grammar.whole_of_plain hraw) hcut
  exact ⟨operator, extension?, (hstmt _ List.mem_cons_self).cut.canonical, hstmt⟩

/-- What a value with a final offset is read as and restored to. -/
theorem restore_meaning (h : OffsetQuery property comparator value digits) :
    ∀ sign ∈ signs, ValueCoding.formEncoded.Readable (value ++ sign ++ digits) ∧
      Timestamp.restore (ValueCoding.formEncoded.meaning (value ++ sign ++ digits)) =
        value ++ '+' :: digits := by
  have hplain : ∀ c ∈ "%+*\n;,()".toList, c ∉ value :=
    fun c hc hmem => h.value_plain c hmem hc
  have hvalue := (FormEncoding.encodes_self (hplain '+' (by decide))
    (hplain '%' (by decide))).standsFor
  have hdigits := (FormEncoding.encodes_self (h.offset.notMem (c := '+') (by decide))
    (h.offset.notMem (c := '%') (by decide))).standsFor
  intro sign hsign
  obtain ⟨c, hc, hwritten⟩ := Timestamp.standsFor_of_mem_signs sign hsign
  have hbytes := (hvalue.append hwritten).append hdigits
  rw [← Utf8.encode_append, ← Utf8.encode_append, List.append_assoc _ [c],
    List.singleton_append] at hbytes
  have hmeaning : ValueCoding.formEncoded.meaning (value ++ sign ++ digits) =
      value ++ c :: digits := by
    rw [ValueCoding.meaning, hbytes.2, Utf8.decode_encode]
    have hsign : c ≠ '*' ∧ '_' ≠ c := by rcases hc with rfl | rfl <;> decide
    apply normalizeWildcards_eq_self
    · rw [List.mem_append, List.mem_cons]
      rintro (hmem | rfl | hmem)
      · exact hplain '*' (by decide) hmem
      · exact hsign.1 rfl
      · exact h.offset.notMem (by decide) hmem
    · refine fun hescape => h.value_unescaped (escape_infix_of_append ?_ hescape)
      rw [List.mem_cons, not_or]
      exact ⟨hsign.2, h.offset.notMem (by decide)⟩
  refine ⟨hbytes.1, ?_⟩
  rw [hmeaning]
  rcases hc with rfl | rfl
  · exact Timestamp.Spaced.restore_eq ⟨rfl, hplain '\n' (by decide), h.offset⟩
  · exact h.offset.restore_signed

theorem ofQuery_offset (target : Target) (h : OffsetQuery property comparator value digits) :
    ∃ c cond, (∀ sign ∈ signs,
        ofQuery target (property ++ comparator ++ (value ++ sign ++ digits)) = .ok c) ∧
      c.leaves = [if target.settings.isAnyField property then .any cond else .attr cond] ∧
      cond.schema = property ∧ cond.expression? = some (value ++ '+' :: digits) := by
  obtain ⟨operator, extension?, hcanonical, hstmt⟩ := stmt_of_offsetQuery h
  have hnull : SpecialAttr.isNull (value ++ '+' :: digits) = false :=
    SpecialAttr.isNull_eq_false (by simp)
  obtain ⟨negated, test, heq⟩ :=
    exists_ofStatement_eq target hcanonical h.property_attribute hnull
  refine ⟨_, ⟨property, test, some (value ++ '+' :: digits)⟩, fun sign hsign => ?_,
    leaves_negatedIf negated _, rfl, rfl⟩
  obtain ⟨hreadable, hrestore⟩ := restore_meaning h sign hsign
  rw [ofQuery, Condition.parse_of_stmt (hstmt sign hsign) hreadable]
  exact congrArg (wrapErrors _) (heq _ hrestore)

end

/-- Offsets survive the decoding of values.  A comparison of an attribute with a value that ends
in an offset is made one search condition, whichever way the sign of the offset is written: one
leaf, which compares with the value, the sign as it was meant.  Restoring offsets changes
nothing else in a text. -/
theorem ofQuery_restores_offset (target : Target) :
    (∀ property comparator value digits : Text, OffsetQuery property comparator value digits →
      ∃ c cond, (∀ sign ∈ signs,
          ofQuery target (property ++ comparator ++ (value ++ sign ++ digits)) = .ok c) ∧
        c.leaves = [if target.settings.isAnyField property then .any cond else .attr cond] ∧
        cond.schema = property ∧ cond.expression? = some (value ++ '+' :: digits)) ∧
    ∀ t : Text, Timestamp.Restored t (Timestamp.restore t) :=
  ⟨fun _ _ _ _ h => ofQuery_offset target h, Timestamp.restored_restore⟩

theorem offsetQuery_created :
    OffsetQuery "creationDate".toList ">".toList "2. März 15:21".toList "0300".toList where
  property_ne_nil := by decide
  property_plain := List.all_iff_forall_prop.mp (by decide)
  property_attribute := by decide
  comparator_known := ⟨.greater, by decide⟩
  value_head := by decide
  value_plain := List.all_iff_forall_prop.mp (by decide)
  value_unescaped h :=
    absurd (h.subset (by decide : '\\' ∈ "\\_".toList))
      (by decide : '\\' ∉ "2. März 15:21".toList)
  offset := ⟨by decide, List.all_iff_forall_prop.mp (by decide)⟩

theorem ofQuery_restores_offset_created :
    OffsetQuery "creationDate".toList ">".toList "2. März 15:21".toList "0300".toList ∧
      ∃ c cond, (∀ sign ∈ signs, ofQuery ⟨.standard, none⟩
          ("creationDate".toList ++ ">".toList ++
            ("2. März 15:21".toList ++ sign ++ "0300".toList)) = .ok c) ∧
        c.leaves = [.any cond] ∧
        cond.expression? = some ("2. März 15:21".toList ++ '+' :: "0300".toList) := by
  obtain ⟨c, cond, hquery, hleaves, -, hexpression⟩ :=
    (ofQuery_restores_offset ⟨.standard, none⟩).1 _ _ _ _ offsetQuery_created
  have hfield : SearchSettings.standard.isAnyField "creationDate".toList = true := by decide
  rw [if_pos hfield] at hleaves
  exact ⟨offsetQuery_created, c, cond, hquery, hleaves, hexpression⟩

end SearchCond

end QueryBatch
