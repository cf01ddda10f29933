/-
Delimiters.  Lines that are delimiters and lines between them that are none read as
the parts between the delimiters, each without the ending of its last line.
-/
import QueryBatch.Payload.Part
import QueryBatch.Proofs.Text.Cutting

namespace QueryBatch.Multipart

theorem isDelimiterLine_iff {line content : Text} :
    isDelimiterLine line content = true ↔
      ∃ rest, content = line ++ rest ∧ Text.allBlank rest = true := by
  unfold isDelimiterLine
  cases hdrop : Text.dropStart? line content with
  | none =>
      simp only [Bool.false_eq_true, false_iff, not_exists, not_and]
      intro rest heq
      rw [Text.dropStart?_eq_some_iff.mpr heq] at hdrop
      cases hdrop
  | some rest =>
      have heq := Text.dropStart?_eq_some_iff.mp hdrop
      constructor
      · exact fun hblank => ⟨rest, heq, hblank⟩
      · rintro ⟨rest', heq', hblank⟩
        rwa [List.append_cancel_left (heq.symm.trans heq')]

/-- An ending makes no delimiter of a line that is none. -/
theorem isDelimiterLine_append {line content ending : Text}
    (hline : ∀ c ∈ line, Text.isBlank c = false) (hending : Text.allBlank ending = true) :
    isDelimiterLine line (content ++ ending) = isDelimiterLine line content := by
  rw [Bool.eq_iff_iff, isDelimiterLine_iff, isDelimiterLine_iff]
  constructor
  · rintro ⟨rest, heq, hrest⟩
    rcases List.append_eq_append_iff.mp heq with ⟨more, rfl, rfl⟩ | ⟨more, rfl, rfl⟩
    · cases more with
      | nil => exact ⟨[], by simp, rfl⟩
      | cons c more =>
          have hblank := List.all_eq_true.mp hending c (by simp)
          rw [hline c (by simp)] at hblank
          cases hblank
    · refine ⟨more, rfl, ?_⟩
      rw [Text.allBlank, List.all_append, Bool.and_eq_true] at hrest
      exact hrest.1
  · rintro ⟨rest, rfl, hrest⟩
    refine ⟨rest ++ ending, by simp, ?_⟩
    rw [Text.allBlank, List.all_append, Bool.and_eq_true]
    exact ⟨hrest, hending⟩

/-- A text that is the delimiter with nothing but blanks behind it. -/
def Opens (m : Multipart) (content : Text) : Prop :=
  ∃ blanks, content = m.delimiter ++ blanks ∧ Text.allBlank blanks = true

/-- A text that is the close delimiter with nothing but blanks behind it. -/
def Closes (m : Multipart) (content : Text) : Prop :=
  ∃ blanks, content = m.closeDelimiter ++ blanks ∧ Text.allBlank blanks = true

variable {m : Multipart}

theorem opensPart_iff {content : Text} : m.opensPart content = true ↔ m.Opens content :=
  isDelimiterLine_iff

theorem endsParts_iff {content : Text} : m.endsParts content = true ↔ m.Closes content :=
  isDelimiterLine_iff

/-- The hyphens of a close delimiter are no blanks. -/
theorem Opens.not_closes {content : Text} (h : m.Opens content) : ¬ m.Closes content := by
  obtain ⟨blanks, rfl, hblanks⟩ := h
  rintro ⟨others, heq, -⟩
  have hhyphens : blanks = "--".toList ++ others := by
    rw [closeDelimiter, ← delimiter, List.append_assoc] at heq
    exact List.append_cancel_left heq
  rw [hhyphens] at hblanks
  cases hblanks

theorem Opens.endsParts_eq_false {content : Text} (h : m.Opens content) :
    m.endsParts content = false :=
  Bool.eq_false_iff.mpr fun hends => h.not_closes (endsParts_iff.mp hends)

/-- Texts of which the last one has lost its line ending. -/
def withoutLastEnding (texts : List Text) : List Text :=
  texts.dropLast ++ (texts.getLast?.map dropLineEnding).toList

theorem withoutLastEnding_concat (texts : List Text) (last : Text) :
    withoutLastEnding (texts ++ [last]) = texts ++ [dropLineEnding last] := by
  simp [withoutLastEnding]

theorem withoutLastEnding_append (texts : List Text) {others : List Text} (h : others ≠ []) :
    withoutLastEnding (texts ++ others) = texts ++ withoutLastEnding others := by
  obtain ⟨before, last, rfl⟩ := (List.eq_nil_or_concat others).resolve_left h
  rw [List.concat_eq_append, ← List.append_assoc, withoutLastEnding_concat,
    withoutLastEnding_concat, List.append_assoc]

theorem dropLineEnding_append (t : Text) : dropLineEnding (t ++ ['\r', '\n']) = t := by
  simp [dropLineEnding]

theorem dropLineEnding_eq (t : Text) :
    dropLineEnding t = t ∨ dropLineEnding t ++ ['\r', '\n'] = t := by
  fun_cases dropLineEnding t with
  | case1 r hreverse =>
      right
      rw [← List.reverse_reverse t, hreverse]
      simp
  | case2 => exact Or.inl rfl

/-- All that is lost of texts with their last ending is that ending. -/
theorem flatten_withoutLastEnding (texts : List Text) :
    (withoutLastEnding texts).flatten = texts.flatten ∨
      (withoutLastEnding texts).flatten ++ ['\r', '\n'] = texts.flatten := by
  rcases List.eq_nil_or_concat texts with rfl | ⟨before, last, rfl⟩
  · exact Or.inl rfl
  · rw [List.concat_eq_append, withoutLastEnding_concat, List.flatten_append, List.flatten_append,
      List.flatten_singleton, List.flatten_singleton, List.append_assoc]
    exact (dropLineEnding_eq last).imp (congrArg _) (congrArg _)

theorem length_withoutLastEnding (texts : List Text) :
    (withoutLastEnding texts).length = texts.length := by
  rcases List.eq_nil_or_concat texts with rfl | ⟨before, last, rfl⟩
  · rfl
  · rw [List.concat_eq_append, withoutLastEnding_concat, List.length_append, List.length_append]
    rfl

/-- What ends texts without their last ending has lost the same ending. -/
theorem exists_suffix_of_withoutLastEnding {texts rest : List Text}
    (h : rest <:+ withoutLastEnding texts) :
    ∃ others, others <:+ texts ∧ rest = withoutLastEnding others := by
  obtain ⟨before, hbefore⟩ := h
  have hlength := congrArg List.length hbefore
  rw [List.length_append, length_withoutLastEnding] at hlength
  by_cases hrest : rest = []
  · exact ⟨[], List.nil_suffix, hrest⟩
  · have hpositive := List.length_pos_iff.mpr hrest
    have hothers : texts.drop before.length ≠ [] := by
      intro hnil
      rw [List.drop_eq_nil_iff] at hnil
      omega
    have hcut := withoutLastEnding_append (texts.take before.length) hothers
    rw [List.take_append_drop, ← hbefore] at hcut
    have htake : before.length = (texts.take before.length).length := by
      rw [List.length_take]
      omega
    exact ⟨_, List.drop_suffix _ texts, (List.append_inj hcut htake).2⟩

theorem map_content_dropLastEnding (lines : List Line) :
    (dropLastEnding lines).map Line.content = withoutLastEnding (lines.map Line.content) := by
  fun_induction dropLastEnding lines with
  | case1 => rfl
  | case2 line => rfl
  | case3 line lines hne ih =>
      have hmap : lines.map Line.content ≠ [] := by
        intro hnil
        exact hne (List.map_eq_nil_iff.mp hnil)
      rw [List.map_cons, ih, List.map_cons]
      exact (withoutLastEnding_append [line.content] hmap).symm

/-- A text that is no delimiter. -/
def Inner (m : Multipart) (content : Text) : Prop :=
  m.opensPart content = false ∧ m.endsParts content = false

theorem inner_iff {content : Text} :
    m.Inner content ↔ ¬ m.Opens content ∧ ¬ m.Closes content := by
  rw [Inner, ← opensPart_iff, ← endsParts_iff, Bool.not_eq_true, Bool.not_eq_true]

/-- Lines next to each other, none of which is a delimiter. -/
def Block (m : Multipart) (lines block : List Line) : Prop :=
  block <:+: lines ∧ ∀ line ∈ block, m.Inner line.content

theorem Block.cons {lines block : List Line} (line : Line) (h : m.Block lines block) :
    m.Block (line :: lines) block :=
  ⟨h.1.trans (List.suffix_cons line lines).isInfix, h.2⟩

/-- The lines before the first delimiter start the lines, and every part is a block of the
lines without its last ending. -/
theorem blocks_of_groups? {lines current : List Line} {parts : List (List Line)}
    (h : m.groups? lines = some (current, parts)) :
    current <+: lines ∧ (∀ line ∈ current, m.Inner line.content) ∧
      ∀ part ∈ parts, ∃ block, part = dropLastEnding block ∧ m.Block lines block := by
  induction lines generalizing current parts with
  | nil => cases h
  | cons line lines ih =>
      rw [groups?] at h
      by_cases hends : m.endsParts line.content = true
      · rw [if_pos hends, Option.some.injEq, Prod.mk.injEq] at h
        obtain ⟨rfl, rfl⟩ := h
        exact ⟨List.nil_prefix, List.forall_mem_nil _, List.forall_mem_nil _⟩
      · rw [if_neg hends] at h
        obtain ⟨⟨ahead, others⟩, hgroups, hresult⟩ := Option.map_eq_some_iff.mp h
        dsimp only at hresult
        obtain ⟨hahead, hinner, hothers⟩ := ih hgroups
        have hblocks : ∀ part ∈ others, ∃ block, part = dropLastEnding block ∧
            m.Block (line :: lines) block := by
          intro part hpart
          obtain ⟨block, hdropped, hblock⟩ := hothers part hpart
          exact ⟨block, hdropped, hblock.cons line⟩
        by_cases hopens : m.opensPart line.content = true
        · rw [if_pos hopens, Prod.mk.injEq] at hresult
          obtain ⟨rfl, rfl⟩ := hresult
          have hfirst : m.Block lines ahead := ⟨hahead.isInfix, hinner⟩
          exact ⟨List.nil_prefix, List.forall_mem_nil _,
            List.forall_mem_cons.mpr ⟨⟨ahead, rfl, hfirst.cons line⟩, hblocks⟩⟩
        · rw [if_neg hopens, Prod.mk.injEq] at hresult
          obtain ⟨rfl, rfl⟩ := hresult
          have hline : m.Inner line.content := by
            simpa [Inner] using And.intro hopens hends
          exact ⟨List.cons_prefix_cons.mpr ⟨rfl, hahead⟩,
            List.forall_mem_cons.mpr ⟨hline, hinner⟩, hblocks⟩

/-- Without a close delimiter there are no parts. -/
theorem exists_endsParts_of_groups? {lines : List Line} {found : List Line × List (List Line)}
    (h : m.groups? lines = some found) : ∃ line ∈ lines, m.endsParts line.content = true := by
  induction lines generalizing found with
  | nil => cases h
  | cons line lines ih =>
      rw [groups?] at h
      by_cases hends : m.endsParts line.content = true
      · exact ⟨line, List.mem_cons_self, hends⟩
      · rw [if_neg hends] at h
        obtain ⟨others, hothers, -⟩ := Option.map_eq_some_iff.mp h
        obtain ⟨close, hclose, hcloses⟩ := ih hothers
        exact ⟨close, List.mem_cons_of_mem line hclose, hcloses⟩

theorem groups?_append {before rest : List Line} (h : ∀ line ∈ before, m.Inner line.content) :
    m.groups? (before ++ rest) =
      (m.groups? rest).map fun (current, parts) => (before ++ current, parts) := by
  induction before with
  | nil => simp
  | cons line before ih =>
      rw [List.forall_mem_cons] at h
      rw [List.cons_append, groups?, ih h.2]
      simp only [h.1.1, h.1.2, Bool.false_eq_true, if_false, Option.map_map]
      rfl

theorem groups?_cons_of_opensPart {line : Line} {rest : List Line}
    (hopens : m.opensPart line.content = true) (hends : m.endsParts line.content = false) :
    m.groups? (line :: rest) =
      (m.groups? rest).map fun (current, parts) => ([], dropLastEnding current :: parts) := by
  simp [groups?, hopens, hends]

/-- Bodies behind delimiters, and a close delimiter, read as the bodies. -/
theorem exists_groups? {opening closing : Text} (hopens : m.opensPart opening = true)
    (hopening : m.endsParts opening = false) (hcloses : m.endsParts closing = true)
    {bodies : List (List Text)} (hbodies : ∀ body ∈ bodies, ∀ t ∈ body, m.Inner t)
    {lines : List Line}
    (hlines : lines.map Line.content = bodies.flatMap (opening :: ·) ++ [closing]) :
    ∃ parts, m.groups? lines = some ([], parts) ∧
      parts.map (List.map Line.content) = bodies.map withoutLastEnding := by
  induction bodies generalizing lines with
  | nil =>
      obtain ⟨line, rfl, hline⟩ := List.map_eq_singleton_iff.mp hlines
      exact ⟨[], by simp [groups?, hline, hcloses], rfl⟩
  | cons body bodies ih =>
      rw [List.forall_mem_cons] at hbodies
      rw [List.flatMap_cons, List.cons_append, List.cons_append, List.append_assoc] at hlines
      obtain ⟨line, others, rfl, hline, hothers⟩ := List.map_eq_cons_iff.mp hlines
      obtain ⟨current, rest, rfl, hcurrent, hrest⟩ := List.map_eq_append_iff.mp hothers
      obtain ⟨parts, hgroups, hparts⟩ := ih hbodies.2 hrest
      have hinner : ∀ l ∈ current, m.Inner l.content := by
        intro l hl
        exact hbodies.1 _ (hcurrent ▸ List.mem_map_of_mem hl)
      refine ⟨dropLastEnding current :: parts, ?_, ?_⟩
      · rw [groups?_cons_of_opensPart (hline ▸ hopens) (hline ▸ hopening), groups?_append hinner,
          hgroups]
        simp
      · rw [List.map_cons, hparts, map_content_dropLastEnding, hcurrent, List.map_cons]

end QueryBatch.Multipart
