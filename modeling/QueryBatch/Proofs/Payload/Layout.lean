/-
Splitting as a partition.  Lines with a close delimiter among them have a layout: what
precedes the first delimiter, the delimiters with the lines behind each, the close delimiter,
and what follows it.  The parts are the groups of lines of that layout, in their order.
-/
import QueryBatch.Proofs.Failure
import QueryBatch.Proofs.Payload.Grouping

namespace QueryBatch

/-- How lines with a close delimiter among them fall apart. -/
structure Layout where
  preamble : List Line
  /-- The delimiters that open parts, each with the lines up to the next one. -/
  sections : List (Line × List Line)
  close : Line
  epilogue : List Line

namespace Layout

/-- The lines that are laid out. -/
def lines (l : Layout) : List Line :=
  l.preamble ++ (l.sections.flatMap fun s => s.1 :: s.2) ++ l.close :: l.epilogue

/-- The lines of each part, one group for each delimiter. -/
def groups (l : Layout) : List (List Line) :=
  l.sections.map Prod.snd

end Layout

namespace Multipart

/-- A layout in which the delimiters stand where they divide and nowhere else; the close
delimiter is the first of its kind. -/
structure LaysOut (m : Multipart) (l : Layout) : Prop where
  preamble : ∀ line ∈ l.preamble, ¬ m.Opens line.content ∧ ¬ m.Closes line.content
  delimiters : ∀ s ∈ l.sections, m.Opens s.1.content
  groups : ∀ s ∈ l.sections, ∀ line ∈ s.2, ¬ m.Opens line.content ∧ ¬ m.Closes line.content
  close : m.Closes l.close.content

/-- A group of lines as a part: its last line has lost a carriage return with a line feed, if
it ended in them, and all else is the same. -/
def Trimmed (group part : List Line) : Prop :=
  group = [] ∧ part = [] ∨
    ∃ before number content, part = before ++ [⟨number, content⟩] ∧
      (group = before ++ [⟨number, content ++ "\r\n".toList⟩] ∨
        group = before ++ [⟨number, content⟩] ∧ ¬ "\r\n".toList <:+ content)

variable {m : Multipart}

theorem LaysOut.inner_preamble {l : Layout} (h : m.LaysOut l) :
    ∀ line ∈ l.preamble, m.Inner line.content :=
  fun line hline => inner_iff.mpr (h.preamble line hline)

theorem LaysOut.inner_groups {l : Layout} (h : m.LaysOut l) :
    ∀ s ∈ l.sections, ∀ line ∈ s.2, m.Inner line.content :=
  fun s hs line hline => inner_iff.mpr (h.groups s hs line hline)

theorem dropLineEnding_eq_self {t : Text} (h : ¬ "\r\n".toList <:+ t) : dropLineEnding t = t := by
  rcases dropLineEnding_eq t with heq | heq
  · exact heq
  · exact absurd ⟨dropLineEnding t, heq⟩ h

theorem dropLastEnding_concat (lines : List Line) (last : Line) :
    dropLastEnding (lines ++ [last]) =
      lines ++ [{ last with content := dropLineEnding last.content }] := by
  induction lines with
  | nil => rfl
  | cons line lines ih =>
      rw [List.cons_append, dropLastEnding, ih, List.cons_append]
      simp

theorem trimmed_iff {group part : List Line} :
    Trimmed group part ↔ part = dropLastEnding group := by
  constructor
  · rintro (⟨rfl, rfl⟩ | ⟨before, number, content, rfl, rfl | ⟨rfl, hending⟩⟩)
    · rfl
    · rw [dropLastEnding_concat]
      dsimp only
      rw [show "\r\n".toList = ['\r', '\n'] from rfl, dropLineEnding_append]
    · rw [dropLastEnding_concat]
      dsimp only
      rw [dropLineEnding_eq_self hending]
  · rintro rfl
    rcases List.eq_nil_or_concat group with rfl | ⟨before, ⟨number, content⟩, rfl⟩
    · exact Or.inl ⟨rfl, rfl⟩
    · rw [List.concat_eq_append, dropLastEnding_concat]
      refine Or.inr ⟨before, number, dropLineEnding content, rfl, ?_⟩
      by_cases hending : "\r\n".toList <:+ content
      · obtain ⟨bare, rfl⟩ := hending
        left
        rw [show "\r\n".toList = ['\r', '\n'] from rfl, dropLineEnding_append]
      · right
        rw [dropLineEnding_eq_self hending]
        exact ⟨rfl, hending⟩

theorem forall₂_trimmed_iff {groups parts : List (List Line)} :
    List.Forall₂ Trimmed groups parts ↔ parts = groups.map dropLastEnding := by
  have hsame : ∀ group ∈ groups, ∀ part, Trimmed group part ↔ dropLastEnding group = part :=
    fun group _ part => trimmed_iff.trans eq_comm
  rw [forall₂_congr hsame, forall₂_eq_iff_map, eq_comm]

/-- Each delimiter of a layout starts a group, and the close delimiter ends the last one. -/
theorem groups?_sections {sections : List (Line × List Line)} {close : Line}
    (hopens : ∀ s ∈ sections, m.Opens s.1.content)
    (hgroups : ∀ s ∈ sections, ∀ line ∈ s.2, m.Inner line.content)
    (hclose : m.Closes close.content) (epilogue : List Line) :
    m.groups? ((sections.flatMap fun s => s.1 :: s.2) ++ close :: epilogue) =
      some ([], sections.map fun s => dropLastEnding s.2) := by
  induction sections with
  | nil => simp [groups?, endsParts_iff.mpr hclose]
  | cons s sections ih =>
      rw [List.forall_mem_cons] at hopens hgroups
      rw [List.flatMap_cons, List.append_assoc, List.cons_append,
        groups?_cons_of_opensPart (opensPart_iff.mpr hopens.1) hopens.1.endsParts_eq_false,
        groups?_append hgroups.1, ih hopens.2 hgroups.2]
      simp

theorem LaysOut.groups?_lines {l : Layout} (h : m.LaysOut l) :
    m.groups? l.lines = some (l.preamble, l.groups.map dropLastEnding) := by
  rw [Layout.lines, List.append_assoc, groups?_append h.inner_preamble,
    groups?_sections h.delimiters h.inner_groups h.close, Layout.groups, List.map_map]
  simp

/-- Lines with a close delimiter among them have a layout. -/
theorem exists_laysOut {lines : List Line} (h : ∃ line ∈ lines, m.Closes line.content) :
    ∃ l : Layout, m.LaysOut l ∧ l.lines = lines := by
  induction lines with
  | nil =>
      obtain ⟨line, hline, -⟩ := h
      cases hline
  | cons line lines ih =>
      by_cases hcloses : m.Closes line.content
      · exact ⟨⟨[], [], line, lines⟩,
          ⟨List.forall_mem_nil _, List.forall_mem_nil _, List.forall_mem_nil _, hcloses⟩, rfl⟩
      have hrest : ∃ line ∈ lines, m.Closes line.content := by
        obtain ⟨close, hclose, hcontent⟩ := h
        rcases List.mem_cons.mp hclose with rfl | hclose
        · exact absurd hcontent hcloses
        · exact ⟨close, hclose, hcontent⟩
      obtain ⟨l, hl, rfl⟩ := ih hrest
      by_cases hopens : m.Opens line.content
      · -- the lines before the first delimiter so far are the group of this one
        refine ⟨⟨[], (line, l.preamble) :: l.sections, l.close, l.epilogue⟩, ⟨List.forall_mem_nil _,
          List.forall_mem_cons.mpr ⟨hopens, hl.delimiters⟩,
          List.forall_mem_cons.mpr ⟨hl.preamble, hl.groups⟩, hl.close⟩, ?_⟩
        simp [Layout.lines]
      · exact ⟨{ l with preamble := line :: l.preamble },
          ⟨List.forall_mem_cons.mpr ⟨⟨hopens, hcloses⟩, hl.preamble⟩, hl.delimiters, hl.groups,
            hl.close⟩, rfl⟩

theorem LaysOut.split_lines {l : Layout} (h : m.LaysOut l) :
    m.split l.lines = .ok (l.groups.map dropLastEnding) := by
  rw [split, h.groups?_lines]

/-- Without a close delimiter the number of the first line is all that is told. -/
theorem split_eq_error {lines : List Line} (h : ∀ line ∈ lines, ¬ m.Closes line.content) :
    m.split lines = .error (.missingCloseDelimiter ((lines.head?.map Line.number).getD 0)) := by
  have hnone : m.groups? lines = none := by
    rw [Option.eq_none_iff_forall_ne_some]
    intro found hfound
    obtain ⟨line, hline, hends⟩ := exists_endsParts_of_groups? hfound
    exact h line hline (endsParts_iff.mp hends)
  rw [split, hnone]

theorem exists_split_iff {lines : List Line} :
    (∃ parts, m.split lines = .ok parts) ↔ ∃ line ∈ lines, m.Closes line.content := by
  constructor
  · rintro ⟨parts, hparts⟩
    by_contra hnone
    rw [split_eq_error fun line hline hcloses => hnone ⟨line, hline, hcloses⟩] at hparts
    cases hparts
  · intro hcloses
    obtain ⟨l, hl, rfl⟩ := exists_laysOut hcloses
    exact ⟨_, hl.split_lines⟩

/-- The parts are the groups of a layout of the lines. -/
theorem split_eq_ok_iff {lines : List Line} {parts : List (List Line)} :
    m.split lines = .ok parts ↔
      ∃ l : Layout, m.LaysOut l ∧ l.lines = lines ∧ List.Forall₂ Trimmed l.groups parts := by
  constructor
  · intro hparts
    obtain ⟨l, hl, rfl⟩ := exists_laysOut (exists_split_iff.mp ⟨parts, hparts⟩)
    rw [hl.split_lines] at hparts
    exact ⟨l, hl, rfl, forall₂_trimmed_iff.mpr (Except.ok.inj hparts).symm⟩
  · rintro ⟨l, hl, rfl, hparts⟩
    rw [hl.split_lines, forall₂_trimmed_iff.mp hparts]

theorem split_eq_error_iff {lines : List Line} {e : Error} :
    m.split lines = .error e ↔
      (∀ line ∈ lines, ¬ m.Closes line.content) ∧
        e = .missingCloseDelimiter ((lines.head?.map Line.number).getD 0) := by
  constructor
  · intro herror
    have hnone : ∀ line ∈ lines, ¬ m.Closes line.content := by
      intro line hline hcloses
      obtain ⟨parts, hparts⟩ := exists_split_iff.mpr ⟨line, hline, hcloses⟩
      rw [hparts] at herror
      cases herror
    rw [split_eq_error hnone] at herror
    exact ⟨hnone, (Except.error.inj herror).symm⟩
  · rintro ⟨hnone, rfl⟩
    exact split_eq_error hnone

/-- The delimiters before the first close delimiter. -/
def openings (m : Multipart) (lines : List Line) : List Line :=
  (lines.takeWhile fun line => !m.endsParts line.content).filter fun line =>
    m.opensPart line.content

theorem openings_append {before : List Line} (h : ∀ line ∈ before, m.Inner line.content)
    (rest : List Line) : m.openings (before ++ rest) = m.openings rest := by
  have hopen : ∀ line ∈ before, (!m.endsParts line.content) = true :=
    fun line hline => by rw [(h line hline).2]; rfl
  have hnone : (before.filter fun line => m.opensPart line.content) = [] := by
    rw [List.filter_eq_nil_iff]
    exact fun line hline => by simp [(h line hline).1]
  rw [openings, List.takeWhile_append_of_pos hopen, List.filter_append, hnone, List.nil_append,
    openings]

theorem openings_cons_of_opens {line : Line} (h : m.Opens line.content) (rest : List Line) :
    m.openings (line :: rest) = line :: m.openings rest := by
  simp [openings, h.endsParts_eq_false, opensPart_iff.mpr h]

theorem openings_cons_of_closes {line : Line} (h : m.Closes line.content) (rest : List Line) :
    m.openings (line :: rest) = [] := by
  simp [openings, endsParts_iff.mpr h]

theorem openings_sections {sections : List (Line × List Line)} {close : Line}
    (hopens : ∀ s ∈ sections, m.Opens s.1.content)
    (hgroups : ∀ s ∈ sections, ∀ line ∈ s.2, m.Inner line.content)
    (hclose : m.Closes close.content) (epilogue : List Line) :
    m.openings ((sections.flatMap fun s => s.1 :: s.2) ++ close :: epilogue) =
      sections.map Prod.fst := by
  induction sections with
  | nil => exact openings_cons_of_closes hclose epilogue
  | cons s sections ih =>
      rw [List.forall_mem_cons] at hopens hgroups
      rw [List.flatMap_cons, List.append_assoc, List.cons_append,
        openings_cons_of_opens hopens.1, openings_append hgroups.1, ih hopens.2 hgroups.2,
        List.map_cons]

/-- Each group of a layout has a delimiter of its own before it. -/
theorem LaysOut.openings_lines {l : Layout} (h : m.LaysOut l) :
    m.openings l.lines = l.sections.map Prod.fst := by
  rw [Layout.lines, List.append_assoc, openings_append h.inner_preamble]
  exact openings_sections h.delimiters h.inner_groups h.close l.epilogue

theorem length_of_split {lines : List Line} {parts : List (List Line)}
    (h : m.split lines = .ok parts) : parts.length = (m.openings lines).length := by
  obtain ⟨l, hl, rfl, hparts⟩ := split_eq_ok_iff.mp h
  rw [← hparts.length_eq, hl.openings_lines, Layout.groups, List.length_map, List.length_map]

/-- Splitting partitions lines.  It succeeds if and only if a close delimiter is among them,
and the parts are then the groups of lines behind the delimiters of their layout, each without
the line ending that belongs to the delimiter after it: one part for each delimiter before the
first close delimiter, whatever follows that.  It fails with the number of the first line. -/
theorem split_partitions (m : Multipart) (lines : List Line) :
    ((∃ parts, m.split lines = .ok parts) ↔ ∃ line ∈ lines, m.Closes line.content) ∧
    (∀ parts, m.split lines = .ok parts ↔
      ∃ l : Layout, m.LaysOut l ∧ l.lines = lines ∧ List.Forall₂ Trimmed l.groups parts) ∧
    (∀ parts, m.split lines = .ok parts → parts.length = (m.openings lines).length) ∧
    ∀ e, m.split lines = .error e ↔
      (∀ line ∈ lines, ¬ m.Closes line.content) ∧
        e = .missingCloseDelimiter ((lines.head?.map Line.number).getD 0) :=
  ⟨exists_split_iff, fun _ => split_eq_ok_iff, fun _ => length_of_split,
    fun _ => split_eq_error_iff⟩

end Multipart

end QueryBatch
