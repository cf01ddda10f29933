/-
The lines of written payloads.  What is written for an item starts with a delimiter,
and none of the lines after it is one or declares another charset than UTF-8.
-/
import QueryBatch.Payload.Batch
import QueryBatch.Proofs.Payload.Declarations
import QueryBatch.Proofs.Payload.Grouping
import QueryBatch.Proofs.Payload.Headers
import QueryBatch.Proofs.Payload.StartLines

namespace QueryBatch

open Lines (Unbroken Ended Apart lines)
open ReadState (DeclaresOther contentType?)

variable {σ : Type}

/-- A boundary that is one word and no header. -/
def Multipart.Plain (media : Multipart) : Prop :=
  ∀ c ∈ media.boundary, Text.isBlank c = false ∧ c ≠ ':'

/-- What a payload can carry of a message besides its start line: header fields that are
written on one line for each value, and content without delimiters.  No line of them
declares another charset than UTF-8. -/
structure Item.Carried (media : Multipart) (item : Item σ) : Prop where
  wellFormed : item.headers.WellFormed
  names : ∀ field ∈ item.headers.entries,
    field.1 ≠ [] ∧ ∀ c ∈ field.1, Part.isHeaderName c = true
  values : ∀ field ∈ item.headers.entries, ∀ value ∈ field.2, '\r' ∉ value ∧ '\n' ∉ value
  headersInUtf8 : ∀ field ∈ item.headers.entries, ∀ value ∈ field.2,
    ¬ DeclaresOther (field.1 ++ ": ".toList ++ value)
  contentInner : ∀ line ∈ lines '\r' '\n' item.content, media.Inner line
  contentInUtf8 : ∀ line ∈ lines '\r' '\n' item.content, ¬ DeclaresOther line

/-- A message without any content type can be carried if no line of it is a delimiter. -/
theorem Item.carried_of_no_contentType {media : Multipart} {item : Item σ}
    (hwellFormed : item.headers.WellFormed)
    (hnames : ∀ field ∈ item.headers.entries,
      field.1 ≠ [] ∧ ∀ c ∈ field.1, Part.isHeaderName c = true)
    (hvalues : ∀ field ∈ item.headers.entries, ∀ value ∈ field.2, '\r' ∉ value ∧ '\n' ∉ value)
    (hfields : ∀ field ∈ item.headers.entries, ∀ value ∈ field.2,
      contentType? (field.1 ++ ": ".toList ++ value) = none)
    (hcontent : ∀ line ∈ lines '\r' '\n' item.content,
      (media.opensPart line = false ∧ media.endsParts line = false) ∧ contentType? line = none) :
    item.Carried media where
  wellFormed := hwellFormed
  names := hnames
  values := hvalues
  headersInUtf8 := fun field hfield value hvalue =>
    ReadState.not_declaresOther_of_contentType? (hfields field hfield value hvalue)
  contentInner := fun line hline => (hcontent line hline).1
  contentInUtf8 := fun line hline =>
    ReadState.not_declaresOther_of_contentType? (hcontent line hline).2

namespace Batch

/-- The texts of the header lines of a message. -/
def fieldTexts (h : Headers) : List Text :=
  h.fields.map fun field => field.1 ++ ": ".toList ++ field.2

/-- The texts of the header lines and of the blank line after them. -/
def headerTexts (h : Headers) : List Text :=
  if h.entries = [] then [] else fieldTexts h ++ [[]]

/-- The texts of the lines of every part before its start line. -/
def partHeaderTexts : List Text :=
  ["Content-Type: application/http".toList, "Content-Transfer-Encoding: binary".toList, []]

/-- The lines of content. -/
def contentLines (content : Text) : List Text :=
  if content = [] then [] else lines '\r' '\n' (endLine content)

/-- The lines of an item after its start line. -/
def messageLines (item : Item σ) : List Text :=
  (headerTexts item.headers).map endLine ++ contentLines item.content

/-- The lines of an item after its delimiter. -/
def partLines [StartLine σ] (item : Item σ) : List Text :=
  partHeaderTexts.map endLine ++ endLine (item.startLine?.getD []) :: messageLines item

theorem writeHeaders_eq (h : Headers) : writeHeaders h = (headerTexts h).flatMap endLine := by
  unfold writeHeaders headerTexts
  split
  · rfl
  · rw [List.flatMap_append, fieldTexts, Headers.fields, List.map_flatMap, List.flatMap_assoc]
    simp only [List.flatMap_map, List.flatMap_cons, List.flatMap_nil, List.append_nil,
      List.map_map]
    rfl

theorem writeItem_eq [StartLine σ] {media : Multipart} {item : Item σ} {line : Text}
    (hline : item.startLine? = some line) :
    writeItem media item =
      (media.delimiter :: partHeaderTexts ++ [line] ++ headerTexts item.headers).flatMap endLine ++
        if item.content = [] then [] else endLine item.content := by
  simp [writeItem, hline, partHeaderTexts, partHeaders, writeHeaders_eq]

theorem lines_flatMap_endLine_append {texts : List Text} (u : Text)
    (h : ∀ t ∈ texts, Unbroken '\r' '\n' t) :
    lines '\r' '\n' (texts.flatMap endLine ++ u) = texts.map endLine ++ lines '\r' '\n' u := by
  induction texts with
  | nil => rfl
  | cons t texts ih =>
      rw [List.forall_mem_cons] at h
      have hended : Ended '\r' '\n' (endLine t) := ⟨t, "\r\n".toList, rfl, h.1, Or.inl rfl⟩
      have hapart : Apart '\r' '\n' (endLine t) (texts.flatMap endLine ++ u) := by
        rintro ⟨hlast, -⟩
        simp [endLine] at hlast
      rw [List.flatMap_cons, List.append_assoc, Lines.lines_append_of_ended (by decide) hended
        hapart, ih h.2, List.map_cons, List.cons_append]

theorem lines_content_append (content u : Text) :
    lines '\r' '\n' ((if content = [] then [] else endLine content) ++ u) =
      contentLines content ++ lines '\r' '\n' u := by
  unfold contentLines
  split
  · rfl
  · exact Lines.lines_append_of_getLast? (by decide) (by simp [endLine])

theorem unbroken_of_isHeaderName {name : Text} (h : ∀ c ∈ name, Part.isHeaderName c = true) :
    Unbroken '\r' '\n' name :=
  Lines.unbroken_iff.mpr ⟨fun hmem => absurd (h _ hmem) (by decide),
    fun hmem => absurd (h _ hmem) (by decide)⟩

variable {media : Multipart} {item : Item σ}

theorem unbroken_fieldTexts (h : item.Carried media) :
    ∀ t ∈ fieldTexts item.headers, Unbroken '\r' '\n' t := by
  intro t ht
  obtain ⟨⟨name, value⟩, hmem, rfl⟩ := List.mem_map.mp ht
  obtain ⟨field, hfield, rfl, hvalue⟩ := Headers.mem_fields_iff.mp hmem
  have hseparator : Unbroken '\r' '\n' ": ".toList := Lines.unbroken_of_all (by decide)
  have hplain : Unbroken '\r' '\n' value :=
    Lines.unbroken_iff.mpr (h.values field hfield value hvalue)
  rw [Lines.unbroken_append, Lines.unbroken_append]
  exact ⟨⟨unbroken_of_isHeaderName (h.names field hfield).2, hseparator⟩, hplain⟩

theorem unbroken_headerTexts (h : item.Carried media) :
    ∀ t ∈ headerTexts item.headers, Unbroken '\r' '\n' t := by
  unfold headerTexts
  split
  · simp
  · rw [List.forall_mem_append]
    exact ⟨unbroken_fieldTexts h, by simp [Unbroken]⟩

theorem hyphens_plain : ∀ c ∈ ['-', '-'], Text.isBlank c = false ∧ c ≠ ':' := by
  intro c hc
  obtain rfl : c = '-' := by simpa using hc
  decide

theorem delimiter_plain (h : media.Plain) :
    ∀ c ∈ media.delimiter, Text.isBlank c = false ∧ c ≠ ':' :=
  List.forall_mem_append.mpr ⟨hyphens_plain, h⟩

theorem closeDelimiter_plain (h : media.Plain) :
    ∀ c ∈ media.closeDelimiter, Text.isBlank c = false ∧ c ≠ ':' :=
  List.forall_mem_append.mpr ⟨delimiter_plain h, hyphens_plain⟩

theorem unbroken_of_plain {t : Text} (h : ∀ c ∈ t, Text.isBlank c = false ∧ c ≠ ':') :
    Unbroken '\r' '\n' t :=
  Lines.unbroken_of_not_isBlank fun c hc => (h c hc).1

variable [StartLine σ]

theorem lines_writeItem_append (hmedia : media.Plain) (h : item.Carried media)
    (hstart : StartLine.Restorable item.start) (u : Text) :
    lines '\r' '\n' (writeItem media item ++ u) =
      endLine media.delimiter :: partLines item ++ lines '\r' '\n' u := by
  obtain ⟨line, hline⟩ := hstart
  have hwritten : item.startLine? = some line := hline.written
  have hunbroken : ∀ t ∈ media.delimiter :: partHeaderTexts ++ [line] ++ headerTexts item.headers,
      Unbroken '\r' '\n' t := by
    have hpart : ∀ t ∈ partHeaderTexts, t.all (fun c => c != '\r' && c != '\n') = true := by
      decide
    rw [List.forall_mem_append, List.forall_mem_append, List.forall_mem_cons]
    exact ⟨⟨⟨unbroken_of_plain (delimiter_plain hmedia),
      fun t ht => Lines.unbroken_of_all (hpart t ht)⟩,
      by simpa using hline.unbroken⟩, unbroken_headerTexts h⟩
  rw [writeItem_eq hwritten, List.append_assoc, lines_flatMap_endLine_append _ hunbroken,
    lines_content_append, partLines, messageLines, hwritten]
  simp

/-- The lines of a payload: each part behind its delimiter, and the close delimiter. -/
theorem lines_write (hmedia : media.Plain) {items : List (Item σ)}
    (h : ∀ item ∈ items, item.Carried media ∧ StartLine.Restorable item.start) :
    lines '\r' '\n' (write media items) =
      (items.map partLines).flatMap (endLine media.delimiter :: ·) ++
        [endLine media.closeDelimiter] := by
  unfold write
  induction items with
  | nil =>
      have hclose : ∀ t ∈ [media.closeDelimiter], Unbroken '\r' '\n' t := by
        simpa using unbroken_of_plain (closeDelimiter_plain hmedia)
      simpa using lines_flatMap_endLine_append [] hclose
  | cons item items ih =>
      rw [List.forall_mem_cons] at h
      rw [List.flatMap_cons, List.append_assoc, lines_writeItem_append hmedia h.1.1 h.1.2, ih h.2]
      simp

omit [StartLine σ]

/-- A text is no delimiter if it is no line of one word, whatever the word. -/
theorem inner_of_not_isDelimiterLine (hmedia : media.Plain) {t : Text}
    (h : ∀ line : Text, (∀ c ∈ line, Text.isBlank c = false ∧ c ≠ ':') →
      Multipart.isDelimiterLine line t ≠ true) : media.Inner t :=
  ⟨Bool.eq_false_iff.mpr (h _ (delimiter_plain hmedia)),
    Bool.eq_false_iff.mpr (h _ (closeDelimiter_plain hmedia))⟩

theorem inner_of_colon (hmedia : media.Plain) {t : Text} (ht : ':' ∈ t) : media.Inner t := by
  apply inner_of_not_isDelimiterLine hmedia
  intro line hline hdelimiter
  obtain ⟨rest, rfl, hrest⟩ := Multipart.isDelimiterLine_iff.mp hdelimiter
  rcases List.mem_append.mp ht with hmem | hmem
  · exact (hline ':' hmem).2 rfl
  · exact absurd (List.all_eq_true.mp hrest ':' hmem) (by decide)

theorem inner_of_head? {t : Text} (ht : t.head? ≠ some '-') : media.Inner t := by
  have hnot : ∀ line : Text, line.head? = some '-' →
      Multipart.isDelimiterLine line t = false := by
    intro line hline
    refine Bool.eq_false_iff.mpr fun hdelimiter => ht ?_
    obtain ⟨rest, rfl, -⟩ := Multipart.isDelimiterLine_iff.mp hdelimiter
    rw [List.head?_append, hline, Option.some_or]
  exact ⟨hnot _ rfl, hnot _ rfl⟩

theorem allBlank_lineEnding : Text.allBlank "\r\n".toList = true := by
  decide

theorem opensPart_delimiter (media : Multipart) :
    media.opensPart (endLine media.delimiter) = true :=
  Multipart.isDelimiterLine_iff.mpr ⟨"\r\n".toList, rfl, allBlank_lineEnding⟩

theorem endsParts_closeDelimiter (media : Multipart) :
    media.endsParts (endLine media.closeDelimiter) = true :=
  Multipart.isDelimiterLine_iff.mpr ⟨"\r\n".toList, rfl, allBlank_lineEnding⟩

theorem endsParts_delimiter (media : Multipart) :
    media.endsParts (endLine media.delimiter) = false :=
  Multipart.Opens.endsParts_eq_false ⟨"\r\n".toList, rfl, allBlank_lineEnding⟩

/-- A line of one word declares no content type. -/
theorem contentType?_endLine {t : Text} (ht : ∀ c ∈ t, Text.isBlank c = false ∧ c ≠ ':') :
    ReadState.contentType? (endLine t) = none := by
  refine ReadState.contentType?_eq_none_of_notMem fun hmem => ?_
  rcases List.mem_append.mp hmem with hmem | hmem
  · exact (ht ':' hmem).2 rfl
  · exact absurd hmem (by decide)

/-- A line that neither parts the payload nor changes how it is read. -/
def Ordinary (media : Multipart) (t : Text) : Prop :=
  media.Inner t ∧ ¬ DeclaresOther t

/-- An ending makes no delimiter of a line, and undoes none. -/
theorem inner_append_iff (hmedia : media.Plain) {t ending : Text}
    (hending : Text.allBlank ending = true) : media.Inner (t ++ ending) ↔ media.Inner t := by
  have hopens : media.opensPart (t ++ ending) = media.opensPart t :=
    Multipart.isDelimiterLine_append (fun c hc => (delimiter_plain hmedia c hc).1) hending
  have hends : media.endsParts (t ++ ending) = media.endsParts t :=
    Multipart.isDelimiterLine_append (fun c hc => (closeDelimiter_plain hmedia c hc).1) hending
  rw [Multipart.Inner, hopens, hends, Multipart.Inner]

theorem inner_endLine (hmedia : media.Plain) {t : Text} (h : media.Inner t) :
    media.Inner (endLine t) :=
  (inner_append_iff hmedia allBlank_lineEnding).mpr h

theorem ordinary_append_iff (hmedia : media.Plain) {t ending : Text}
    (hending : Text.allBlank ending = true) : Ordinary media (t ++ ending) ↔ Ordinary media t :=
  and_congr (inner_append_iff hmedia hending)
    (not_congr (ReadState.declaresOther_append_iff hending))

theorem Ordinary.endLine (hmedia : media.Plain) {t : Text} (h : Ordinary media t) :
    Ordinary media (endLine t) :=
  (ordinary_append_iff hmedia allBlank_lineEnding).mpr h

theorem ordinary_nil : Ordinary media [] :=
  ⟨inner_of_head? (by simp), ReadState.not_declaresOther_of_contentType? rfl⟩

theorem ordinary_partHeaderTexts (hmedia : media.Plain) :
    ∀ t ∈ partHeaderTexts, Ordinary media t := by
  have htype : ¬ DeclaresOther "Content-Type: application/http".toList := by
    have hvalue : contentType? "Content-Type: application/http".toList =
        some "application/http".toList := by decide
    have hparameters : (MediaType.parse "application/http".toList).map MediaType.parameters =
        .ok [] := rfl
    rintro ⟨value, parsed, label, hvalue', hparsed, hlabel, -⟩
    rw [hvalue, Option.some.injEq] at hvalue'
    rw [hvalue', hparsed] at hparameters
    rw [MediaType.parameter?, Except.ok.inj hparameters] at hlabel
    cases hlabel
  have hencoding : contentType? "Content-Transfer-Encoding: binary".toList = none := by
    decide
  simp only [partHeaderTexts, List.forall_mem_cons]
  refine ⟨⟨inner_of_colon hmedia (by decide), htype⟩,
    ⟨inner_of_colon hmedia (by decide), ReadState.not_declaresOther_of_contentType? hencoding⟩,
    ordinary_nil, by simp⟩

theorem ordinary_headerTexts (hmedia : media.Plain) (h : item.Carried media) :
    ∀ t ∈ headerTexts item.headers, Ordinary media t := by
  unfold headerTexts
  split
  · simp
  · rw [List.forall_mem_append]
    refine ⟨?_, by simpa using ordinary_nil⟩
    intro t ht
    obtain ⟨⟨name, value⟩, hmem, rfl⟩ := List.mem_map.mp ht
    obtain ⟨field, hfield, rfl, hvalue⟩ := Headers.mem_fields_iff.mp hmem
    exact ⟨inner_of_colon hmedia (by simp), h.headersInUtf8 field hfield value hvalue⟩

theorem ordinary_contentLines (hmedia : media.Plain) (h : item.Carried media) :
    ∀ t ∈ contentLines item.content, Ordinary media t := by
  have hlines : ∀ l ∈ lines '\r' '\n' item.content, Ordinary media l :=
    fun l hl => ⟨h.contentInner l hl, h.contentInUtf8 l hl⟩
  unfold contentLines
  split
  · simp
  · exact Lines.forall_mem_lines_append_ending (by decide)
      (ordinary_nil.endLine hmedia) (fun t ht => ht.endLine hmedia) hlines

theorem ordinary_of_restored {start : σ} [StartLine σ] {line : Text}
    (h : StartLine.Restored start line) : Ordinary media line := by
  obtain ⟨c, rest, rfl, hc⟩ := h.initial
  have hletter : c ≠ '-' ∧ Text.isBlank c = false ∧ c ≠ ':' ∧ c.toLower ≠ 'c' := by
    rcases hc with rfl | rfl | rfl <;> decide
  obtain ⟨hhyphen, hblank, hcolon, hletter⟩ := hletter
  refine ⟨inner_of_head? (by simpa using hhyphen), ?_⟩
  exact ReadState.not_declaresOther_of_contentType?
    (ReadState.contentType?_eq_none_of_initial hblank hcolon hletter)

/-- No line of a part is a delimiter or declares another charset. -/
theorem ordinary_partLines [StartLine σ] (hmedia : media.Plain) (h : item.Carried media)
    (hstart : StartLine.Restorable item.start) : ∀ t ∈ partLines item, Ordinary media t := by
  obtain ⟨line, hline⟩ := hstart
  have hwritten : item.startLine? = some line := hline.written
  unfold partLines messageLines
  rw [hwritten, List.forall_mem_append, List.forall_mem_cons, List.forall_mem_append,
    List.forall_mem_map, List.forall_mem_map]
  exact ⟨fun t ht => (ordinary_partHeaderTexts hmedia t ht).endLine hmedia,
    (ordinary_of_restored hline).endLine hmedia,
    fun t ht => (ordinary_headerTexts hmedia h t ht).endLine hmedia,
    ordinary_contentLines hmedia h⟩

end Batch

end QueryBatch
