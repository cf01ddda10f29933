/-
Parts section by section.  A part that is made of header lines, a blank line, a start
line, header lines of the message, another blank line and a body comes apart into these
sections, whatever the lines of the body look like.
-/
import QueryBatch.Proofs.Payload.Headers
import QueryBatch.Proofs.Payload.Parts

namespace QueryBatch.Part

/-- A header line: a name, a colon and text in which only the blanks at its end may break
the line. -/
structure HeaderLine where
  name : Text
  value : Text
  ending : Text
  name_ne_nil : name ≠ []
  isHeaderName_name : ∀ c ∈ name, isHeaderName c = true
  value_unbroken : '\n' ∉ value
  allBlank_ending : Text.allBlank ending = true

namespace HeaderLine

def text (header : HeaderLine) : Text :=
  header.name ++ ':' :: (header.value ++ header.ending)

/-- The name of a header and the text behind its colon. -/
def field (header : HeaderLine) : Text × Text :=
  (header.name, header.value)

theorem header?_text (header : HeaderLine) :
    header? header.text = some (header.name, Text.trim header.value) :=
  header?_colon_append header.name_ne_nil header.isHeaderName_name header.value_unbroken
    header.allBlank_ending

theorem isSome_header?_of_mem {headers : List HeaderLine} :
    ∀ t ∈ headers.map text, (header? t).isSome = true := by
  rw [List.forall_mem_map]
  intro header _
  rw [header.header?_text]
  rfl

theorem filterMap_header?_map_text (headers : List HeaderLine) :
    (headers.map text).filterMap header? =
      (headers.map field).map fun field => (field.1, Text.trim field.2) := by
  rw [List.filterMap_map, List.map_map, ← List.filterMap_eq_map]
  exact List.filterMap_congr fun header _ => header.header?_text

end HeaderLine

/-- The sections of a part.  Any texts may be the lines of the body. -/
structure Sections where
  /-- The headers of the part itself. -/
  outer : List HeaderLine
  blank : Text
  start : Text
  /-- The headers of the message. -/
  inner : List HeaderLine
  separator : Text
  body : List Text
  allBlank_blank : Text.allBlank blank = true
  protocol_infix_start : protocol <:+: start
  allBlank_separator : Text.allBlank separator = true

namespace Sections

/-- The lines of a part. -/
def texts (part : Sections) : List Text :=
  part.outer.map HeaderLine.text ++ part.blank :: part.start ::
    (part.inner.map HeaderLine.text ++ part.separator :: part.body)

/-- The elements that the headers of the message add, in order. -/
def fields (part : Sections) : List (Text × Text) :=
  Headers.elementFields (part.inner.map HeaderLine.field)

end Sections

variable {σ : Type} [StartLine σ]

/-- A well-formed part becomes the template with the start line read into it, with the
elements of the message's headers added to its own in order, and with the whole body as
content.  The part's own headers leave no trace, and no line of the body is taken for a
start line, a header or a blank line before the body.  Each name has the values that the
template had for it and then those of all headers of that name in whatever letter case.  The
elements of a header are its pieces between commas, without the blanks around them. -/
theorem read_sections (template : Item σ) (part : Sections) :
    read template part.texts =
        { template.readStart part.start with
          headers := part.fields.foldl (fun h field => h.append field.1 field.2) template.headers
          content := part.body.flatten } ∧
      (∀ name, (read template part.texts).headers.get? name =
        Headers.extended (template.headers.get? name) (Headers.valuesOf name part.fields)) ∧
      ∀ header ∈ part.inner, Headers.AreElements header.value (Headers.elements header.value) := by
  have hheaders : ((part.inner.map HeaderLine.text).filterMap header?).foldl
      (fun h field => Headers.appendElements h field.1 field.2) template.headers =
        part.fields.foldl (fun h field => h.append field.1 field.2) template.headers := by
    rw [HeaderLine.filterMap_header?_map_text, Headers.foldl_appendElements_eq,
      Headers.elementFields_map_trim]
    rfl
  have hread : read template part.texts =
      { template.readStart part.start with
        headers := part.fields.foldl (fun h field => h.append field.1 field.2) template.headers
        content := part.body.flatten } := by
    rw [Sections.texts, read_decomposed template HeaderLine.isSome_header?_of_mem
      part.allBlank_blank part.protocol_infix_start HeaderLine.isSome_header?_of_mem
      part.allBlank_separator, hheaders]
    rfl
  refine ⟨hread, fun name => ?_, fun _ _ => Headers.elements_eq_iff.mp rfl⟩
  rw [hread]
  exact Headers.get?_foldl_append template.headers part.fields name

/-- A body that looks like another blank line, header and message is only a body. -/
theorem read_of_misleading_body :
    read (⟨⟨none⟩, ⟨[("x-a".toList, ["0".toList])]⟩, "old".toList⟩ : Response)
        ["Content-Type: message/http;version=HTTP/1.1\r\n".toList, " \n".toList,
          "HTTP/1.1 200 OK\r\n".toList, "X-A: 1 ,2\r\n".toList, "\r\n".toList,
          "\r\n".toList, "X-B: 3\n".toList, "HTTP/1.1 404\r".toList] =
      ⟨⟨some 200⟩, ⟨[("x-a".toList, ["0".toList, "1".toList, "2".toList])]⟩,
        "\r\nX-B: 3\nHTTP/1.1 404\r".toList⟩ := by
  have hread := (read_sections (⟨⟨none⟩, ⟨[("x-a".toList, ["0".toList])]⟩, "old".toList⟩ : Response)
    { outer := [⟨"Content-Type".toList, " message/http;version=HTTP/1.1".toList, "\r\n".toList,
        by decide, List.all_eq_true.mp rfl, by decide, by decide⟩]
      blank := " \n".toList
      start := "HTTP/1.1 200 OK\r\n".toList
      inner := [⟨"X-A".toList, " 1 ,2".toList, "\r\n".toList,
        by decide, List.all_eq_true.mp rfl, by decide, by decide⟩]
      separator := "\r\n".toList
      body := ["\r\n".toList, "X-B: 3\n".toList, "HTTP/1.1 404\r".toList]
      allBlank_blank := by decide
      protocol_infix_start := ⟨[], " 200 OK\r\n".toList, rfl⟩
      allBlank_separator := by decide }).1
  exact hread.trans (by decide)

end QueryBatch.Part
