/-
Charsets of bodies.  Whatever the other messages of a payload declare and however many
blank lines stand in its body, a message has its body decoded in the charset that its own
headers declare, all at once.
-/
import QueryBatch.Proofs.Payload.Announcement
import QueryBatch.Proofs.Payload.PartReading

namespace QueryBatch

open Lines (lines)
open Source (cr lf)
open ReadState (contentType?)

variable {media : Multipart} {D : Charset}

/-- A request line or a status line.  A method is not named like the header that declares
charsets. -/
inductive StartLine.Opens : Text → Prop
  | request {method target : Text} :
      method ≠ [] → (∀ c ∈ method, MediaType.isToken c = true) →
      Text.sameIgnoringCase method "Content-Type".toList = false →
      target ≠ [] → (∀ c ∈ target, Text.isBlank c = false) →
      Opens (method ++ ' ' :: target ++ ' ' :: protocol)
  | status (rest : Text) : Opens (protocol ++ ' ' :: rest)

theorem Part.plain_of_isHeaderName {c : Char} (hascii : c.toNat < 0x80)
    (hc : isHeaderName c = true) : Text.isBlank c = false ∧ c ≠ ':' := by
  revert hc
  apply of_ascii (P := fun c => isHeaderName c = true → Text.isBlank c = false ∧ c ≠ ':')
  · decide +kernel
  · exact hascii

theorem head?_of_allBlank {t : Text} (ht : Text.allBlank t = true) :
    ∀ c ∈ t.head?, Text.isBlank c = true :=
  fun c hc => List.all_eq_true.mp ht c (List.mem_of_head? hc)

/-- No letter of a header's name is blank. -/
theorem not_isBlank_of_sameIgnoringCase {t : Text}
    (h : Text.sameIgnoringCase t "Content-Type".toList = true) :
    ∀ c ∈ t, Text.isBlank c = false := by
  intro c hc
  have hlower : c.toLower ∈ Text.toLower "Content-Type".toList := by
    rw [← Text.sameIgnoringCase_iff.mp h]
    exact List.mem_map_of_mem hc
  by_cases hupper : c.val ≥ 'A'.val ∧ c.val ≤ 'Z'.val
  · have hbounds : 65 ≤ c.toNat ∧ c.toNat ≤ 90 := by
      simpa [UInt32.le_iff_toNat_le] using hupper
    simp [Text.isBlank]
    omega
  · have hsame : c.toLower = c := dif_neg hupper
    have hletters : ∀ c ∈ Text.toLower "Content-Type".toList, Text.isBlank c = false :=
      List.all_iff_forall_prop.mp (by decide)
    exact hletters c (hsame ▸ hlower)

namespace StartLine

theorem Opens.protocol {t : Text} (h : Opens t) : QueryBatch.protocol <:+: t := by
  cases h with
  | @request method target => exact ⟨method ++ ' ' :: target ++ [' '], [], by simp⟩
  | status rest => exact (List.prefix_append _ _).isInfix

theorem Opens.ne_nil {t : Text} (h : Opens t) : t ≠ [] := by
  cases h with
  | request => exact List.append_ne_nil_of_right_ne_nil _ (List.cons_ne_nil _ _)
  | status rest => exact List.append_ne_nil_of_right_ne_nil _ (List.cons_ne_nil _ _)

/-- A line whose first word is not the name of the header has no such header. -/
theorem not_sameIgnoringCase_of_word {word : Text} (u : Text) (hne : word ≠ [])
    (hblank : ∀ c ∈ word, Text.isBlank c = false)
    (hname : Text.sameIgnoringCase word "Content-Type".toList = false) :
    Text.sameIgnoringCase (Text.trim (word ++ ' ' :: u)) "Content-Type".toList = false := by
  refine Bool.eq_false_iff.mpr fun hsame => ?_
  obtain ⟨d, r, rfl⟩ := List.exists_cons_of_ne_nil hne
  obtain ⟨after, hafter, htrim⟩ :=
    Text.exists_trim_cons (r ++ ' ' :: u) (hblank d List.mem_cons_self)
  -- the name holds no blank, so it is the first word of the line
  obtain ⟨hword, -⟩ := Text.append_inj_of_blank hblank (by simp [Text.isBlank])
    (not_isBlank_of_sameIgnoringCase hsame) (head?_of_allBlank hafter) htrim
  rw [← hword, hname] at hsame
  cases hsame

/-- A start line declares nothing. -/
theorem Opens.contentType? {t : Text} (h : Opens t) : contentType? t = none := by
  cases h with
  | status rest =>
      exact ReadState.contentType?_eq_none_of_initial (by decide) (by decide) (by decide)
  | @request method target hne hmethod hname htarget hblank =>
      have hplain : ∀ c ∈ method, Text.isBlank c = false ∧ c ≠ ':' :=
        fun c hc => MediaType.plain_of_isToken (hmethod c hc)
      have hcolon : ':' ∉ method := fun hc => (hplain ':' hc).2 rfl
      unfold ReadState.contentType? ReadState.headerValue?
      rcases hcut : Text.splitAt? ':' (method ++ ' ' :: target ++ ' ' :: QueryBatch.protocol)
        with _ | ⟨key, value⟩
      · rfl
      · obtain ⟨heq, -⟩ := Text.splitAt?_eq_some_iff.mp hcut
        rw [List.append_assoc, List.cons_append] at heq
        obtain ⟨u, rfl⟩ := Text.exists_of_append_cons_eq hcolon (by decide) heq
        have hother := not_sameIgnoringCase_of_word u hne (fun c hc => (hplain c hc).1) hname
        simp only [Option.bind_some, hother, Bool.false_eq_true, if_false]

/-- A start line is no delimiter. -/
theorem Opens.inner {t : Text} (h : Opens t) (hmedia : media.Plain) : media.Inner t := by
  cases h with
  | status rest =>
      have hhead : (QueryBatch.protocol ++ ' ' :: rest).head? = some 'H' := rfl
      exact Batch.inner_of_head? (by simp [hhead])
  | @request method target hne hmethod hname htarget hblank =>
      apply Batch.inner_of_not_isDelimiterLine hmedia
      intro line hline hdelimiter
      obtain ⟨rest, heq, hrest⟩ := Multipart.isDelimiterLine_iff.mp hdelimiter
      rw [List.append_assoc, List.cons_append] at heq
      -- the delimiter would be the method, and the target blank
      obtain ⟨-, htail⟩ := Text.append_inj_of_blank
        (fun c hc => (MediaType.plain_of_isToken (hmethod c hc)).1) (by simp [Text.isBlank])
        (fun c hc => (hline c hc).1) (head?_of_allBlank hrest) heq
      obtain ⟨c, r, rfl⟩ := List.exists_cons_of_ne_nil htarget
      have hc := List.all_eq_true.mp hrest c (by simp [← htail])
      rw [hblank c List.mem_cons_self] at hc
      cases hc

end StartLine

/-- A message as it stands in a payload: the bytes of its start line, header lines as names
and what follows the colon, and the bytes of its body. -/
structure RawMessage where
  start : Bytes
  headers : List (Text × Text)
  body : Bytes
deriving DecidableEq, Repr

namespace RawMessage

/-- A header line. -/
def headerLine (field : Text × Text) : Text :=
  field.1 ++ ':' :: field.2

/-- The texts of the lines of a part before its start line. -/
def partTexts : List Text :=
  ["Content-Type: application/http".toList, []]

/-- A message as a part: every line ends in a carriage return and a line feed, and so does
the body. -/
def part (m : RawMessage) : Bytes :=
  Utf8.encode (partTexts.flatMap Batch.endLine) ++ (m.start ++ [cr, lf]) ++
    Utf8.encode ((m.headers.map headerLine ++ [[]]).flatMap Batch.endLine) ++ (m.body ++ [cr, lf])

/-- Whether a header is a content type. -/
def isContentType (field : Text × Text) : Bool :=
  Text.sameIgnoringCase field.1 "Content-Type".toList

/-- The charset that a content type declares: the one that it names, or the default one. -/
def declared (D : Charset) (value : Text) : Charset :=
  ((MediaType.parse value).toOption.bind fun media =>
    (media.parameter? "charset").bind fun label => (Charset.ofLabel label).toOption).getD D

/-- The charset of the body: the one that the content type declares, or the default one. -/
def charset (D : Charset) (m : RawMessage) : Charset :=
  ((m.headers.filter isContentType).getLast?.map fun field =>
    declared D (Text.trim field.2)).getD D

/-- A value that names no boundary, and no charset that is unknown. -/
def Known (value : Text) : Prop :=
  ∀ media, MediaType.parse value = .ok media →
    media.parameter? "boundary" = none ∧
      ∀ label ∈ media.parameter? "charset", ∃ c, Charset.ofLabel label = .ok c

/-- A header line in ASCII. -/
structure Header (field : Text × Text) : Prop where
  name : field.1 ≠ [] ∧ ∀ c ∈ field.1, Part.isHeaderName c = true
  ascii : field.1.Ascii ∧ field.2.Ascii
  unbroken : Lines.Unbroken '\r' '\n' field.2
  known : isContentType field = true → Known (Text.trim field.2)

/-- A message with a start line and header lines, and a body of which no line, once it is
decoded, is a content type or a delimiter. -/
structure Fits (media : Multipart) (D : Charset) (m : RawMessage) : Prop where
  start : StartLine.Opens (D.decode m.start)
  startUnbroken : Lines.Unbroken cr lf m.start
  headers : ∀ field ∈ m.headers, Header field
  body : ∀ line ∈ lines '\r' '\n' ((m.charset D).decode m.body),
    contentType? line = none ∧ media.Inner line

/-- The lines of the part before its body. -/
def headTexts (D : Charset) (m : RawMessage) : List Text :=
  partTexts.map Batch.endLine ++
    Batch.endLine (D.decode m.start) ::
      ((m.headers.map fun field => Batch.endLine (headerLine field)) ++ [Batch.endLine []])

/-- The lines of the body, the last one with an ending. -/
def bodyTexts (D : Charset) (m : RawMessage) : List Text :=
  lines '\r' '\n' (Batch.endLine ((m.charset D).decode m.body))

/-- The raw lines of the part. -/
def raws (m : RawMessage) : List Bytes :=
  (partTexts.map fun t => Utf8.encode (Batch.endLine t)) ++ (m.start ++ [cr, lf]) ::
    ((m.headers.map fun field => Utf8.encode (Batch.endLine (headerLine field))) ++
      Utf8.encode (Batch.endLine []) :: lines cr lf (m.body ++ [cr, lf]))

theorem lines_encode_flatMap_append {texts : List Text}
    (h : ∀ t ∈ texts, Lines.Unbroken '\r' '\n' t) (u : Bytes) :
    lines cr lf (Utf8.encode (texts.flatMap Batch.endLine) ++ u) =
      (texts.map fun t => Utf8.encode (Batch.endLine t)) ++ lines cr lf u := by
  induction texts with
  | nil => rfl
  | cons t texts ih =>
      obtain ⟨ht, htexts⟩ := List.forall_mem_cons.mp h
      rw [List.flatMap_cons, Utf8.encode_append, List.append_assoc,
        Batch.lines_encode_endLine_append ht, ih htexts, List.map_cons, List.cons_append]

theorem Header.unbroken_headerLine {field : Text × Text} (h : Header field) :
    Lines.Unbroken '\r' '\n' (headerLine field) := by
  rw [headerLine, Lines.unbroken_append, Lines.unbroken_cons]
  exact ⟨Batch.unbroken_of_isHeaderName h.name.2, by decide, h.unbroken⟩

theorem Header.ascii_headerLine {field : Text × Text} (h : Header field) :
    (headerLine field).Ascii :=
  List.forall_mem_append.mpr ⟨h.ascii.1, List.forall_mem_cons.mpr ⟨by decide, h.ascii.2⟩⟩

theorem lines_part {m : RawMessage} (h : m.Fits media D) : lines cr lf m.part = m.raws := by
  have hpart : ∀ t ∈ partTexts, Lines.Unbroken '\r' '\n' t := by
    have hall : ∀ t ∈ partTexts, t.all (fun c => c != '\r' && c != '\n') = true := by decide
    exact fun t ht => Lines.unbroken_of_all (hall t ht)
  have hheaders : ∀ t ∈ m.headers.map headerLine ++ [[]], Lines.Unbroken '\r' '\n' t := by
    rw [List.forall_mem_append, List.forall_mem_map]
    exact ⟨fun field hfield => (h.headers field hfield).unbroken_headerLine,
      by simp [Lines.Unbroken]⟩
  have hstart : ∀ u, lines cr lf ((m.start ++ [cr, lf]) ++ u) =
      (m.start ++ [cr, lf]) :: lines cr lf u := by
    intro u
    apply Lines.lines_append_of_ended Source.cr_ne_lf
    · exact ⟨m.start, [cr, lf], rfl, h.startUnbroken, Or.inl rfl⟩
    · simp [Lines.Apart, Source.cr, Source.lf]
  rw [part, List.append_assoc, List.append_assoc, lines_encode_flatMap_append hpart, hstart,
    lines_encode_flatMap_append hheaders, raws, List.map_append, List.map_map, List.append_assoc]
  rfl

/-- No line of the body is a content type or a delimiter, with its ending. -/
theorem bodyTexts_spec (hmedia : media.Plain) {m : RawMessage} (h : m.Fits media D) :
    ∀ line ∈ m.bodyTexts D, contentType? line = none ∧ media.Inner line := by
  apply Lines.forall_mem_lines_append_ending (by decide)
    (P := fun line => contentType? line = none ∧ media.Inner line)
  · exact ⟨by decide, Batch.inner_of_head? (by simp)⟩
  · intro line hline
    exact ⟨(ReadState.contentType?_append Batch.allBlank_lineEnding).trans hline.1,
      Batch.inner_endLine hmedia hline.2⟩
  · exact h.body

/-- No line of the part is a delimiter. -/
theorem inner_texts (hmedia : media.Plain) {m : RawMessage} (h : m.Fits media D) :
    ∀ line ∈ m.headTexts D ++ m.bodyTexts D, media.Inner line := by
  have hblank : media.Inner (Batch.endLine []) := Batch.inner_of_head? (by simp [Batch.endLine])
  have hpart : ∀ line ∈ partTexts.map Batch.endLine, media.Inner line := by
    simp only [partTexts, List.map_cons, List.map_nil, List.forall_mem_cons]
    exact ⟨Batch.inner_of_colon hmedia (by decide), hblank, List.forall_mem_nil _⟩
  have hheaders : ∀ line ∈ m.headers.map fun field => Batch.endLine (headerLine field),
      media.Inner line := by
    rw [List.forall_mem_map]
    intro field _
    exact Batch.inner_of_colon hmedia (by simp [Batch.endLine, headerLine])
  have hstart := Batch.inner_endLine hmedia (h.start.inner hmedia)
  rw [headTexts, List.forall_mem_append, List.forall_mem_append, List.forall_mem_cons,
    List.forall_mem_append, List.forall_mem_singleton]
  exact ⟨⟨hpart, hstart, hheaders, hblank⟩,
    fun line hline => (bodyTexts_spec hmedia h line hline).2⟩

end RawMessage

namespace ReadState

variable {s : ReadState}

/-- Lines of a body are decoded one by one in the charset of the body. -/
theorem readOn_body {c : Charset} (hs : Within media D s) (hc : s.charset = c)
    (hbody : 2 ≤ s.progress.blankLines) {raws : List Bytes}
    (hraws : ∀ raw ∈ raws, contentType? (c.decode raw) = none ∧ media.Inner (c.decode raw)) :
    ∃ last, s.readOn raws = .ok (raws.map c.decode, last) ∧ Within media D last := by
  induction raws generalizing s with
  | nil => exact ⟨s, rfl, hs⟩
  | cons raw raws ih =>
      obtain ⟨⟨hnone, hinner⟩, hraws⟩ := List.forall_mem_cons.mp hraws
      have hdecode : s.decode raw = c.decode raw := by
        have hinBody : s.progress.inBody = true := by simpa [Progress.inBody] using hbody
        rw [decode, if_pos hinBody, hc]
      obtain ⟨next, hnext, hwithin, hcharset, hprogress⟩ : ∃ next : ReadState,
          s.observe (c.decode raw) = .ok next ∧ Within media D next ∧ next.charset = c ∧
            2 ≤ next.progress.blankLines := by
        by_cases hfull : c.decode raw = "\r\n".toList
        · rw [hfull]
          exact ⟨_, observe_blank s, ⟨hs.default, hs.boundary⟩, hc, Nat.le_succ_of_le hbody⟩
        · exact ⟨s, observe_of_inner hs hnone hinner hfull, hs, hc, hbody⟩
      obtain ⟨last, hlast, hwithin⟩ := ih hwithin hcharset hprogress hraws
      exact ⟨last, readOn_cons hdecode hnext hlast, hwithin⟩

/-- Between the first two blank lines of a part the headers of the message are read, in the
default charset. -/
structure InHeaders (media : Multipart) (D c : Charset) (s : ReadState) : Prop extends
    Within media D s where
  progress : s.progress.blankLines = 1
  charset : s.charset = c

theorem InHeaders.decode_eq {c : Charset} (hs : InHeaders media D c s) (raw : Bytes) :
    s.decode raw = D.decode raw := by
  have hbody : s.progress.inBody = false := by simp [Progress.inBody, hs.progress]
  rw [decode, hbody, if_neg (by simp), hs.default]

/-- A header line declares a content type if it has the name of one. -/
theorem contentType?_headerLine {field : Text × Text} (h : RawMessage.Header field) :
    contentType? (Batch.endLine (RawMessage.headerLine field)) =
      if RawMessage.isContentType field then some (Text.trim field.2) else none := by
  have hplain : ∀ c ∈ field.1, Text.isBlank c = false ∧ c ≠ ':' :=
    fun c hc => Part.plain_of_isHeaderName (h.ascii.1 c hc) (h.name.2 c hc)
  have hcut : Text.splitAt? ':' (RawMessage.headerLine field) = some (field.1, field.2) :=
    Text.splitAt?_eq_some_iff.mpr ⟨rfl, fun hmem => (hplain ':' hmem).2 rfl⟩
  have htrim : Text.trim field.1 = field.1 := Text.trim_eq_self fun c hc => (hplain c hc).1
  rw [Batch.endLine, contentType?_append Batch.allBlank_lineEnding]
  simp only [contentType?, headerValue?, hcut, Option.bind_some, htrim]
  rfl

/-- A content type with a known charset sets the charset for the body, and nothing else. -/
theorem declare_of_known (hs : s.defaultCharset = D) {value : Text}
    (h : RawMessage.Known value) :
    s.declare value = .ok { s with charset := RawMessage.declared D value } := by
  unfold RawMessage.declared
  cases hparse : MediaType.parse value with
  | error fault =>
      rw [declare_of_malformed hparse, hs]
      rfl
  | ok media =>
      obtain ⟨hboundary, hlabel⟩ := h media hparse
      rw [declare_of_parse hparse hboundary]
      simp only [Except.toOption, Option.bind_some]
      cases hcharset : media.parameter? "charset" with
      | none =>
          rw [hs]
          rfl
      | some label =>
          obtain ⟨c, hc⟩ := hlabel label hcharset
          simp only [Option.elim_some, Option.bind_some, hc]
          rfl

/-- Reading a header line leaves the reader among headers, with the charset that a content
type declares. -/
theorem InHeaders.observe {c : Charset} (hs : InHeaders media D c s) (hmedia : media.Plain)
    {field : Text × Text} (h : RawMessage.Header field) :
    ∃ after, s.observe (Batch.endLine (RawMessage.headerLine field)) = .ok after ∧
      InHeaders media D
        (if RawMessage.isContentType field then RawMessage.declared D (Text.trim field.2) else c)
        after := by
  have hvalue := contentType?_headerLine h
  by_cases hname : RawMessage.isContentType field = true
  · rw [if_pos hname] at hvalue ⊢
    refine ⟨{ s with charset := RawMessage.declared D (Text.trim field.2) }, ?_,
      ⟨hs.default, hs.boundary⟩, hs.progress, rfl⟩
    simp only [ReadState.observe, hvalue, declare_of_known hs.default (h.known hname)]
  · rw [if_neg hname] at hvalue ⊢
    have hcolon : ':' ∈ Batch.endLine (RawMessage.headerLine field) := by
      simp [Batch.endLine, RawMessage.headerLine]
    have hfull : Batch.endLine (RawMessage.headerLine field) ≠ "\r\n".toList := by
      intro heq
      rw [heq] at hcolon
      exact absurd hcolon (by decide)
    exact ⟨s, observe_of_inner hs.toWithin hvalue (Batch.inner_of_colon hmedia hcolon) hfull, hs⟩

/-- Header lines read as they are written, and the last content type counts. -/
theorem InHeaders.readOn {c : Charset} (hs : InHeaders media D c s) (hmedia : media.Plain)
    {fields : List (Text × Text)} (h : ∀ field ∈ fields, RawMessage.Header field) :
    ∃ last, s.readOn (fields.map fun field =>
        Utf8.encode (Batch.endLine (RawMessage.headerLine field))) =
          .ok (fields.map fun field => Batch.endLine (RawMessage.headerLine field), last) ∧
      InHeaders media D (((fields.filter RawMessage.isContentType).getLast?.map fun field =>
        RawMessage.declared D (Text.trim field.2)).getD c) last := by
  induction fields generalizing s c with
  | nil => exact ⟨s, rfl, hs⟩
  | cons field fields ih =>
      obtain ⟨hfield, hfields⟩ := List.forall_mem_cons.mp h
      have hdecode := s.decode_encode_of_ascii (ascii_endLine hfield.ascii_headerLine)
      obtain ⟨after, hafter, hheaders⟩ := hs.observe hmedia hfield
      obtain ⟨last, hlast, hcharset⟩ := ih hheaders hfields
      refine ⟨last, readOn_cons hdecode hafter hlast, ?_⟩
      rw [List.filter_cons]
      by_cases hname : RawMessage.isContentType field = true
      · rw [if_pos hname] at hcharset ⊢
        rw [List.getLast?_cons]
        cases hlater : (fields.filter RawMessage.isContentType).getLast? with
        | none => simpa [hlater] using hcharset
        | some later => simpa [hlater] using hcharset
      · rw [if_neg hname] at hcharset ⊢
        exact hcharset

theorem parameters_http :
    (MediaType.parse "application/http".toList).map MediaType.parameters = .ok [] := rfl

theorem parameter?_http {media : MediaType}
    (h : MediaType.parse "application/http".toList = .ok media) (name : String) :
    media.parameter? name = none := by
  have hparameters := parameters_http
  rw [h] at hparameters
  rw [MediaType.parameter?, Except.ok.inj hparameters]
  rfl

/-- The headers of a part put the reader among the headers of its message, with the default
charset for the body. -/
theorem AtPart.readOn_partTexts (hs : AtPart media D s) :
    ∃ after, s.readOn (RawMessage.partTexts.map fun t => Utf8.encode (Batch.endLine t)) =
        .ok (RawMessage.partTexts.map Batch.endLine, after) ∧ InHeaders media D D after := by
  have hascii : ∀ t ∈ RawMessage.partTexts, (Batch.endLine t).Ascii := by decide
  have htype : contentType? (Batch.endLine "Content-Type: application/http".toList) =
      some "application/http".toList := by decide
  have hknown : RawMessage.Known "application/http".toList := by
    intro media hmedia
    refine ⟨parameter?_http hmedia _, fun label hlabel => ?_⟩
    rw [parameter?_http hmedia] at hlabel
    cases hlabel
  have hdeclared : RawMessage.declared D "application/http".toList = D := by
    unfold RawMessage.declared
    cases hparse : MediaType.parse "application/http".toList with
    | error fault => rfl
    | ok media => simp only [Except.toOption, Option.bind_some, parameter?_http hparse]; rfl
  have hfirst : s.observe (Batch.endLine "Content-Type: application/http".toList) =
      .ok { s with charset := D } := by
    simp only [observe, htype, declare_of_known hs.default hknown, hdeclared]
  refine ⟨{ s with charset := D, progress := s.progress.afterBlank }, ?_,
    ⟨⟨hs.default, hs.boundary⟩, ?_, rfl⟩⟩
  · apply readOn_cons (s.decode_encode_of_ascii (by decide)) hfirst
    apply readOn_cons (decode_encode_of_ascii _ (by decide)) (observe_blank _)
    rfl
  · show s.progress.blankLines + 1 = 1
    rw [hs.progress]

/-- A message is read the same wherever its part stands: the lines before its body in the
default charset, and those of its body in the charset that it declares. -/
theorem readOn_raws (hs : AtPart media D s) (hmedia : media.Plain) {m : RawMessage}
    (h : m.Fits media D) :
    ∃ last, s.readOn m.raws = .ok (m.headTexts D ++ m.bodyTexts D, last) ∧
      Within media D last := by
  obtain ⟨atStart, hpart, hatStart⟩ := hs.readOn_partTexts
  have hdecode : atStart.decode (m.start ++ [cr, lf]) = Batch.endLine (D.decode m.start) := by
    rw [hatStart.decode_eq]
    exact Charset.decode_cr_lf D m.start
  have hfull : Batch.endLine (D.decode m.start) ≠ "\r\n".toList := by
    intro heq
    have hlength := congrArg List.length heq
    rw [Batch.endLine, List.length_append] at hlength
    exact h.start.ne_nil (List.length_eq_zero_iff.mp (by omega))
  have hnone : contentType? (Batch.endLine (D.decode m.start)) = none := by
    rw [Batch.endLine, contentType?_append Batch.allBlank_lineEnding, h.start.contentType?]
  have hinner := Batch.inner_endLine hmedia (h.start.inner hmedia)
  have hstart := observe_of_inner hatStart.toWithin hnone hinner hfull
  obtain ⟨inHeaders, hheaders, hstate⟩ := hatStart.readOn hmedia h.headers
  have hblank : inHeaders.readOn [Utf8.encode (Batch.endLine [])] =
      .ok ([Batch.endLine []], { inHeaders with progress := inHeaders.progress.afterBlank }) :=
    readOn_cons (decode_encode_of_ascii inHeaders (by decide)) (observe_blank inHeaders) rfl
  have hbodyLines := RawMessage.bodyTexts_spec hmedia h
  have hbodyTexts :
      (lines cr lf (m.body ++ [cr, lf])).map (m.charset D).decode = m.bodyTexts D := by
    have hending : (m.charset D).decode (m.body ++ [cr, lf]) =
        Batch.endLine ((m.charset D).decode m.body) := Charset.decode_cr_lf _ _
    rw [RawMessage.bodyTexts, ← hending]
    exact (Charset.lines_decode (m.charset D) (m.body ++ [cr, lf])).symm
  rw [← hbodyTexts, List.forall_mem_map] at hbodyLines
  obtain ⟨last, hbody, hlast⟩ := readOn_body (s := { inHeaders with
      progress := inHeaders.progress.afterBlank }) ⟨hstate.default, hstate.boundary⟩ hstate.charset
    (Nat.le_of_eq (congrArg Nat.succ hstate.progress).symm) hbodyLines
  refine ⟨last, ?_, hlast⟩
  rw [RawMessage.headTexts, List.append_assoc, List.cons_append, List.append_assoc, ← hbodyTexts]
  apply readOn_append hpart
  apply readOn_cons hdecode hstart
  exact readOn_append hheaders (readOn_append hblank hbody)

end ReadState

namespace Batch

open Multipart (withoutLastEnding)

variable {σ : Type} [StartLine σ]

/-- The content of a message is its body, decoded as a whole. -/
theorem content_of_fits (template : Item σ) {m : RawMessage} (h : m.Fits media D) :
    (Part.read template (withoutLastEnding (m.headTexts D ++ m.bodyTexts D))).content =
      (m.charset D).decode m.body := by
  have hne : m.bodyTexts D ≠ [] := by
    rw [RawMessage.bodyTexts, ne_eq, Lines.lines_eq_nil_iff]
    simp [endLine]
  have houter : ∀ t ∈ [endLine "Content-Type: application/http".toList],
      (Part.header? t).isSome = true := by
    decide
  have hinner : ∀ t ∈ m.headers.map fun field => endLine (RawMessage.headerLine field),
      (Part.header? t).isSome = true := by
    rw [List.forall_mem_map]
    intro field hfield
    have hfield := h.headers field hfield
    have hfeed : '\n' ∉ field.2 := (Lines.unbroken_iff.mp hfield.unbroken).2
    rw [RawMessage.headerLine, Part.header?_colon_endLine hfield.name.1 hfield.name.2 hfeed]
    rfl
  have hline : protocol <:+: endLine (D.decode m.start) :=
    h.start.protocol.trans (List.prefix_append _ _).isInfix
  have hblank : Text.allBlank (endLine []) = true := by decide
  have hshape : m.headTexts D ++ withoutLastEnding (m.bodyTexts D) =
      [endLine "Content-Type: application/http".toList] ++ endLine [] ::
        endLine (D.decode m.start) ::
          ((m.headers.map fun field => endLine (RawMessage.headerLine field)) ++
            endLine [] :: withoutLastEnding (m.bodyTexts D)) := by
    simp [RawMessage.headTexts, RawMessage.partTexts]
  rw [Multipart.withoutLastEnding_append _ hne, hshape,
    Part.read_decomposed template houter hblank hline hinner hblank]
  exact Multipart.flatten_withoutLastEnding_lines _

/-- A message reads the same wherever its part stands. -/
theorem isolated_part (hmedia : media.Plain) {m : RawMessage} (h : m.Fits media D) :
    ReadState.Isolated media D m.part where
  ended := by
    intro b hb
    rw [RawMessage.part, List.getLast?_append, List.getLast?_append] at hb
    exact (Option.some.inj hb).symm
  same := by
    intro s s' hs hs' texts last hread
    rw [RawMessage.lines_part h] at hread ⊢
    obtain ⟨_, hraws, -⟩ := ReadState.readOn_raws hs hmedia h
    obtain ⟨last', hraws', -⟩ := ReadState.readOn_raws hs' hmedia h
    obtain ⟨rfl, -⟩ := Prod.mk.inj (Except.ok.inj (hraws.symm.trans hread))
    exact ⟨last', hraws'⟩
  kept := by
    intro s hs texts last hread
    rw [RawMessage.lines_part h] at hread
    obtain ⟨_, hraws, hlast⟩ := ReadState.readOn_raws hs hmedia h
    obtain ⟨rfl, rfl⟩ := Prod.mk.inj (Except.ok.inj (hraws.symm.trans hread))
    exact ⟨hlast, RawMessage.inner_texts hmedia h⟩

theorem partBecomes_part (hmedia : media.Plain) (template : Item σ) {m : RawMessage}
    (h : m.Fits media D) :
    PartBecomes media D template m.part
      (Part.read template (withoutLastEnding (m.headTexts D ++ m.bodyTexts D))) := by
  obtain ⟨last, hread, -⟩ :=
    ReadState.readOn_raws (ReadState.atPart_initial media D) hmedia h
  rw [← RawMessage.lines_part h] at hread
  exact ⟨_, ⟨last, hread⟩, rfl⟩

/-- Whatever its messages declare and however many blank lines their bodies hold, a payload
is read, and every message has as its content its body, decoded as a whole in the charset
that its own headers declare, or in the default one. -/
theorem contents_of_messages (settings : BatchSettings) (hsettings : settings.validate = .ok ())
    (hD : settings.charset = .ok D) (hmedia : media.Delimiting) (template : Item σ)
    {messages : List RawMessage} (hmessages : ∀ m ∈ messages, m.Fits media D)
    {deliveries : List Delivery} (hsteady : Delivery.Steady deliveries)
    (hbytes : Delivery.joined deliveries = assemble media (messages.map RawMessage.part)) :
    ∃ items, ofDeliveries media settings template deliveries = .ok items ∧
      items.map Item.content = messages.map fun m => (m.charset D).decode m.body := by
  have hparts : ∀ part ∈ messages.map RawMessage.part, ReadState.Isolated media D part := by
    rw [List.forall_mem_map]
    exact fun m hm => isolated_part hmedia.plain (hmessages m hm)
  refine ⟨messages.map fun m =>
    Part.read template (withoutLastEnding (m.headTexts D ++ m.bodyTexts D)), ?_, ?_⟩
  · apply (ofDeliveries_assemble_eq_ok_iff hsettings hD hmedia template hparts hsteady hbytes).mpr
    rw [List.forall₂_map_left_iff, List.forall₂_map_right_iff, List.forall₂_same]
    exact fun m hm => partBecomes_part hmedia.plain template (hmessages m hm)
  · rw [List.map_map, List.map_inj_left]
    exact fun m hm => content_of_fits template (hmessages m hm)

/-- A message that declares ISO-8859-1, with a blank line in its body. -/
def latinMessage : RawMessage where
  start := Utf8.encode "HTTP/1.1 200".toList
  headers := [("content-type".toList, " a/b;charset=l1".toList)]
  body := [0xE9, 0x0D, 0x0A, 0x0D, 0x0A, 0xE9]

/-- A message that declares nothing, with blank lines in its body and a character cut in
two at its end. -/
def undeclaredMessage : RawMessage where
  start := Utf8.encode "PUT /a HTTP/1.1".toList
  headers := [("A".toList, "b: c".toList)]
  body := [0xC3, 0xA9, 0x0D, 0x0A, 0x0D, 0x0A, 0x0D, 0x0A, 0xC3]

theorem fits_latinMessage : latinMessage.Fits short .utf8 where
  start := by
    have hstart : Charset.utf8.decode latinMessage.start = protocol ++ ' ' :: "200".toList := by
      decide +kernel
    rw [hstart]
    exact .status _
  startUnbroken := by decide +kernel
  headers := by
    have hparse : MediaType.parse "a/b;charset=l1".toList =
        .ok ⟨"a".toList, "b".toList, "a/b".toList, [("charset".toList, "l1".toList)]⟩ := by
      decide +kernel
    have htrim : Text.trim " a/b;charset=l1".toList = "a/b;charset=l1".toList := by decide
    refine List.forall_mem_singleton.mpr
      ⟨⟨by decide, List.all_iff_forall_prop.mp (by decide)⟩, by decide,
        Lines.unbroken_of_all (by decide), ?_⟩
    intro _ media hmedia
    rw [htrim, hparse] at hmedia
    obtain rfl := Except.ok.inj hmedia
    have hcharset : MediaType.parameter? ⟨"a".toList, "b".toList, "a/b".toList,
        [("charset".toList, "l1".toList)]⟩ "charset" = some "l1".toList := by decide
    refine ⟨by decide, ?_⟩
    intro label hlabel
    rw [hcharset] at hlabel
    obtain rfl := Option.some.inj hlabel
    exact ⟨.latin1, by decide⟩
  body := by
    have hbody : ∀ line ∈ lines '\r' '\n' ((latinMessage.charset .utf8).decode latinMessage.body),
        contentType? line = none ∧ short.opensPart line = false ∧ short.endsParts line = false := by
      decide +kernel
    exact hbody

theorem fits_undeclaredMessage : undeclaredMessage.Fits short .utf8 where
  start := by
    have hstart : Charset.utf8.decode undeclaredMessage.start =
        "PUT".toList ++ ' ' :: "/a".toList ++ ' ' :: protocol := by
      decide +kernel
    rw [hstart]
    exact .request (by decide) (List.all_iff_forall_prop.mp (by decide)) (by decide) (by decide)
      (List.all_iff_forall_prop.mp (by decide))
  startUnbroken := by decide +kernel
  headers := by
    refine List.forall_mem_singleton.mpr
      ⟨⟨by decide, List.all_iff_forall_prop.mp (by decide)⟩, by decide,
        Lines.unbroken_of_all (by decide), ?_⟩
    intro hname
    exact absurd hname (by decide)
  body := by
    have hbody : ∀ line ∈ lines '\r' '\n'
          ((undeclaredMessage.charset .utf8).decode undeclaredMessage.body),
        contentType? line = none ∧ short.opensPart line = false ∧ short.endsParts line = false := by
      decide +kernel
    exact hbody

/-- Each of the two bodies is decoded in its own charset, the cut character as one that is
none. -/
theorem contents_of_latin_undeclared :
    ∃ items : List Request,
      ofDeliveries short .standard Item.empty
          [.bytes (assemble short ([latinMessage, undeclaredMessage].map RawMessage.part))] =
        .ok items ∧
      items.map Item.content = ["é\r\n\r\né".toList, "é\r\n\r\n\r\n\uFFFD".toList] := by
  have hmessages : ∀ m ∈ [latinMessage, undeclaredMessage], m.Fits short .utf8 := by
    simp only [List.forall_mem_cons]
    exact ⟨fits_latinMessage, fits_undeclaredMessage, List.forall_mem_nil _⟩
  obtain ⟨items, hitems, hcontents⟩ := contents_of_messages .standard rfl rfl
    delimiting_short (Item.empty : Request) hmessages (Delivery.steady_singleton _)
    (List.append_nil _)
  refine ⟨items, hitems, hcontents.trans ?_⟩
  decide +kernel

end Batch

end QueryBatch
