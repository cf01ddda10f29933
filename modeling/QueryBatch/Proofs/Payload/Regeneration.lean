/-
Payloads from anywhere, written anew.  Whatever a part tells can be carried by a part that
is written, so the items of a payload come back from the payload that is written for them,
unless a message without headers has content that can be taken for something else.
-/
import QueryBatch.Proofs.Payload.PartReading
import QueryBatch.Proofs.Payload.RoundTrip

namespace QueryBatch

open Lines (Unbroken Ended Open Decomposes lines)
open ReadState (DeclaresOther)

namespace Headers

/-- Header fields as a part tells them: under names of headers, and with values that are
elements and stand on one line. -/
structure Told (h : Headers) : Prop where
  wellFormed : h.WellFormed
  names : ∀ field ∈ h.entries, field.1 ≠ [] ∧ ∀ c ∈ field.1, Part.isHeaderName c = true
  values : ∀ field ∈ h.entries, ∀ value ∈ field.2,
    Unbroken '\r' '\n' value ∧ elements value = [value]

theorem told_empty : Told {} :=
  ⟨wellFormed_empty, by simp, by simp⟩

theorem Told.append {h : Headers} (hh : h.Told) {name value : Text}
    (hname : name ≠ [] ∧ ∀ c ∈ name, Part.isHeaderName c = true)
    (hvalue : Unbroken '\r' '\n' value ∧ elements value = [value]) :
    (h.append name value).Told where
  wellFormed := wellFormed_append hh.wellFormed name value
  names := by
    apply forall_mem_appendTo (P := fun n => n ≠ [] ∧ ∀ c ∈ n, Part.isHeaderName c = true)
    · exact hh.names
    · exact hname
  values := by
    apply forall_mem_values_appendTo (P := fun v => Unbroken '\r' '\n' v ∧ elements v = [v])
    · exact hh.values
    · exact hvalue

/-- Fields of single lines are told whatever commas cut their values into. -/
theorem told_foldl {fields : List (Text × Text)}
    (hfields : ∀ field ∈ fields,
      (field.1 ≠ [] ∧ ∀ c ∈ field.1, Part.isHeaderName c = true) ∧ Unbroken '\r' '\n' field.2) :
    Told (fields.foldl (fun h field => h.appendElements field.1 field.2) {}) := by
  refine foldl_appendElements_induction (P := Told) ?_ told_empty
  intro h hh field hfield element helement
  obtain ⟨hname, hvalue⟩ := hfields field hfield
  obtain ⟨hself, hmem⟩ := of_mem_elements helement
  exact hh.append hname ⟨fun c hc => hvalue c (hmem c hc), hself⟩

end Headers

namespace Part

/-- A text that is broken nowhere but at its end. -/
def SingleLine (t : Text) : Prop :=
  ∃ body ending, t = body ++ ending ∧ Unbroken '\r' '\n' body ∧ Text.allBlank ending = true

theorem singleLine_of_line {t : Text} (h : Ended '\r' '\n' t ∨ Open '\r' '\n' t) :
    SingleLine t := by
  rcases h with ⟨body, ending, rfl, hbody, hending⟩ | ⟨-, hbody⟩
  · refine ⟨body, ending, rfl, hbody, ?_⟩
    rcases hending with rfl | rfl | rfl <;> decide
  · exact ⟨t, [], (List.append_nil t).symm, hbody, rfl⟩

theorem SingleLine.of_append {t u : Text} (h : SingleLine (t ++ u)) : SingleLine t := by
  obtain ⟨body, ending, heq, hbody, hending⟩ := h
  rcases List.append_eq_append_iff.mp heq with ⟨more, rfl, -⟩ | ⟨more, rfl, rfl⟩
  · exact ⟨t, [], (List.append_nil t).symm, (Lines.unbroken_append.mp hbody).1, rfl⟩
  · rw [Text.allBlank, List.all_append, Bool.and_eq_true] at hending
    exact ⟨body, more, rfl, hbody, hending.1⟩

/-- The value of a header is on one line. -/
theorem unbroken_of_header? {t name value : Text} (ht : SingleLine t)
    (h : header? t = some (name, value)) : Unbroken '\r' '\n' value := by
  obtain ⟨-, -, rest, rfl, rfl⟩ := header?_eq_some h
  obtain ⟨body, ending, heq, hbody, hending⟩ := ht
  -- the ending is blank, so the colon and all of the value but blanks stand before it
  have hcolon : ':' ∉ ending := by
    intro hmem
    exact absurd (List.all_eq_true.mp hending ':' hmem) (by decide)
  rcases List.append_eq_append_iff.mp heq with ⟨more, rfl, hmore⟩ | ⟨more, -, rfl⟩
  · cases more with
    | nil =>
        rw [List.nil_append] at hmore
        exact absurd (hmore ▸ List.mem_cons_self) hcolon
    | cons c more =>
        rw [List.cons_append] at hmore
        obtain ⟨rfl, rfl⟩ := List.cons.inj hmore
        rw [Text.trim_append_right hending]
        intro c hc
        apply hbody c
        exact List.mem_append_right name (List.mem_cons_of_mem ':' (Text.mem_of_mem_trim hc))
  · exact absurd (List.mem_append_right more List.mem_cons_self) hcolon

variable {σ : Type} [StartLine σ]

/-- What a part tells: a start line, if it was read from any line, and the headers and the
content of the lines at the end. -/
theorem read_empty (texts : List Text) :
    ∃ message, message <:+ texts ∧
      ((read (Item.empty : Item σ) texts).start = StartLine.unknown ∨
        ∃ line, (read (Item.empty : Item σ) texts).start =
          StartLine.read StartLine.unknown line) ∧
      (read (Item.empty : Item σ) texts).headers = (headers message).foldl
        (fun h field => Headers.appendElements h field.1 field.2) {} ∧
      (read (Item.empty : Item σ) texts).content =
        (afterBlank (afterHeaders message)).flatten := by
  have hrest : afterBlank (afterHeaders texts) <:+ texts :=
    (afterBlank_suffix _).trans (afterHeaders_suffix texts)
  have hmessage := start?_suffix (afterBlank (afterHeaders texts))
  refine ⟨_, hmessage.trans hrest, ?_⟩
  simp only [read, foldl_addHeader, and_true]
  cases (start? (afterBlank (afterHeaders texts))).1 with
  | none => exact ⟨Or.inl rfl, rfl⟩
  | some line => exact ⟨Or.inr ⟨line, rfl⟩, rfl⟩

end Part

/-- No header field of a message, written on one line, declares another charset than UTF-8. -/
def Item.HeadersInUtf8 {σ : Type} (item : Item σ) : Prop :=
  ∀ field ∈ item.headers.entries, ∀ value ∈ field.2,
    ¬ DeclaresOther (field.1 ++ ": ".toList ++ value)

instance {σ : Type} (item : Item σ) : Decidable item.HeadersInUtf8 :=
  inferInstanceAs (Decidable (∀ _ ∈ _, ∀ _ ∈ _, ¬ _))

namespace Batch

open Multipart (withoutLastEnding)

variable {media : Multipart}

/-- The texts of a part of a payload: lines next to each other that are ordinary, the last
one without its ending. -/
def PartTexts (media : Multipart) (texts : List Text) : Prop :=
  ∃ block, texts = withoutLastEnding block ∧ Decomposes '\r' '\n' block.flatten block ∧
    ∀ t ∈ block, Ordinary media t

/-- The lines of what is at the end of a part are ordinary. -/
theorem ordinary_lines_of_suffix (hmedia : media.Plain) {texts rest : List Text}
    (h : PartTexts media texts) (hrest : rest <:+ texts) :
    ∀ t ∈ lines '\r' '\n' rest.flatten, Ordinary media t := by
  obtain ⟨block, rfl, hdecomposes, hordinary⟩ := h
  obtain ⟨others, hothers, rfl⟩ := Multipart.exists_suffix_of_withoutLastEnding hrest
  have hlines : lines '\r' '\n' others.flatten = others :=
    ((hdecomposes.of_infix hothers.isInfix).eq_lines (by decide)).symm
  have hmem : ∀ t ∈ lines '\r' '\n' others.flatten, Ordinary media t := by
    rw [hlines]
    exact fun t ht => hordinary t (hothers.subset ht)
  -- the ending that was lost is put back, so that the lines are those that were read
  rcases Multipart.flatten_withoutLastEnding others with heq | heq
  · rw [heq]
    exact hmem
  · rw [← heq] at hmem
    exact Lines.forall_mem_lines_of_append_ending (by decide)
      (fun t => (ordinary_append_iff hmedia allBlank_lineEnding).mp) hmem

theorem singleLine_of_partTexts {texts : List Text} (h : PartTexts media texts) :
    ∀ t ∈ texts, Part.SingleLine t := by
  obtain ⟨block, rfl, hdecomposes, -⟩ := h
  have hblock : ∀ t ∈ block, Part.SingleLine t :=
    fun t ht => Part.singleLine_of_line (hdecomposes.ended_or_open t ht)
  rcases List.eq_nil_or_concat block with rfl | ⟨before, last, rfl⟩
  · exact List.forall_mem_nil _
  · rw [List.concat_eq_append, List.forall_mem_append, List.forall_mem_singleton] at hblock
    rw [List.concat_eq_append, Multipart.withoutLastEnding_concat, List.forall_mem_append,
      List.forall_mem_singleton]
    refine ⟨hblock.1, ?_⟩
    rcases Multipart.dropLineEnding_eq last with heq | heq
    · exact heq.symm ▸ hblock.2
    · rw [← heq] at hblock
      exact hblock.2.of_append

/-- No line of a payload, as it is read, declares another charset than UTF-8. -/
def OnlyUtf8 (media : Multipart) (payload : Bytes) : Prop :=
  ∀ read, (LineReader.standard media [.bytes payload]).read = .ok read →
    ∀ line ∈ read, ¬ DeclaresOther line.content

/-- Text is read as it is, so its own lines tell whether another charset is declared. -/
theorem onlyUtf8_encode (hmedia : media.charset = .utf8) {text : Text}
    (htext : ∀ t ∈ lines '\r' '\n' text, ¬ DeclaresOther t) :
    OnlyUtf8 media (Utf8.encode text) := by
  intro read hread line hline
  have hinitial : (ReadState.initial media .utf8).Uniform .utf8 := ⟨rfl, hmedia⟩
  have hlines : lines Source.cr Source.lf (Utf8.encode text) =
      (lines '\r' '\n' text).map Utf8.encode := Utf8.lines_encode text
  rw [LineReader.standard, LineReader.read_ofDeliveries_bytes, hlines,
    hinitial.readPayload_encode htext] at hread
  obtain rfl := Except.ok.inj hread
  apply htext
  rw [← ReadState.map_content_numbered (lines '\r' '\n' text)]
  exact List.mem_map_of_mem hline

/-- The texts that are read are the lines of what they make up. -/
theorem decomposes_of_readPayload {s : ReadState} {payload : Bytes} {read : List Line}
    (h : s.readPayload (lines Source.cr Source.lf payload) = .ok read) :
    Decomposes '\r' '\n' (read.map Line.content).flatten (read.map Line.content) := by
  have hraws := Lines.decomposes_lines (by decide : Source.cr ≠ Source.lf) payload
  apply Charset.decomposes_of_reads
  · exact hraws.of_infix List.infix_rfl
  · exact ReadState.reads_of_readPayload h

variable {σ : Type} [StartLine σ]

/-- Every item of a payload is read from texts of a part. -/
theorem exists_partTexts_of_parse {payload : Bytes} (hutf8 : OnlyUtf8 media payload)
    {items : List (Item σ)} (hparse : parse media Item.empty payload = .ok items) :
    ∀ item ∈ items, ∃ texts, PartTexts media texts ∧ Part.read Item.empty texts = item := by
  rw [parse_eq] at hparse
  obtain ⟨read, hread, hitems⟩ := bind_eq_ok_iff.mp hparse
  obtain ⟨parts, hsplit, rfl⟩ := map_eq_ok_iff.mp hitems
  have hdecomposes := decomposes_of_readPayload hread
  rw [← LineReader.read_ofDeliveries_bytes media BatchSettings.standard.bufferSize] at hread
  rw [List.forall_mem_map]
  intro part hpart
  refine ⟨_, ?_, rfl⟩
  cases hgroups : media.groups? read with
  | none =>
      rw [Multipart.split, hgroups] at hsplit
      cases hsplit
  | some groups =>
      obtain ⟨current, found⟩ := groups
      rw [Multipart.split, hgroups] at hsplit
      obtain rfl := Except.ok.inj hsplit
      obtain ⟨-, -, hblocks⟩ := Multipart.blocks_of_groups? hgroups
      obtain ⟨block, rfl, hblock, hinner⟩ := hblocks part hpart
      refine ⟨block.map Line.content, Multipart.map_content_dropLastEnding block,
        hdecomposes.of_infix (hblock.map Line.content), ?_⟩
      rw [List.forall_mem_map]
      exact fun line hline => ⟨hinner line hline, hutf8 read hread line (hblock.subset hline)⟩

theorem restorable_of_read (hσ : StartLine.Faithful σ) {start : σ}
    (hread : start = StartLine.unknown ∨ ∃ line, start = StartLine.read StartLine.unknown line)
    (hsome : (StartLine.write? start).isSome = true) : StartLine.Restorable start := by
  rcases hread with rfl | ⟨line, rfl⟩
  · rw [hσ.unknown] at hsome
    cases hsome
  · exact hσ.restorable line hsome

/-- Whatever is read from a part can be carried by a payload, and its header values are
elements. -/
theorem carried_of_partTexts (hmedia : media.Plain) {texts : List Text}
    (htexts : PartTexts media texts) {item : Item σ} (hitem : Part.read Item.empty texts = item)
    (hheaders : item.HeadersInUtf8) : item.Carried media ∧ item.normalized = item := by
  obtain ⟨message, hmessage, -, hfields, hcontent⟩ := Part.read_empty (σ := σ) texts
  rw [hitem] at hfields hcontent
  have htold : item.headers.Told := by
    rw [hfields]
    apply Headers.told_foldl
    intro field hfield
    obtain ⟨t, ht, hheader⟩ := List.mem_filterMap.mp hfield
    have hmem := hmessage.subset ((List.takeWhile_prefix _).subset ht)
    obtain ⟨hne, hname, -⟩ := Part.header?_eq_some hheader
    exact ⟨⟨hne, hname⟩, Part.unbroken_of_header? (singleLine_of_partTexts htexts t hmem) hheader⟩
  have hlines : ∀ t ∈ lines '\r' '\n' item.content, Ordinary media t := by
    rw [hcontent]
    apply ordinary_lines_of_suffix hmedia htexts
    exact ((Part.afterBlank_suffix _).trans (Part.afterHeaders_suffix message)).trans hmessage
  have hnormalized : item.normalized = item := by
    have hsame := Headers.normalized_eq_self fun field hfield value hvalue =>
      (htold.values field hfield value hvalue).2
    rw [Item.normalized, hsame]
  exact ⟨{ wellFormed := htold.wellFormed
           names := htold.names
           values := fun field hfield value hvalue =>
             Lines.unbroken_iff.mp (htold.values field hfield value hvalue).1
           headersInUtf8 := hheaders
           contentInner := fun line hline => (hlines line hline).1
           contentInUtf8 := fun line hline => (hlines line hline).2 }, hnormalized⟩

/-- The payload that is written for items is read without failure, and as these items if and
only if no content can be taken for something else. -/
def Regenerates (media : Multipart) (items : List (Item σ)) : Prop :=
  ∃ again, parse media Item.empty (Utf8.encode (write media items)) = .ok again ∧
    (again = items ↔ ∀ item ∈ items, item.Separable)

theorem regenerates_of_parse (hσ : StartLine.Faithful σ) (hmedia : media.Plain) {payload : Bytes}
    (hutf8 : OnlyUtf8 media payload) {items : List (Item σ)}
    (hparse : parse media Item.empty payload = .ok items)
    (hitems : ∀ item ∈ items, item.startLine?.isSome = true ∧ item.HeadersInUtf8) :
    Regenerates media items := by
  have hread : ∀ item ∈ items,
      (item.Carried media ∧ StartLine.Restorable item.start) ∧ item.normalized = item := by
    intro item hitem
    obtain ⟨texts, htexts, hread⟩ := exists_partTexts_of_parse hutf8 hparse item hitem
    obtain ⟨hsome, hheaders⟩ := hitems item hitem
    obtain ⟨hcarried, hnormalized⟩ := carried_of_partTexts hmedia htexts hread hheaders
    obtain ⟨-, -, hstart, -⟩ := Part.read_empty (σ := σ) texts
    rw [hread] at hstart
    exact ⟨⟨hcarried, restorable_of_read hσ hstart hsome⟩, hnormalized⟩
  have hsame : items.map Item.normalized = items := by
    rw [List.map_congr_left fun item hitem => (hread item hitem).2, List.map_id']
  obtain ⟨again, hagain, hback⟩ :=
    readsBack_of_restorable hmedia fun item hitem => (hread item hitem).1
  rw [hsame] at hback
  exact ⟨again, hagain, hback⟩

/-- Whatever a payload looks like, what is written for the items that were read from it is
read without failure, and as the same items unless a message without headers has content
that starts with a blank line or with what reads as a header. -/
theorem parse_write_of_parse (media : Multipart) (hmedia : media.Plain) {payload : Bytes}
    (hutf8 : OnlyUtf8 media payload) :
    (∀ requests : List Request, parse media Item.empty payload = .ok requests →
      (∀ request ∈ requests, request.startLine?.isSome = true ∧ request.HeadersInUtf8) →
        Regenerates media requests) ∧
    ∀ responses : List Response, parse media Item.empty payload = .ok responses →
      (∀ response ∈ responses, response.startLine?.isSome = true ∧ response.HeadersInUtf8) →
        Regenerates media responses := by
  constructor
  · intro requests hparse hrequests
    exact regenerates_of_parse RequestLine.faithful hmedia hutf8 hparse hrequests
  · intro responses hparse hresponses
    exact regenerates_of_parse StatusLine.faithful hmedia hutf8 hparse hresponses

/-- A request with the given method, path, query, header fields and content. -/
def request (method path : String) (query? : Option Text) (headers : List (Text × List Text))
    (content : String) : Request :=
  { start := ⟨Method.ofText? method.toList, some path.toList, query?⟩
    headers := ⟨headers⟩
    content := content.toList }

/-- Two requests after a preamble, in lines that end in many ways, with a list in a header,
a header in two spellings, and a target without a path. -/
def mixedPayload : Text :=
  ("preamble\n--b\nX: y\n\nPUT /u?a=b?c HTTP/1.1 \nAccept: text, binary\naccept: x\n\nbody\r--b\r\n"
    ++ "\r\nDELETE ?q HTTP/1.1\r\n\r\nplain\r\n--b--").toList

/-- The requests in it. -/
def mixedRequests : List Request :=
  [request "PUT" "/u" (some "a=b?c".toList)
      [("Accept".toList, ["text".toList, "binary".toList, "x".toList])] "body\r",
    request "DELETE" "" (some "q".toList) [] "plain"]

/-- A response in the same manner. -/
def plusPayload : Text :=
  "--b\n\nHTTP/1.1 +007 x\nA:\n\n\nc\n--b--".toList

/-- The response in it. -/
def plusResponses : List Response :=
  [{ start := ⟨some 7⟩, headers := ⟨[("A".toList, [[]])]⟩, content := "\nc\n".toList }]

theorem parse_mixedPayload :
    parse short Item.empty (Utf8.encode mixedPayload) = .ok mixedRequests := by
  rw [parse_eq]
  decide +kernel

theorem parse_plusPayload :
    parse short Item.empty (Utf8.encode plusPayload) = .ok plusResponses := by
  rw [parse_eq]
  decide +kernel

/-- The requests and the response come back. -/
theorem parse_write_mixedRequests_plusResponses :
    (∃ again, parse short Item.empty (Utf8.encode (write short mixedRequests)) = .ok again ∧
        again = mixedRequests) ∧
      ∃ again, parse short Item.empty (Utf8.encode (write short plusResponses)) = .ok again ∧
        again = plusResponses := by
  have hmixed : OnlyUtf8 short (Utf8.encode mixedPayload) :=
    onlyUtf8_encode rfl (by decide +kernel)
  have hplus : OnlyUtf8 short (Utf8.encode plusPayload) :=
    onlyUtf8_encode rfl (by decide +kernel)
  obtain ⟨again, hagain, hback⟩ :=
    (parse_write_of_parse short delimiting_short.plain hmixed).1 mixedRequests parse_mixedPayload
      (by decide +kernel)
  obtain ⟨others, hothers, hback'⟩ :=
    (parse_write_of_parse short delimiting_short.plain hplus).2 plusResponses parse_plusPayload
      (by decide +kernel)
  exact ⟨⟨again, hagain, hback.mpr (by decide +kernel)⟩,
    others, hothers, hback'.mpr (by decide +kernel)⟩

/-- A payload that sets content off by a blank line though there are no headers. -/
def barePayload : Text :=
  "--b\r\n\r\nPOST /u HTTP/1.1\r\n\r\na: b\r\n--b--\r\n".toList

/-- The request in it, whose content reads as a header. -/
def bareRequest : Request :=
  request "POST" "/u" none [] "a: b"

/-- A payload with a content type that cannot be read, because of its comma. -/
def cutPayload : Text :=
  ("--b\r\n\r\nPOST /u HTTP/1.1\r\nContent-Type: a/b, c/d; charset=EBCDIC\r\n\r\n" ++
    "--b--\r\n").toList

/-- The request in it, whose content type is cut at the comma. -/
def cutRequest : Request :=
  request "POST" "/u" none
    [("Content-Type".toList, ["a/b".toList, "c/d; charset=EBCDIC".toList])] ""

/-- Requests that do not come back, though their payloads declare no other charset and tell
their start lines: what is written for the one reads as another request, and what is written
for the other is not read at all. -/
theorem parse_write_bareRequest_cutRequest_ne :
    (OnlyUtf8 short (Utf8.encode barePayload) ∧ bareRequest.startLine?.isSome = true ∧
        parse short Item.empty (Utf8.encode barePayload) = .ok [bareRequest] ∧
        parse short Item.empty (Utf8.encode (write short [bareRequest])) ≠ .ok [bareRequest]) ∧
      OnlyUtf8 short (Utf8.encode cutPayload) ∧ cutRequest.startLine?.isSome = true ∧
        parse short Item.empty (Utf8.encode cutPayload) = .ok [cutRequest] ∧
        parse short Item.empty (Utf8.encode (write short [cutRequest])) ≠ .ok [cutRequest] := by
  simp only [parse_eq]
  constructor
  · exact ⟨onlyUtf8_encode rfl (by decide +kernel), by decide, by decide +kernel,
      by decide +kernel⟩
  · exact ⟨onlyUtf8_encode rfl (by decide +kernel), by decide, by decide +kernel,
      by decide +kernel⟩

end Batch

end QueryBatch
