/-
Written payloads read back.  Every item comes back with its header values in elements,
unless it has content but no headers and its content starts like headers or a blank line.
-/
import QueryBatch.Proofs.Payload.Parts

namespace QueryBatch

open Lines (lines)

namespace Item

variable {σ : Type}

/-- A message with every header value replaced by its elements. -/
def normalized (item : Item σ) : Item σ :=
  { item with headers := item.headers.normalized }

/-- A message whose content cannot be taken for something else: it has headers, or the
first line of its content is neither blank nor a header. -/
def Separable (item : Item σ) : Prop :=
  item.headers.entries = [] → ∀ line ∈ (lines '\r' '\n' item.content).head?,
    Text.allBlank line = false ∧ Part.header? line = none

instance (item : Item σ) : Decidable item.Separable :=
  inferInstanceAs (Decidable (_ → ∀ _ ∈ _, _ ∧ _))

end Item

namespace Batch

open Multipart (withoutLastEnding)

theorem withoutLastEnding_contentLines (content : Text) :
    ∃ rest, rest.flatten = [] ∧
      withoutLastEnding (contentLines content) = lines '\r' '\n' content ++ rest := by
  unfold contentLines
  split
  · rename_i hnil
    exact ⟨[], rfl, by simp [hnil, withoutLastEnding]⟩
  · have hendLine : endLine content = content ++ ['\r', '\n'] := rfl
    rw [hendLine]
    rcases Lines.lines_append_ending (by decide : '\r' ≠ '\n') content with
      heq | ⟨before, last, hcontent, heq⟩
    · refine ⟨[[]], rfl, ?_⟩
      rw [heq, Multipart.withoutLastEnding_concat]
      rfl
    · refine ⟨[], rfl, ?_⟩
      rw [heq, Multipart.withoutLastEnding_concat, Multipart.dropLineEnding_append, hcontent,
        List.append_nil]

variable {σ : Type} {media : Multipart} {item : Item σ}

theorem withoutLastEnding_partLines [StartLine σ] {line : Text}
    (hline : item.startLine? = some line) :
    ∃ ending, Text.allBlank ending = true ∧
      withoutLastEnding (partLines item) =
        partHeaderTexts.map endLine ++
          (line ++ ending) :: withoutLastEnding (messageLines item) := by
  rw [partLines, hline, Option.getD_some]
  rw [Multipart.withoutLastEnding_append _ (by simp)]
  cases hmessage : messageLines item with
  | nil =>
      refine ⟨[], rfl, ?_⟩
      have hlast : withoutLastEnding [endLine line] = [line] :=
        (Multipart.withoutLastEnding_concat [] (endLine line)).trans
          (congrArg (fun t => [t]) (Multipart.dropLineEnding_append line))
      rw [hlast, List.append_nil]
      rfl
  | cons t message =>
      refine ⟨"\r\n".toList, allBlank_lineEnding, ?_⟩
      exact congrArg (partHeaderTexts.map endLine ++ ·)
        (Multipart.withoutLastEnding_append [endLine line] (by simp))

/-- Behind header lines stands a blank line, and behind that the content. -/
theorem withoutLastEnding_messageLines (hentries : item.headers.entries ≠ []) :
    ∃ blank body, Text.allBlank blank = true ∧ Part.header? blank = none ∧
      body.flatten = item.content ∧
      withoutLastEnding (messageLines item) =
        (fieldTexts item.headers).map endLine ++ blank :: body := by
  rw [messageLines, headerTexts, if_neg hentries, List.map_append, List.append_assoc]
  rw [Multipart.withoutLastEnding_append _ (by simp)]
  by_cases hcontent : item.content = []
  · refine ⟨[], [], rfl, rfl, by simp [hcontent], ?_⟩
    rw [contentLines, if_pos hcontent]
    rfl
  · obtain ⟨rest, hrest, hlines⟩ := withoutLastEnding_contentLines item.content
    have hne : contentLines item.content ≠ [] := by
      rw [contentLines, if_neg hcontent, ne_eq, Lines.lines_eq_nil_iff]
      simp [endLine]
    refine ⟨endLine [], lines '\r' '\n' item.content ++ rest, by decide, by decide, ?_, ?_⟩
    · rw [List.flatten_append, hrest, Lines.flatten_lines, List.append_nil]
    · rw [Multipart.withoutLastEnding_append _ hne, hlines]
      rfl

/-- With headers, the headers and the content of a message come back. -/
theorem message_of_headers (h : item.Carried media) (hentries : item.headers.entries ≠ []) :
    let message := withoutLastEnding (messageLines item)
    (Part.headers message).foldl (fun h field => Headers.appendElements h field.1 field.2) {} =
        item.headers.normalized ∧
      (Part.afterBlank (Part.afterHeaders message)).flatten = item.content := by
  obtain ⟨blank, body, hblank, hnone, hbody, hmessage⟩ := withoutLastEnding_messageLines hentries
  have hread : ∀ field ∈ item.headers.fields,
      Part.header? (endLine (field.1 ++ ": ".toList ++ field.2)) =
        some (field.1, Text.trim field.2) := by
    rintro ⟨name, value⟩ hmem
    obtain ⟨field, hfield, rfl, hvalue⟩ := Headers.mem_fields_iff.mp hmem
    obtain ⟨hne, hname⟩ := h.names field hfield
    exact Part.header?_endLine hne hname (h.values field hfield value hvalue).2
  have htexts : ∀ t ∈ (fieldTexts item.headers).map endLine, (Part.header? t).isSome = true := by
    simp only [fieldTexts, List.map_map, List.forall_mem_map, Function.comp_apply]
    exact fun field hfield => by rw [hread field hfield]; rfl
  have hfields : ((fieldTexts item.headers).map endLine).filterMap Part.header? =
      item.headers.fields.map fun field => (field.1, Text.trim field.2) := by
    rw [fieldTexts, List.map_map, List.filterMap_map, ← List.filterMap_eq_map]
    exact List.filterMap_congr hread
  have hfirst : ∀ t ∈ (blank :: body).head?, Part.header? t = none := by
    simpa using hnone
  obtain ⟨hheaders, hafter⟩ := Part.headers_append htexts hfirst
  intro message
  rw [show message = _ from hmessage, hheaders, hafter, hfields]
  refine ⟨Headers.foldl_appendElements_trim h.wellFormed, ?_⟩
  rw [Part.afterBlank, if_pos hblank, hbody]

/-- Without headers, the content comes back if and only if its first line is neither
blank nor a header; otherwise that line is lost. -/
theorem message_of_no_headers (hentries : item.headers.entries = []) :
    let message := withoutLastEnding (messageLines item)
    (Part.headers message).foldl (fun h field => Headers.appendElements h field.1 field.2) {} =
        item.headers.normalized ∧
      (Part.afterBlank (Part.afterHeaders message)).flatten = item.content ↔
    item.Separable := by
  obtain ⟨rest, hrest, hlines⟩ := withoutLastEnding_contentLines item.content
  have hmessage : withoutLastEnding (messageLines item) =
      lines '\r' '\n' item.content ++ rest := by
    rw [← hlines, messageLines, headerTexts, if_pos hentries]
    rfl
  have hnormalized : item.headers.normalized = {} := by
    simp [Headers.normalized, hentries]
  have hflatten : (lines '\r' '\n' item.content ++ rest).flatten = item.content := by
    rw [List.flatten_append, hrest, Lines.flatten_lines, List.append_nil]
  intro message
  rw [show message = _ from hmessage, hnormalized]
  cases hcons : lines '\r' '\n' item.content with
  | nil =>
      have hcontent := Lines.lines_eq_nil_iff.mp hcons
      have hnil : rest = [] := by
        simpa [hcontent, contentLines, withoutLastEnding] using hlines.symm
      rw [hnil, hcontent]
      refine iff_of_true ⟨rfl, rfl⟩ fun _ line hline => ?_
      rw [hcons] at hline
      cases hline
  | cons first others =>
      have hseparable : item.Separable ↔
          Text.allBlank first = false ∧ Part.header? first = none := by
        simp [Item.Separable, hentries, hcons]
      rw [hcons, List.cons_append, List.flatten_cons] at hflatten
      rw [hseparable, List.cons_append]
      constructor
      · rintro ⟨-, hcontent⟩
        have hne := Lines.ne_nil_of_lines_eq_cons hcons
        by_contra hlost
        rw [not_and_or, Bool.not_eq_false] at hlost
        exact Part.flatten_content_ne hne hlost (hcontent.trans hflatten.symm)
      · rintro ⟨hblank, hnone⟩
        obtain ⟨hheaders, hkept⟩ := Part.content_of_cons (others ++ rest) hblank hnone
        rw [hheaders, hkept]
        exact ⟨rfl, hflatten⟩

/-- What is written for an item reads as the item with its header values in elements if
and only if its content cannot be taken for something else. -/
theorem read_partLines_iff [StartLine σ] (h : item.Carried media)
    (hstart : StartLine.Restorable item.start) :
    Part.read Item.empty (withoutLastEnding (partLines item)) = item.normalized ↔
      item.Separable := by
  obtain ⟨line, hline⟩ := hstart
  obtain ⟨ending, hending, hpart⟩ := withoutLastEnding_partLines hline.written
  have hprotocol : protocol <:+: line ++ ending :=
    hline.protocolled.trans (List.prefix_append line ending).isInfix
  rw [hpart, Part.read_append hprotocol, hline.restored ending hending, Item.normalized,
    Item.mk.injEq]
  simp only [true_and]
  by_cases hentries : item.headers.entries = []
  · exact message_of_no_headers hentries
  · exact iff_of_true (message_of_headers h hentries) fun hnone => absurd hnone hentries

variable [StartLine σ]

theorem not_declaresOther_of_mem_write (hmedia : media.Plain) {items : List (Item σ)}
    (h : ∀ item ∈ items, item.Carried media ∧ StartLine.Restorable item.start) :
    ∀ t ∈ lines '\r' '\n' (write media items), ¬ ReadState.DeclaresOther t := by
  rw [lines_write hmedia h, List.forall_mem_append]
  constructor
  · intro t ht
    simp only [List.mem_flatMap, List.mem_map, List.mem_cons] at ht
    obtain ⟨_, ⟨item, hitem, rfl⟩, rfl | ht⟩ := ht
    · exact ReadState.not_declaresOther_of_contentType?
        (contentType?_endLine (delimiter_plain hmedia))
    · exact (ordinary_partLines hmedia (h item hitem).1 (h item hitem).2 t ht).2
  · rw [List.forall_mem_singleton]
    exact ReadState.not_declaresOther_of_contentType?
      (contentType?_endLine (closeDelimiter_plain hmedia))

/-- The first line of a payload is a delimiter, and the second one tells the type of the
first part, if there is any. -/
theorem exists_lines_write (hmedia : media.Plain) {items : List (Item σ)}
    (h : ∀ item ∈ items, item.Carried media ∧ StartLine.Restorable item.start) :
    ∃ first others, lines '\r' '\n' (write media items) = first :: others ∧
      ReadState.contentType? first = none ∧
      ∀ second ∈ others.head?, ReadState.contentType? second ≠ none := by
  rw [lines_write hmedia h]
  cases items with
  | nil => exact ⟨_, [], rfl, contentType?_endLine (closeDelimiter_plain hmedia), by simp⟩
  | cons item items =>
      have htype : ReadState.contentType? (endLine "Content-Type: application/http".toList) ≠
          none := by decide
      refine ⟨endLine media.delimiter, _, rfl, contentType?_endLine (delimiter_plain hmedia), ?_⟩
      intro second hsecond
      obtain rfl := Option.some.inj hsecond
      exact htype

/-- A payload in UTF-8 reads as the lines that were written. -/
theorem read_write (hmedia : media.Plain) {items : List (Item σ)}
    (h : ∀ item ∈ items, item.Carried media ∧ StartLine.Restorable item.start) :
    (LineReader.standard media [.bytes (Utf8.encode (write media items))]).read =
      .ok (ReadState.numbered (lines '\r' '\n' (write media items))) := by
  have hlines : lines Source.cr Source.lf (Utf8.encode (write media items)) = _ :=
    Utf8.lines_encode (write media items)
  have hdeclares := not_declaresOther_of_mem_write hmedia h
  obtain ⟨first, others, hwritten, hfirst, hsecond⟩ := exists_lines_write hmedia h
  rw [hwritten, List.forall_mem_cons] at hdeclares
  rw [LineReader.standard, LineReader.read_ofDeliveries_bytes, hlines, hwritten]
  exact ReadState.readPayload_encode media hfirst hsecond hdeclares.2

/-- Every part of a payload reads for itself. -/
theorem parse_write (hmedia : media.Plain) {items : List (Item σ)}
    (h : ∀ item ∈ items, item.Carried media ∧ StartLine.Restorable item.start) :
    parse media (Item.empty : Item σ) (Utf8.encode (write media items)) =
      .ok (items.map fun item => Part.read Item.empty (withoutLastEnding (partLines item))) := by
  have hreader : parse media (Item.empty : Item σ) (Utf8.encode (write media items)) =
      ofReader media Item.empty
        (LineReader.standard media [.bytes (Utf8.encode (write media items))]) := rfl
  have hbodies : ∀ body ∈ items.map partLines, ∀ t ∈ body, media.Inner t := by
    rw [List.forall_mem_map]
    exact fun item hitem t ht =>
      (ordinary_partLines hmedia (h item hitem).1 (h item hitem).2 t ht).1
  rw [hreader, ofReader, read_write hmedia h, lines_write hmedia h]
  show ofLines media Item.empty (ReadState.numbered _) = _
  rw [ofLines_numbered Item.empty hbodies, List.map_map]
  rfl

/-- A payload comes back as items, and the items are those that were written, with their
header values in elements, if and only if no content can be taken for something else. -/
def ReadsBack (media : Multipart) (items : List (Item σ)) : Prop :=
  ∃ parsed, parse media Item.empty (Utf8.encode (write media items)) = .ok parsed ∧
    (parsed = items.map Item.normalized ↔ ∀ item ∈ items, item.Separable)

theorem readsBack_of_restorable (hmedia : media.Plain) {items : List (Item σ)}
    (h : ∀ item ∈ items, item.Carried media ∧ StartLine.Restorable item.start) :
    ReadsBack media items := by
  refine ⟨_, parse_write hmedia h, ?_⟩
  rw [List.map_inj_left]
  constructor
  · exact fun heq item hitem =>
      (read_partLines_iff (h item hitem).1 (h item hitem).2).mp (heq item hitem)
  · exact fun hseparable item hitem =>
      (read_partLines_iff (h item hitem).1 (h item hitem).2).mpr (hseparable item hitem)

/-- Whatever its requests or responses are, a payload is read without failure, and every
message comes back unless it has no headers and its content starts with a blank line or
with what reads as a header.  The elements of its header values are their pieces between commas,
without the blanks around them. -/
theorem parse_write_iff (media : Multipart) (hmedia : media.Plain) :
    (∀ requests : List Request,
      (∀ request ∈ requests, request.start.Complete ∧ request.Carried media) →
        ReadsBack media requests) ∧
    (∀ responses : List Response,
      (∀ response ∈ responses, response.start.Complete ∧ response.Carried media) →
        ReadsBack media responses) ∧
    ∀ value texts, Headers.elements value = texts ↔ Headers.AreElements value texts := by
  refine ⟨?_, ?_, fun _ _ => Headers.elements_eq_iff⟩
  · intro requests hrequests
    refine readsBack_of_restorable hmedia fun request hrequest => ?_
    obtain ⟨hcomplete, hcarried⟩ := hrequests request hrequest
    exact ⟨hcarried, RequestLine.restorable_of_complete hcomplete⟩
  · intro responses hresponses
    refine readsBack_of_restorable hmedia fun response hresponse => ?_
    obtain ⟨hcomplete, hcarried⟩ := hresponses response hresponse
    exact ⟨hcarried, StatusLine.restorable_of_complete hcomplete⟩

/-- A request with headers, and content that reads as a header. -/
def post : Request :=
  { start := ⟨Method.ofText? "POST".toList, some "/users".toList, some "a=1".toList⟩
    headers := ⟨[("Accept".toList, ["text, binary".toList])]⟩
    content := "x: y\n".toList }

/-- A response without headers, and content that starts with a blank line. -/
def accepted : Response :=
  { start := ⟨some 202⟩, content := "\r\nx".toList }

theorem post_complete : post.start.Complete where
  method := ⟨_, rfl, by decide⟩
  path := ⟨_, rfl, by decide, by decide, Text.not_isBlank_of_all (by decide)⟩
  query := by
    intro query hquery
    obtain rfl := Option.some.inj hquery
    exact Text.not_isBlank_of_all (by decide)

theorem post_carried : post.Carried ⟨['b'], .utf8⟩ := by
  have hnames : ∀ field ∈ post.headers.entries,
      field.1 ≠ [] ∧ field.1.all Part.isHeaderName = true := by decide
  refine Item.carried_of_no_contentType ⟨List.pairwise_singleton _ _, by decide⟩ ?_ (by decide)
    (by decide) (by decide)
  intro field hfield
  exact ⟨(hnames field hfield).1, List.all_eq_true.mp (hnames field hfield).2⟩

theorem accepted_carried : accepted.Carried ⟨['b'], .utf8⟩ :=
  Item.carried_of_no_contentType ⟨.nil, by decide⟩ (by simp [accepted]) (by decide)
    (by simp [accepted]) (by decide)

/-- The request comes back, its header values apart; the response does not. -/
theorem parse_write_post_accepted :
    (∃ parsed, parse ⟨['b'], .utf8⟩ Item.empty (Utf8.encode (write ⟨['b'], .utf8⟩ [post])) =
        .ok parsed ∧ parsed = [post.normalized] ∧
          post.normalized.headers.entries =
            [("Accept".toList, ["text".toList, "binary".toList])]) ∧
      ∃ parsed, parse ⟨['b'], .utf8⟩ Item.empty (Utf8.encode (write ⟨['b'], .utf8⟩ [accepted])) =
        .ok parsed ∧ parsed ≠ [accepted.normalized] := by
  have hmedia : Multipart.Plain ⟨['b'], .utf8⟩ := by
    intro c hc
    obtain rfl : c = 'b' := by simpa [Multipart.boundary] using hc
    decide
  obtain ⟨hrequests, hresponses, -⟩ := parse_write_iff ⟨['b'], .utf8⟩ hmedia
  obtain ⟨parsed, hparsed, hback⟩ := hrequests [post]
    (List.forall_mem_singleton.mpr ⟨post_complete, post_carried⟩)
  obtain ⟨others, hothers, hlost⟩ := hresponses [accepted]
    (List.forall_mem_singleton.mpr ⟨⟨202, rfl⟩, accepted_carried⟩)
  have hseparable : post.Separable := fun hnil => absurd hnil (by decide)
  have hinseparable : ¬ accepted.Separable := by
    intro h
    have hblank := (h rfl "\r\n".toList (by decide)).1
    exact absurd hblank (by decide)
  refine ⟨⟨parsed, hparsed, hback.mpr (List.forall_mem_singleton.mpr hseparable), by decide⟩,
    others, hothers, fun heq => hinseparable ?_⟩
  exact hlost.mp heq accepted List.mem_cons_self

end Batch

end QueryBatch
