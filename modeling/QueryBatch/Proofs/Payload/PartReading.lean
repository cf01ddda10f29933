/-
Payloads read part by part.  A delimiter puts the reader back to headers in the default
charset, so parts that read the same whatever was read before them make up a payload
that fails or succeeds with each of them, and each of them becomes an item on its own.
-/
import QueryBatch.Proofs.Payload.Parts
import QueryBatch.Proofs.Text.Decoding

namespace QueryBatch

open Lines (lines)
open Source (cr lf)

namespace ReadState

/-- Raw lines as texts, with what is known after them; the first failure ends them. -/
def readOn : ReadState → List Bytes → Except Error (List Text × ReadState)
  | s, [] => .ok ([], s)
  | s, raw :: raws =>
      match s.readRaw raw with
      | .error e => .error e
      | .ok (line, after) => (readOn after raws).map fun (texts, last) => (line :: texts, last)

theorem readAll_eq (s : ReadState) (raws : List Bytes) :
    s.readAll raws = (s.readOn raws).map Prod.fst := by
  induction raws generalizing s with
  | nil => rfl
  | cons raw raws ih =>
      rw [readAll, readOn]
      cases s.readRaw raw with
      | error e => rfl
      | ok result =>
          obtain ⟨line, after⟩ := result
          simp only [ih after]
          cases after.readOn raws <;> rfl

theorem readRaw_eq_ok_iff {s after : ReadState} {raw : Bytes} {line : Text} :
    s.readRaw raw = .ok (line, after) ↔ s.decode raw = line ∧ s.observe line = .ok after := by
  rw [readRaw, map_eq_ok_iff]
  constructor
  · rintro ⟨state, hobserve, hresult⟩
    obtain ⟨rfl, rfl⟩ := Prod.mk.inj hresult
    exact ⟨rfl, hobserve⟩
  · rintro ⟨rfl, hobserve⟩
    exact ⟨after, hobserve, rfl⟩

/-- The first raw line is read, and then the others from what is known after it. -/
theorem readOn_cons_eq_ok_iff {s last : ReadState} {raw : Bytes} {raws : List Bytes}
    {texts : List Text} :
    s.readOn (raw :: raws) = .ok (texts, last) ↔
      ∃ others after, texts = s.decode raw :: others ∧ s.observe (s.decode raw) = .ok after ∧
        after.readOn raws = .ok (others, last) := by
  rw [readOn]
  constructor
  · intro h
    cases hraw : s.readRaw raw with
    | error e =>
        rw [hraw] at h
        cases h
    | ok result =>
        obtain ⟨line, after⟩ := result
        rw [hraw] at h
        obtain ⟨⟨others, state⟩, hothers, hresult⟩ := map_eq_ok_iff.mp h
        obtain ⟨rfl, rfl⟩ := Prod.mk.inj hresult
        obtain ⟨rfl, hobserve⟩ := readRaw_eq_ok_iff.mp hraw
        exact ⟨others, after, rfl, hobserve, hothers⟩
  · rintro ⟨others, after, rfl, hobserve, hothers⟩
    rw [readRaw_eq_ok_iff.mpr ⟨rfl, hobserve⟩]
    simp only [hothers, Except.map]

theorem readOn_cons {s after last : ReadState} {raw : Bytes} {raws : List Bytes} {line : Text}
    {others : List Text} (hdecode : s.decode raw = line) (hobserve : s.observe line = .ok after)
    (hothers : after.readOn raws = .ok (others, last)) :
    s.readOn (raw :: raws) = .ok (line :: others, last) :=
  readOn_cons_eq_ok_iff.mpr ⟨others, after, by rw [hdecode], by rw [hdecode, hobserve], hothers⟩

/-- Raw lines behind others are read from what is known after those. -/
theorem readOn_append_eq_ok_iff {s last : ReadState} {raws more : List Bytes}
    {texts : List Text} :
    s.readOn (raws ++ more) = .ok (texts, last) ↔
      ∃ before after mid, texts = before ++ after ∧ s.readOn raws = .ok (before, mid) ∧
        mid.readOn more = .ok (after, last) := by
  induction raws generalizing s texts with
  | nil =>
      constructor
      · exact fun h => ⟨[], texts, s, rfl, rfl, h⟩
      · rintro ⟨before, after, mid, rfl, hbefore, hafter⟩
        obtain ⟨rfl, rfl⟩ := Prod.mk.inj (Except.ok.inj hbefore)
        exact hafter
  | cons raw raws ih =>
      rw [List.cons_append, readOn_cons_eq_ok_iff]
      constructor
      · rintro ⟨others, next, rfl, hobserve, hothers⟩
        obtain ⟨before, after, mid, rfl, hbefore, hafter⟩ := ih.mp hothers
        have hfirst := readOn_cons_eq_ok_iff.mpr ⟨before, next, rfl, hobserve, hbefore⟩
        exact ⟨_, after, mid, rfl, hfirst, hafter⟩
      · rintro ⟨before, after, mid, rfl, hbefore, hafter⟩
        obtain ⟨others, next, rfl, hobserve, hothers⟩ := readOn_cons_eq_ok_iff.mp hbefore
        exact ⟨others ++ after, next, rfl, hobserve,
          ih.mpr ⟨others, after, mid, rfl, hothers, hafter⟩⟩

theorem readOn_append {s mid last : ReadState} {raws more : List Bytes} {before after : List Text}
    (hbefore : s.readOn raws = .ok (before, mid)) (hafter : mid.readOn more = .ok (after, last)) :
    s.readOn (raws ++ more) = .ok (before ++ after, last) :=
  readOn_append_eq_ok_iff.mpr ⟨before, after, mid, rfl, hbefore, hafter⟩

/-- Every text that is read is its raw line in some charset. -/
theorem reads_of_readOn {s last : ReadState} {raws : List Bytes} {texts : List Text}
    (h : s.readOn raws = .ok (texts, last)) : List.Forall₂ Charset.Reads raws texts := by
  induction raws generalizing s texts with
  | nil =>
      obtain ⟨rfl, -⟩ := Prod.mk.inj (Except.ok.inj h)
      exact .nil
  | cons raw raws ih =>
      obtain ⟨others, after, rfl, -, hothers⟩ := readOn_cons_eq_ok_iff.mp h
      exact .cons ⟨_, rfl⟩ (ih hothers)

/-- So is every line of a payload. -/
theorem reads_of_readPayload {s : ReadState} {raws : List Bytes} {read : List Line}
    (h : s.readPayload raws = .ok read) :
    List.Forall₂ Charset.Reads raws (read.map Line.content) := by
  cases raws with
  | nil =>
      obtain rfl := Except.ok.inj h
      exact .nil
  | cons raw raws =>
      rw [readPayload] at h
      cases hraw : s.readRaw raw with
      | error e =>
          rw [hraw] at h
          cases h
      | ok result =>
          obtain ⟨first, after⟩ := result
          rw [hraw] at h
          obtain ⟨others, hothers, rfl⟩ := map_eq_ok_iff.mp h
          rw [readAll_eq] at hothers
          obtain ⟨⟨texts, last⟩, hread, rfl⟩ := map_eq_ok_iff.mp hothers
          rw [map_content_numbered]
          exact .cons ⟨_, (readRaw_eq_ok_iff.mp hraw).1⟩ (reads_of_readOn hread)

/-- Text in ASCII reads as itself wherever it stands. -/
theorem decode_encode_of_ascii (s : ReadState) {t : Text} (ht : t.Ascii) :
    s.decode (Utf8.encode t) = t :=
  Charset.decode_encode_of_ascii _ ht

/-- A reader inside a payload: it has kept the default charset and the delimiter. -/
structure Within (media : Multipart) (D : Charset) (s : ReadState) : Prop where
  default : s.defaultCharset = D
  boundary : s.boundary = media.delimiter

/-- A reader at the start of a part: it looks for headers. -/
structure AtPart (media : Multipart) (D : Charset) (s : ReadState) : Prop extends
    Within media D s where
  progress : s.progress.blankLines = 0

theorem atPart_initial (media : Multipart) (D : Charset) : AtPart media D (initial media D) :=
  ⟨⟨rfl, rfl⟩, rfl⟩

end ReadState

namespace Multipart

/-- A boundary that every charset reads as it is, that is one word and no header, and that
keeps its end when the hyphens of a close delimiter are taken off. -/
structure Delimiting (media : Multipart) : Prop where
  plain : media.Plain
  ascii : media.boundary.Ascii
  nonempty : media.boundary ≠ []
  noHyphen : media.boundary.getLast? ≠ some '-'

variable {media : Multipart}

theorem getLast?_delimiter (h : media.Delimiting) : media.delimiter.getLast? ≠ some '-' := by
  rw [delimiter, List.getLast?_append_of_ne_nil _ h.nonempty]
  exact h.noHyphen

theorem ascii_delimiter (h : media.Delimiting) : media.delimiter.Ascii :=
  Text.Ascii.append (by decide) h.ascii

theorem ascii_closeDelimiter (h : media.Delimiting) : media.closeDelimiter.Ascii :=
  (ascii_delimiter h).append (by decide)

end Multipart

namespace ReadState

variable {media : Multipart} {D : Charset} {s : ReadState}

/-- Whatever the lines of a payload are, its delimiters put the reader back to headers. -/
theorem observe_of_delimiter (hs : Within media D s) (hmedia : media.Plain) {line : Text}
    (hline : line = media.delimiter ∨ line = media.closeDelimiter) :
    ∃ after, s.observe (Batch.endLine line) = .ok after ∧ AtPart media D after := by
  have hplain : ∀ c ∈ line, Text.isBlank c = false ∧ c ≠ ':' := by
    rcases hline with rfl | rfl
    · exact Batch.delimiter_plain hmedia
    · exact Batch.closeDelimiter_plain hmedia
  have hnone := Batch.contentType?_endLine hplain
  have hbare : Text.dropEndWhile (fun c => c == '\r' || c == '\n') (Batch.endLine line) = line := by
    have hending : "\r\n".toList.all (fun c => c == '\r' || c == '\n') = true := by decide
    rw [Batch.endLine, Text.dropEndWhile_append hending]
    apply Text.dropEndWhile_eq_self
    intro c hc
    have hunbroken := Batch.unbroken_of_plain hplain c (List.mem_of_getLast? hc)
    simp [hunbroken]
  have hboundary : s.isBoundary (Batch.endLine line) = true := by
    simp only [isBoundary, hbare, hs.boundary]
    rcases hline with rfl | rfl <;> simp [Multipart.closeDelimiter, Multipart.delimiter]
  have hfull : Batch.endLine line ≠ "\r\n".toList := by
    rcases hline with rfl | rfl <;>
      simp [Batch.endLine, Multipart.closeDelimiter, Multipart.delimiter]
  refine ⟨{ s with progress := s.progress.afterBoundary }, ?_, ⟨⟨hs.default, hs.boundary⟩, rfl⟩⟩
  unfold observe
  simp only [hnone, hfull, if_false, hboundary, if_true]

theorem isBoundary_eq_false (hs : Within media D s) {line : Text} (hline : media.Inner line) :
    s.isBoundary line = false := by
  obtain ⟨ending, hending, heq⟩ := Text.exists_dropEndWhile (fun c => c == '\r' || c == '\n') line
  have hblank : Text.allBlank ending = true := by
    rw [Text.allBlank, List.all_eq_true] at *
    intro c hc
    have hc := hending c hc
    simp only [Bool.or_eq_true, beq_iff_eq] at hc
    rcases hc with rfl | rfl <;> decide
  simp only [isBoundary, hs.boundary, Bool.or_eq_false_iff, beq_eq_false_iff_ne]
  constructor
  · intro hbare
    rw [hbare] at heq
    have hopens : media.opensPart line = true :=
      Multipart.isDelimiterLine_iff.mpr ⟨ending, heq, hblank⟩
    rw [hline.1] at hopens
    cases hopens
  · intro hbare
    rw [hbare] at heq
    have hends : media.endsParts line = true :=
      Multipart.isDelimiterLine_iff.mpr ⟨ending, heq, hblank⟩
    rw [hline.2] at hends
    cases hends

/-- A line that is neither blank nor a content type nor a delimiter changes nothing. -/
theorem observe_of_inner (hs : Within media D s) {line : Text} (hnone : contentType? line = none)
    (hinner : media.Inner line) (hfull : line ≠ "\r\n".toList) : s.observe line = .ok s := by
  simp only [observe, hnone, hfull, if_false, isBoundary_eq_false hs hinner, Bool.false_eq_true]

/-- A blank line brings the body nearer. -/
theorem observe_blank (s : ReadState) :
    s.observe (Batch.endLine []) = .ok { s with progress := s.progress.afterBlank } := by
  have hnone : contentType? "\r\n".toList = none := by decide
  have hblank : Batch.endLine [] = "\r\n".toList := rfl
  simp only [observe, hblank, hnone, if_true]

/-- A delimiter in the first line sets the boundary that is known already. -/
theorem adopt_of_delimiter (hs : s.boundary = media.delimiter) (hmedia : media.Delimiting)
    {line : Text} (hline : line = media.delimiter ∨ line = media.closeDelimiter) :
    s.adopt (Batch.endLine line) = s := by
  have hplain : ∀ c ∈ line, Text.isBlank c = false := by
    intro c hc
    rcases hline with rfl | rfl
    · exact (Batch.delimiter_plain hmedia.plain c hc).1
    · exact (Batch.closeDelimiter_plain hmedia.plain c hc).1
  have hmarker : Text.trim (Batch.endLine line) = line := by
    rw [Batch.endLine, Text.trim_append_right Batch.allBlank_lineEnding]
    exact Text.trim_eq_self hplain
  have hopens : (Text.dropStart? "--".toList line).isSome = true := by
    rcases hline with rfl | rfl <;>
      simp [Multipart.closeDelimiter, Multipart.delimiter, Text.dropStart?]
  have hstays : dropHyphenPairs media.delimiter.reverse = media.delimiter.reverse := by
    have hlast := Multipart.getLast?_delimiter hmedia
    rw [← List.head?_reverse] at hlast
    cases hreverse : media.delimiter.reverse with
    | nil => rfl
    | cons c r =>
        rw [hreverse] at hlast
        rw [dropHyphenPairs]
        intro r' heq
        rw [heq] at hlast
        exact hlast rfl
  have hpairs : (dropHyphenPairs line.reverse).reverse = media.delimiter := by
    rcases hline with rfl | rfl
    · rw [hstays, List.reverse_reverse]
    · have hreverse : media.closeDelimiter.reverse = '-' :: '-' :: media.delimiter.reverse := by
        simp [Multipart.closeDelimiter, Multipart.delimiter]
      rw [hreverse, dropHyphenPairs, hstays, List.reverse_reverse]
  unfold adopt
  simp only [hmarker, hopens, if_true, hpairs, ← hs]

/-- A payload whose first line sets no other boundary is read like any other lines. -/
theorem readPayload_eq {raws : List Bytes}
    (hadopt : ∀ raw ∈ raws.head?, ∀ after, s.observe (s.decode raw) = .ok after →
      after.adopt (s.decode raw) = after) :
    s.readPayload raws = (s.readAll raws).map numbered := by
  cases raws with
  | nil => rfl
  | cons raw raws =>
      rw [readPayload, readAll, readRaw]
      cases hobserve : s.observe (s.decode raw) with
      | error e => rfl
      | ok after =>
          simp only [Except.map, hadopt raw rfl after hobserve]
          cases after.readAll raws <;> rfl

/-- A part that reads the same wherever it stands in a payload: whatever was read before
it, it fails or gives the same texts, none of them a delimiter, and the delimiter after it
is known. -/
structure Isolated (media : Multipart) (D : Charset) (part : Bytes) : Prop where
  ended : ∀ b ∈ part.getLast?, b = lf
  same : ∀ s s' : ReadState, AtPart media D s → AtPart media D s' → ∀ texts last,
    s.readOn (lines cr lf part) = .ok (texts, last) →
      ∃ last', s'.readOn (lines cr lf part) = .ok (texts, last')
  kept : ∀ s : ReadState, AtPart media D s → ∀ texts last,
    s.readOn (lines cr lf part) = .ok (texts, last) →
      Within media D last ∧ ∀ t ∈ texts, media.Inner t

/-- What a part reads as behind the first delimiter of a payload. -/
def PartReads (media : Multipart) (D : Charset) (part : Bytes) (texts : List Text) : Prop :=
  ∃ last, (initial media D).readOn (lines cr lf part) = .ok (texts, last)

/-- The raw lines of a payload: parts behind delimiters, and the close delimiter. -/
def framed (media : Multipart) (parts : List Bytes) : List Bytes :=
  parts.flatMap (fun part => Utf8.encode (Batch.endLine media.delimiter) :: lines cr lf part) ++
    [Utf8.encode (Batch.endLine media.closeDelimiter)]

theorem ascii_endLine {t : Text} (ht : t.Ascii) : (Batch.endLine t).Ascii :=
  ht.append (by decide)

theorem readOn_close_eq_ok_iff (hs : Within media D s) (hmedia : media.Delimiting)
    {texts : List Text} :
    (∃ last, s.readOn [Utf8.encode (Batch.endLine media.closeDelimiter)] = .ok (texts, last)) ↔
      texts = [Batch.endLine media.closeDelimiter] := by
  have hdecode := s.decode_encode_of_ascii (ascii_endLine (Multipart.ascii_closeDelimiter hmedia))
  obtain ⟨after, hafter, -⟩ := observe_of_delimiter hs hmedia.plain (Or.inr rfl)
  constructor
  · rintro ⟨last, h⟩
    obtain ⟨others, next, rfl, -, hothers⟩ := readOn_cons_eq_ok_iff.mp h
    obtain ⟨rfl, -⟩ := Prod.mk.inj (Except.ok.inj hothers)
    rw [hdecode]
  · rintro rfl
    exact ⟨after, readOn_cons hdecode hafter rfl⟩

/-- Isolated parts behind delimiters read one after the other as what each of them reads as
on its own. -/
theorem readOn_framed_eq_ok_iff (hs : Within media D s) (hmedia : media.Delimiting)
    {parts : List Bytes} (hparts : ∀ part ∈ parts, Isolated media D part) {texts : List Text} :
    (∃ last, s.readOn (framed media parts) = .ok (texts, last)) ↔
      ∃ bodies, List.Forall₂ (PartReads media D) parts bodies ∧
        texts = bodies.flatMap (Batch.endLine media.delimiter :: ·) ++
          [Batch.endLine media.closeDelimiter] := by
  induction parts generalizing s texts with
  | nil =>
      rw [framed, List.flatMap_nil, List.nil_append, readOn_close_eq_ok_iff hs hmedia]
      constructor
      · exact fun h => ⟨[], .nil, h⟩
      · rintro ⟨bodies, hbodies, h⟩
        cases hbodies
        exact h
  | cons part parts ih =>
      obtain ⟨hpart, hparts⟩ := List.forall_mem_cons.mp hparts
      have hframed : framed media (part :: parts) =
          Utf8.encode (Batch.endLine media.delimiter) ::
            (lines cr lf part ++ framed media parts) := by
        simp [framed]
      have hdecode := s.decode_encode_of_ascii (ascii_endLine (Multipart.ascii_delimiter hmedia))
      obtain ⟨start, hstart, hatPart⟩ := observe_of_delimiter hs hmedia.plain (Or.inl rfl)
      rw [hframed]
      constructor
      · rintro ⟨last, h⟩
        obtain ⟨others, after, rfl, hobserve, hothers⟩ := readOn_cons_eq_ok_iff.mp h
        rw [hdecode, hstart] at hobserve
        obtain rfl := Except.ok.inj hobserve
        obtain ⟨body, rest, mid, rfl, hbody, hrest⟩ := readOn_append_eq_ok_iff.mp hothers
        obtain ⟨hmid, -⟩ := hpart.kept start hatPart body mid hbody
        obtain ⟨bodies, hbodies, rfl⟩ := (ih hmid hparts).mp ⟨last, hrest⟩
        have hreads := hpart.same start _ hatPart (atPart_initial media D) body mid hbody
        exact ⟨body :: bodies, .cons hreads hbodies, by simp [hdecode]⟩
      · rintro ⟨bodies, hbodies, rfl⟩
        obtain ⟨body, others, hbody, hothers, rfl⟩ := List.forall₂_cons_left_iff.mp hbodies
        obtain ⟨mid, hmid⟩ := hbody
        obtain ⟨mid, hmid⟩ := hpart.same _ start (atPart_initial media D) hatPart body mid hmid
        obtain ⟨hwithin, -⟩ := hpart.kept start hatPart body mid hmid
        obtain ⟨last, hlast⟩ := (ih hwithin hparts).mpr ⟨others, hothers, rfl⟩
        refine ⟨last, ?_⟩
        rw [List.flatMap_cons, List.cons_append, List.cons_append, List.append_assoc]
        exact readOn_cons hdecode hstart (readOn_append hmid hlast)

end ReadState

namespace Batch

open Multipart (withoutLastEnding)
open ReadState (Isolated PartReads framed)

variable {σ : Type} [StartLine σ] {media : Multipart} {D : Charset}

/-- A payload made of parts as they are, each behind a delimiter, with a close delimiter
at the end. -/
def assemble (media : Multipart) (parts : List Bytes) : Bytes :=
  parts.flatMap (fun part => Utf8.encode (endLine media.delimiter) ++ part) ++
    Utf8.encode (endLine media.closeDelimiter)

/-- Text that ends a line makes one raw line, whatever follows. -/
theorem lines_encode_endLine_append {t : Text} (ht : Lines.Unbroken '\r' '\n' t) (u : Bytes) :
    lines cr lf (Utf8.encode (endLine t) ++ u) = Utf8.encode (endLine t) :: lines cr lf u := by
  have hended : Lines.Ended '\r' '\n' (endLine t) := ⟨t, "\r\n".toList, rfl, ht, Or.inl rfl⟩
  apply Lines.lines_append_of_ended Source.cr_ne_lf (Utf8.ended_encode hended)
  intro hcut
  have hlast := Utf8.getLast?_of_encode hcut.1
  simp [endLine] at hlast

theorem lines_assemble (hmedia : media.Plain) {parts : List Bytes}
    (hparts : ∀ part ∈ parts, ∀ b ∈ part.getLast?, b = lf) :
    lines cr lf (assemble media parts) = framed media parts := by
  unfold assemble framed
  induction parts with
  | nil =>
      have hclose := unbroken_of_plain (closeDelimiter_plain hmedia)
      simpa using lines_encode_endLine_append hclose []
  | cons part parts ih =>
      obtain ⟨hpart, hparts⟩ := List.forall_mem_cons.mp hparts
      have hdelimiter := unbroken_of_plain (delimiter_plain hmedia)
      have happend : ∀ u, lines cr lf (part ++ u) = lines cr lf part ++ lines cr lf u := by
        intro u
        cases hlast : part.getLast? with
        | none => simp [List.getLast?_eq_none_iff.mp hlast]
        | some b =>
            rw [hpart b hlast] at hlast
            exact Lines.lines_append_of_getLast? Source.cr_ne_lf hlast
      rw [List.flatMap_cons, List.append_assoc, List.append_assoc,
        lines_encode_endLine_append hdelimiter, happend, ih hparts, List.flatMap_cons]
      simp

/-- The item that a part becomes. -/
def PartBecomes (media : Multipart) (D : Charset) (template : Item σ) (part : Bytes)
    (item : Item σ) : Prop :=
  ∃ texts, PartReads media D part texts ∧ Part.read template (withoutLastEnding texts) = item

/-- The first line of a payload is a delimiter and sets the boundary that is known. -/
theorem adopt_framed (hmedia : media.Delimiting) (parts : List Bytes) :
    let s := ReadState.initial media D
    ∀ raw ∈ (framed media parts).head?, ∀ after, s.observe (s.decode raw) = .ok after →
      after.adopt (s.decode raw) = after := by
  intro s raw hraw after hafter
  obtain ⟨line, hline, hascii, rfl⟩ : ∃ line,
      (line = media.delimiter ∨ line = media.closeDelimiter) ∧
        line.Ascii ∧ raw = Utf8.encode (endLine line) := by
    cases parts with
    | nil =>
        exact ⟨_, Or.inr rfl, Multipart.ascii_closeDelimiter hmedia, (Option.some.inj hraw).symm⟩
    | cons part parts =>
        exact ⟨_, Or.inl rfl, Multipart.ascii_delimiter hmedia, (Option.some.inj hraw).symm⟩
  obtain ⟨next, hnext, hatPart⟩ :=
    ReadState.observe_of_delimiter (ReadState.atPart_initial media D).toWithin hmedia.plain hline
  rw [s.decode_encode_of_ascii (ReadState.ascii_endLine hascii)] at hafter ⊢
  obtain rfl := Except.ok.inj (hnext.symm.trans hafter)
  exact ReadState.adopt_of_delimiter hatPart.boundary hmedia hline

/-- The lines that a payload of parts is read as. -/
theorem read_assemble (hmedia : media.Delimiting) {parts : List Bytes}
    (hparts : ∀ part ∈ parts, Isolated media D part) (size : Nat) {deliveries : List Delivery}
    (hsteady : Delivery.Steady deliveries)
    (hbytes : Delivery.joined deliveries = assemble media parts) {read : List Line} :
    (LineReader.ofDeliveries media size D deliveries).read = .ok read ↔
      ∃ bodies, List.Forall₂ (PartReads media D) parts bodies ∧
        read = ReadState.numbered (bodies.flatMap (endLine media.delimiter :: ·) ++
          [endLine media.closeDelimiter]) := by
  have hraws : lines cr lf (Delivery.joined deliveries) = framed media parts := by
    rw [hbytes]
    exact lines_assemble hmedia.plain fun part hpart => (hparts part hpart).ended
  have hstate : (LineReader.ofDeliveries media size D deliveries).read =
      ((ReadState.initial media D).readAll (framed media parts)).map ReadState.numbered := by
    rw [LineReader.read_of_steady (LineReader.steady_ofDeliveries media size D hsteady),
      LineReader.ahead_ofDeliveries, hraws]
    exact ReadState.readPayload_eq (adopt_framed hmedia parts)
  have hwithin := (ReadState.atPart_initial media D).toWithin
  rw [hstate, map_eq_ok_iff, ReadState.readAll_eq]
  constructor
  · rintro ⟨texts, htexts, rfl⟩
    obtain ⟨⟨texts, last⟩, hread, rfl⟩ := map_eq_ok_iff.mp htexts
    obtain ⟨bodies, hbodies, rfl⟩ :=
      (ReadState.readOn_framed_eq_ok_iff hwithin hmedia hparts).mp ⟨last, hread⟩
    exact ⟨bodies, hbodies, rfl⟩
  · rintro ⟨bodies, hbodies, rfl⟩
    obtain ⟨last, hread⟩ :=
      (ReadState.readOn_framed_eq_ok_iff hwithin hmedia hparts).mpr ⟨bodies, hbodies, rfl⟩
    exact ⟨_, map_eq_ok_iff.mpr ⟨_, hread, rfl⟩, rfl⟩

theorem ofDeliveries_eq_ok_iff {settings : BatchSettings} (hsettings : settings.validate = .ok ())
    (hD : settings.charset = .ok D) (template : Item σ) {deliveries : List Delivery}
    {items : List (Item σ)} :
    ofDeliveries media settings template deliveries = .ok items ↔
      ∃ read, (LineReader.ofDeliveries media settings.bufferSize D deliveries).read = .ok read ∧
        ofLines media template read = .ok items := by
  have hreader : LineReader.ofSettings media settings deliveries =
      .ok (LineReader.ofDeliveries media settings.bufferSize D deliveries) := by
    rw [LineReader.ofSettings, hsettings, hD]
    rfl
  rw [ofDeliveries, hreader]
  show ofReader media template _ = .ok items ↔ _
  exact bind_eq_ok_iff

/-- A payload in one piece is read line by line and becomes what its lines become. -/
theorem parse_eq (media : Multipart) (template : Item σ) (payload : Bytes) :
    parse media template payload =
      (ReadState.initial media .utf8).readPayload (lines cr lf payload) >>=
        ofLines media template := by
  have hreader : parse media template payload =
      (LineReader.ofDeliveries media BatchSettings.standard.bufferSize .utf8
        [.bytes payload]).read >>= ofLines media template := rfl
  rw [hreader, LineReader.read_ofDeliveries_bytes]

/-- A payload of isolated parts is read if and only if each part is, and then each part
becomes an item on its own. -/
theorem ofDeliveries_assemble_eq_ok_iff {settings : BatchSettings}
    (hsettings : settings.validate = .ok ()) (hD : settings.charset = .ok D)
    (hmedia : media.Delimiting) (template : Item σ) {parts : List Bytes}
    (hparts : ∀ part ∈ parts, Isolated media D part) {deliveries : List Delivery}
    (hsteady : Delivery.Steady deliveries)
    (hbytes : Delivery.joined deliveries = assemble media parts) {items : List (Item σ)} :
    ofDeliveries media settings template deliveries = .ok items ↔
      List.Forall₂ (PartBecomes media D template) parts items := by
  have hinner : ∀ bodies, List.Forall₂ (PartReads media D) parts bodies →
      ∀ body ∈ bodies, ∀ t ∈ body, media.Inner t := by
    intro bodies hbodies body hbody
    obtain ⟨part, hpart, last, hread⟩ := exists_of_forall₂_of_mem hbodies hbody
    exact ((hparts part hpart).kept _ (ReadState.atPart_initial media D) body last hread).2
  have hbecomes : List.Forall₂ (PartBecomes media D template) parts items ↔
      ∃ bodies, List.Forall₂ (PartReads media D) parts bodies ∧
        bodies.map (fun body => Part.read template (withoutLastEnding body)) = items := by
    simp only [← forall₂_eq_iff_map]
    exact forall₂_exists_iff
  rw [ofDeliveries_eq_ok_iff hsettings hD, hbecomes]
  simp only [read_assemble hmedia hparts settings.bufferSize hsteady hbytes]
  constructor
  · rintro ⟨read, ⟨bodies, hbodies, rfl⟩, hitems⟩
    rw [ofLines_numbered template (hinner bodies hbodies)] at hitems
    exact ⟨bodies, hbodies, Except.ok.inj hitems⟩
  · rintro ⟨bodies, hbodies, rfl⟩
    exact ⟨_, ⟨bodies, hbodies, rfl⟩, ofLines_numbered template (hinner bodies hbodies)⟩

/-- A boundary of one letter. -/
def short : Multipart :=
  ⟨['b'], .utf8⟩

theorem delimiting_short : short.Delimiting where
  plain := by
    intro c hc
    obtain rfl : c = 'b' := by simpa [short] using hc
    decide
  ascii := by decide
  nonempty := by decide
  noHyphen := by decide

end Batch

end QueryBatch
