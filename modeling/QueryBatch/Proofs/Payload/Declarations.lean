/-
Declared charsets.  A payload reads as the text of its bytes in one charset, malformed
or not, as long as no line of it declares another one; in UTF-8 it then reads as the
text that was encoded.
-/
import QueryBatch.Proofs.Payload.Chunking
import QueryBatch.Proofs.Text.Encoding
import QueryBatch.Proofs.Text.Cutting
import QueryBatch.Proofs.Text.Decoding

namespace QueryBatch

namespace ReadState

/-- A line that declares a charset other than the given one, known or not. -/
def DeclaresOtherThan (c : Charset) (line : Text) : Prop :=
  ∃ value media label, contentType? line = some value ∧ MediaType.parse value = .ok media ∧
    media.parameter? "charset" = some label ∧ Charset.ofLabel label ≠ .ok c

instance (c : Charset) (line : Text) : Decidable (DeclaresOtherThan c line) :=
  decidable_of_iff
    (∃ value ∈ contentType? line, ∃ media ∈ (MediaType.parse value).toOption,
      ∃ label ∈ media.parameter? "charset", Charset.ofLabel label ≠ .ok c)
    (by simp [DeclaresOtherThan, toOption_eq_some_iff])

/-- A line that declares a charset other than UTF-8. -/
def DeclaresOther (line : Text) : Prop :=
  ∃ value media label, contentType? line = some value ∧ MediaType.parse value = .ok media ∧
    media.parameter? "charset" = some label ∧ Charset.ofLabel label ≠ .ok .utf8

instance (line : Text) : Decidable (DeclaresOther line) :=
  inferInstanceAs (Decidable (DeclaresOtherThan .utf8 line))

/-- An ending does not change what a line declares. -/
theorem contentType?_append {line ending : Text} (hending : Text.allBlank ending = true) :
    contentType? (line ++ ending) = contentType? line := by
  have hcolon : ':' ∉ ending := by
    intro hmem
    exact absurd (List.all_eq_true.mp hending ':' hmem) (by decide)
  unfold contentType? headerValue?
  rw [Text.splitAt?_append hcolon]
  cases Text.splitAt? ':' line with
  | none => rfl
  | some cut => simp only [Option.map_some, Option.bind_some, Text.trim_append_right hending]

theorem declaresOther_append_iff {line ending : Text} (hending : Text.allBlank ending = true) :
    DeclaresOther (line ++ ending) ↔ DeclaresOther line := by
  simp only [DeclaresOther, contentType?_append hending]

/-- A line declares a content type only if it starts with a blank, a colon or the letter
that the header's name starts with. -/
theorem contentType?_eq_none_of_initial {c : Char} {r : Text} (hblank : Text.isBlank c = false)
    (hcolon : c ≠ ':') (hletter : c.toLower ≠ 'c') : contentType? (c :: r) = none := by
  unfold contentType? headerValue?
  rcases hcut : Text.splitAt? ':' (c :: r) with _ | ⟨key, value⟩
  · rfl
  · obtain ⟨heq, -⟩ := Text.splitAt?_eq_some_iff.mp hcut
    cases key with
    | nil => exact absurd (List.cons.inj heq).1 hcolon
    | cons d key =>
        obtain rfl := (List.cons.inj heq).1
        have hsame :
            Text.sameIgnoringCase (Text.trim (c :: key)) "Content-Type".toList = false := by
          refine Bool.eq_false_iff.mpr fun hsame => hletter ?_
          have hlower := congrArg List.head? (Text.sameIgnoringCase_iff.mp hsame)
          rw [Text.toLower, List.head?_map, Text.head?_trim_cons hblank] at hlower
          exact Option.some.inj hlower
        simp only [Option.bind_some, hsame, Bool.false_eq_true, if_false]

theorem contentType?_eq_none_of_notMem {line : Text} (h : ':' ∉ line) :
    contentType? line = none := by
  rw [contentType?, headerValue?, Text.splitAt?_eq_none h, Option.bind_none]

theorem not_declaresOther_of_contentType? {line : Text} (h : contentType? line = none) :
    ¬ DeclaresOther line := by
  rintro ⟨value, -, -, hvalue, -⟩
  rw [h] at hvalue
  cases hvalue

/-- A content type that cannot be read declares nothing. -/
theorem declare_of_malformed {s : ReadState} {value : Text} {fault : MediaType.Fault}
    (h : MediaType.parse value = .error fault) :
    s.declare value = .ok { s with charset := s.defaultCharset } := by
  simp only [declare, h]

/-- A content type without a boundary declares the charset that it names, if that is known,
or the default one. -/
theorem declare_of_parse {s : ReadState} {value : Text} {media : MediaType}
    (h : MediaType.parse value = .ok media) (hboundary : media.parameter? "boundary" = none) :
    s.declare value =
      ((media.parameter? "charset").elim (.ok s.defaultCharset) Charset.ofLabel).map
        fun charset => { s with charset } := by
  unfold declare
  simp only [h, hboundary]
  cases media.parameter? "charset" with
  | none => rfl
  | some label =>
      simp only [Option.elim_some]
      cases Charset.ofLabel label <;> rfl

/-- A declaration changes neither the default charset nor how far a part is read. -/
theorem declare_spec {s after : ReadState} {value : Text} (h : s.declare value = .ok after) :
    after.defaultCharset = s.defaultCharset ∧ after.progress = s.progress := by
  unfold declare at h
  split at h
  · obtain rfl := Except.ok.inj h
    exact ⟨rfl, rfl⟩
  · dsimp only at h
    split at h <;> obtain ⟨charset, -, hafter⟩ := bind_eq_ok_iff.mp h <;>
      obtain rfl := Except.ok.inj hafter <;> exact ⟨rfl, rfl⟩

/-- Whatever a declaration said before, one that says the default charset, or nothing,
counts. -/
theorem declare_of_not_declaresOtherThan {s : ReadState} {c : Charset} {line value : Text}
    (hdefault : s.defaultCharset = c) (hvalue : contentType? line = some value)
    (hline : ¬ DeclaresOtherThan c line) :
    ∃ after, s.declare value = .ok after ∧ after.defaultCharset = c ∧ after.charset = c := by
  unfold declare
  cases hparse : MediaType.parse value with
  | error fault => exact ⟨_, rfl, hdefault, hdefault⟩
  | ok media =>
      cases hcharset : media.parameter? "charset" with
      | none =>
          simp only [hcharset]
          exact ⟨_, rfl, hdefault, hdefault⟩
      | some label =>
          have hlabel : Charset.ofLabel label = .ok c :=
            not_not.mp fun hother => hline ⟨value, media, label, hvalue, hparse, hcharset, hother⟩
          simp only [hcharset, hlabel]
          exact ⟨_, rfl, hdefault, rfl⟩

/-- A line that declares nothing leaves the charsets as they are, and is at most one more
blank line. -/
theorem observe_of_contentType? {s : ReadState} {line : Text} (h : contentType? line = none) :
    ∃ after, s.observe line = .ok after ∧ after.defaultCharset = s.defaultCharset ∧
      after.charset = s.charset ∧ after.progress.blankLines ≤ s.progress.blankLines + 1 := by
  unfold observe
  simp only [h]
  split
  · exact ⟨_, rfl, rfl, rfl, Nat.le_refl _⟩
  · split
    · exact ⟨_, rfl, rfl, rfl, Nat.zero_le _⟩
    · exact ⟨_, rfl, rfl, rfl, Nat.le_succ _⟩

theorem decode_map_encode (texts : List Text) :
    (texts.map Utf8.encode).map Charset.utf8.decode = texts := by
  rw [List.map_map]
  exact List.map_id'' Utf8.decode_encode texts

/-- A line declares what it declares when it is encoded and read again. -/
theorem not_declaresOtherThan_of_mem_encode {texts : List Text}
    (htexts : ∀ line ∈ texts, ¬ DeclaresOther line) :
    ∀ raw ∈ texts.map Utf8.encode, ¬ DeclaresOtherThan .utf8 (Charset.utf8.decode raw) := by
  rw [List.forall_mem_map]
  intro line hline
  rw [Charset.decode, Utf8.decode_encode]
  exact htexts line hline

/-- The state in which every line is read in one charset. -/
structure Uniform (c : Charset) (s : ReadState) : Prop where
  default : s.defaultCharset = c
  body : s.charset = c

namespace Uniform

variable {c : Charset} {s : ReadState}

theorem decode (h : s.Uniform c) (raw : Bytes) : s.decode raw = c.decode raw := by
  unfold ReadState.decode
  rw [h.default, h.body, ite_self]

/-- The state stays the same in what counts from line to line. -/
theorem observe (h : s.Uniform c) {line : Text} (hline : ¬ DeclaresOtherThan c line) :
    ∃ after, s.observe line = .ok after ∧ after.Uniform c := by
  cases hvalue : contentType? line with
  | none =>
      obtain ⟨after, hafter, hdefault, hcharset, -⟩ := observe_of_contentType? (s := s) hvalue
      exact ⟨after, hafter, hdefault.trans h.default, hcharset.trans h.body⟩
  | some value =>
      obtain ⟨after, hafter, hdefault, hcharset⟩ :=
        declare_of_not_declaresOtherThan h.default hvalue hline
      refine ⟨after, ?_, hdefault, hcharset⟩
      unfold ReadState.observe
      simp only [hvalue, hafter]

theorem readRaw (h : s.Uniform c) {raw : Bytes} (hraw : ¬ DeclaresOtherThan c (c.decode raw)) :
    ∃ after, s.readRaw raw = .ok (c.decode raw, after) ∧ after.Uniform c := by
  obtain ⟨after, hafter, huniform⟩ := h.observe hraw
  refine ⟨after, ?_, huniform⟩
  simp only [ReadState.readRaw, h.decode, hafter, Except.map]

theorem adopt (h : s.Uniform c) (first : Text) : (s.adopt first).Uniform c := by
  dsimp only [ReadState.adopt]
  split
  · exact ⟨h.default, h.body⟩
  · exact h

theorem readAll (h : s.Uniform c) {raws : List Bytes}
    (hraws : ∀ raw ∈ raws, ¬ DeclaresOtherThan c (c.decode raw)) :
    s.readAll raws = .ok (raws.map c.decode) := by
  induction raws generalizing s with
  | nil => rfl
  | cons raw raws ih =>
      rw [List.forall_mem_cons] at hraws
      obtain ⟨after, hafter, huniform⟩ := h.readRaw hraws.1
      have hrest := ih huniform hraws.2
      simp only [ReadState.readAll, hafter, hrest, Except.map, List.map_cons]

/-- Raw lines that declare no other charset read as what each of them is in this one. -/
theorem readPayload (h : s.Uniform c) {raws : List Bytes}
    (hraws : ∀ raw ∈ raws, ¬ DeclaresOtherThan c (c.decode raw)) :
    s.readPayload raws = .ok (numbered (raws.map c.decode)) := by
  cases raws with
  | nil => rfl
  | cons first others =>
      rw [List.forall_mem_cons] at hraws
      obtain ⟨after, hafter, huniform⟩ := h.readRaw hraws.1
      have hothers := (huniform.adopt (c.decode first)).readAll hraws.2
      simp only [ReadState.readPayload, hafter, hothers, Except.map, List.map_cons]

/-- Encoded texts are raw lines that read as these texts. -/
theorem readAll_encode (h : s.Uniform .utf8) {texts : List Text}
    (htexts : ∀ line ∈ texts, ¬ DeclaresOther line) :
    s.readAll (texts.map Utf8.encode) = .ok texts := by
  have hread := h.readAll (not_declaresOtherThan_of_mem_encode htexts)
  rwa [decode_map_encode] at hread

/-- A payload of lines that declare no other charset reads as these lines. -/
theorem readPayload_encode (h : s.Uniform .utf8) {texts : List Text}
    (htexts : ∀ line ∈ texts, ¬ DeclaresOther line) :
    s.readPayload (texts.map Utf8.encode) = .ok (numbered texts) := by
  have hread := h.readPayload (not_declaresOtherThan_of_mem_encode htexts)
  rwa [decode_map_encode] at hread

end Uniform

/-- Before the body, lines are read in the default charset. -/
theorem decode_encode_of_header {s : ReadState} (hdefault : s.defaultCharset = .utf8)
    (hheader : s.progress.blankLines ≤ 1) (line : Text) : s.decode (Utf8.encode line) = line := by
  have hbody : s.progress.inBody = false := by
    simp only [Progress.inBody, decide_eq_false_iff_not]
    omega
  rw [decode, hbody, hdefault]
  exact Utf8.decode_encode line

theorem adopt_spec (s : ReadState) (first : Text) :
    (s.adopt first).defaultCharset = s.defaultCharset ∧
      (s.adopt first).progress = s.progress := by
  unfold adopt
  dsimp only
  split <;> exact ⟨rfl, rfl⟩

/-- A payload reads as its text if its second line declares a content type and no line
declares another charset, whatever charset was announced. -/
theorem readPayload_encode (media : Multipart) {first : Text} {others : List Text}
    (hfirst : contentType? first = none)
    (hsecond : ∀ second ∈ others.head?, contentType? second ≠ none)
    (hothers : ∀ line ∈ others, ¬ DeclaresOther line) :
    (initial media .utf8).readPayload ((first :: others).map Utf8.encode) =
      .ok (numbered (first :: others)) := by
  have hinitial : (initial media .utf8).decode (Utf8.encode first) = first :=
    decode_encode_of_header rfl (Nat.zero_le 1) first
  obtain ⟨after, hafter, hdefault, -, hblank⟩ :=
    observe_of_contentType? (s := initial media .utf8) hfirst
  obtain ⟨hadopt, hprogress⟩ := adopt_spec after first
  have hrest : (after.adopt first).readAll (others.map Utf8.encode) = .ok others := by
    cases others with
    | nil => rfl
    | cons second others =>
        rw [List.forall_mem_cons] at hothers
        obtain ⟨value, hvalue⟩ := Option.ne_none_iff_exists'.mp (hsecond second rfl)
        have hdecode := decode_encode_of_header (s := after.adopt first) (hadopt.trans hdefault)
          (by rw [hprogress]; exact hblank) second
        obtain ⟨next, hnext, hnextDefault, hnextCharset⟩ :=
          declare_of_not_declaresOtherThan (s := after.adopt first) (hadopt.trans hdefault) hvalue
            hothers.1
        have hobserve : (after.adopt first).observe second = .ok next := by
          unfold observe
          simp only [hvalue, hnext]
        have htail := Uniform.readAll_encode ⟨hnextDefault, hnextCharset⟩ hothers.2
        simp only [List.map_cons, readAll, readRaw, hdecode, hobserve, Except.map, htail]
  simp only [List.map_cons, readPayload, readRaw, hinitial, hafter, Except.map, hrest]

end ReadState

namespace LineReader

open Lines (lines)
open ReadState (DeclaresOtherThan)
open Source (cr lf)

/-- A payload that is in one charset throughout loses nothing when it is read line by
line, whatever its bytes and wherever they are cut: the lines together are what all the
bytes are in that charset, replacements of malformed sequences included.  Each of them is
one raw line read on its own, and they are the lines of the whole text. -/
theorem read_of_one_charset (boundary : Text) (c : Charset) (size : Nat)
    {deliveries : List Delivery} {bytes : Bytes}
    (hpieces : ∀ d ∈ deliveries, d = .interrupted ∨ ∃ piece, piece ≠ [] ∧ d = .bytes piece)
    (hbytes : Delivery.joined deliveries = bytes)
    (hlines : ∀ raw ∈ lines cr lf bytes, ¬ DeclaresOtherThan c (c.decode raw)) :
    ∃ read, (ofDeliveries ⟨boundary, c⟩ size c deliveries).read = .ok read ∧
      (read.map Line.content).flatten = c.decode bytes ∧
      read.map Line.content = (lines cr lf bytes).map c.decode ∧
      read.map Line.content = lines '\r' '\n' (c.decode bytes) := by
  have hsteady := steady_ofDeliveries ⟨boundary, c⟩ size c (Delivery.steady_of_forall hpieces)
  have hinitial : (ReadState.initial ⟨boundary, c⟩ c).Uniform c := ⟨rfl, rfl⟩
  have hread : (ofDeliveries ⟨boundary, c⟩ size c deliveries).read =
      .ok (ReadState.numbered ((lines cr lf bytes).map c.decode)) := by
    rw [read_of_steady hsteady, ahead_ofDeliveries, hbytes]
    exact hinitial.readPayload hlines
  -- A line ends at a byte that stands for itself in every charset, so no sequence that is
  -- still open there goes on into the next line.
  have hdecode : lines '\r' '\n' (c.decode bytes) = (lines cr lf bytes).map c.decode :=
    Charset.lines_decode c bytes
  refine ⟨_, hread, ?_⟩
  rw [ReadState.map_content_numbered, ← hdecode]
  exact ⟨Lines.flatten_lines _, rfl, rfl⟩

/-- Sequences that are cut short by a line ending, by an interruption and by the end. -/
theorem read_of_malformed_lines :
    let deliveries : List Delivery :=
      [.bytes [0xC3, 0x0D], .interrupted, .bytes [0x0A, 0xA9, 0x0A, 0xE2], .bytes [0x82]]
    ∃ read, (ofDeliveries ⟨['x'], .utf8⟩ 1 .utf8 deliveries).read = .ok read ∧
      (read.map Line.content).flatten = "\uFFFD\r\n\uFFFD\n\uFFFD".toList := by
  intro deliveries
  obtain ⟨read, hread, htext, -⟩ :=
    @read_of_one_charset ['x'] .utf8 1 deliveries _ (by simp [deliveries]) rfl (by decide)
  exact ⟨read, hread, htext.trans (by decide)⟩

end LineReader

end QueryBatch
