/-
Parts do not disturb each other.  What a part reads as depends on the parts before it only
through the charset that they leave behind, and a part that declares a content type before
its body does not read in that charset.
-/
import QueryBatch.Proofs.Payload.PartReading

namespace QueryBatch

open Lines (lines)
open Source (cr lf)

namespace ReadState

/-- A state with another charset for bodies. -/
def withCharset (s : ReadState) (c : Charset) : ReadState :=
  { s with charset := c }

/-- The boundary that a line declares. -/
def boundary? (line : Text) : Option Text :=
  (contentType? line).bind fun value =>
    (MediaType.parse value).toOption.bind fun media => media.parameter? "boundary"

variable {media : Multipart} {D : Charset} {s : ReadState}

/-- A declaration replaces the charset for bodies, whatever it was. -/
theorem observe_withCharset_of_some {line : Text} (h : contentType? line ≠ none) (c : Charset) :
    (s.withCharset c).observe line = s.observe line := by
  obtain ⟨value, hvalue⟩ := Option.ne_none_iff_exists'.mp h
  simp only [observe, hvalue, declare, withCharset]

/-- A line that declares nothing leaves the charset for bodies as it is. -/
theorem observe_withCharset_of_none {line : Text} (h : contentType? line = none) (c : Charset) :
    (s.withCharset c).observe line = (s.observe line).map fun after => after.withCharset c := by
  simp only [observe, h]
  split
  · rfl
  · show (if s.isBoundary line = true then _ else _) = _
    split <;> rfl

/-- Before the body, lines are read in the default charset. -/
theorem decode_of_header (hs : s.progress.blankLines ≤ 1) (raw : Bytes) :
    s.decode raw = s.defaultCharset.decode raw := by
  have hbody : s.progress.inBody = false := by
    simp only [Progress.inBody, decide_eq_false_iff_not]
    omega
  simp [decode, hbody]

/-- Of all lines, blank ones alone bring the body nearer. -/
theorem blankLines_of_observe {line : Text} {after : ReadState}
    (hafter : s.observe line = .ok after) :
    after.defaultCharset = s.defaultCharset ∧
      after.progress.blankLines ≤
        s.progress.blankLines + if line = "\r\n".toList then 1 else 0 := by
  unfold observe at hafter
  split at hafter
  · obtain ⟨hdefault, hprogress⟩ := declare_spec hafter
    exact ⟨hdefault, hprogress ▸ Nat.le_add_right _ _⟩
  · split at hafter
    · rename_i hline
      obtain rfl := Except.ok.inj hafter
      rw [if_pos hline]
      exact ⟨rfl, Nat.le_refl _⟩
    · split at hafter <;> obtain rfl := Except.ok.inj hafter
      · exact ⟨rfl, Nat.zero_le _⟩
      · exact ⟨rfl, Nat.le_add_right _ _⟩

/-- Raw lines of which one declares a content type before the body do not read in the
charset that was left behind. -/
theorem readOn_withCharset {before after : List Bytes} {raw : Bytes}
    (hs : s.defaultCharset = D)
    (hcount : s.progress.blankLines + before.count [cr, lf] ≤ 1)
    (hraw : contentType? (D.decode raw) ≠ none) (c : Charset) :
    (s.withCharset c).readOn (before ++ raw :: after) = s.readOn (before ++ raw :: after) := by
  induction before generalizing s with
  | nil =>
      have hheader : s.progress.blankLines ≤ 1 := by simpa using hcount
      have hdecode : s.decode raw = D.decode raw := hs ▸ decode_of_header hheader raw
      have hother : (s.withCharset c).decode raw = D.decode raw :=
        hs ▸ decode_of_header (s := s.withCharset c) hheader raw
      rw [List.nil_append, readOn, readOn, readRaw, readRaw, hdecode, hother,
        observe_withCharset_of_some hraw]
  | cons x before ih =>
      have hheader : s.progress.blankLines ≤ 1 := by omega
      have hdecode : s.decode x = D.decode x := hs ▸ decode_of_header hheader x
      have hother : (s.withCharset c).decode x = D.decode x :=
        hs ▸ decode_of_header (s := s.withCharset c) hheader x
      rw [List.cons_append, readOn, readOn, readRaw, readRaw, hdecode, hother]
      by_cases hnone : contentType? (D.decode x) = none
      · obtain ⟨next, hnext, -⟩ := observe_of_contentType? (s := s) hnone
        obtain ⟨hdefault, hblank⟩ := blankLines_of_observe hnext
        have hnextCount : next.progress.blankLines + before.count [cr, lf] ≤ 1 := by
          rw [List.count_cons] at hcount
          by_cases hline : D.decode x = "\r\n".toList
          · obtain rfl : x = [cr, lf] := Charset.eq_lineEnding_of_decode hline
            simp only [hline, if_true] at hblank
            simp only [BEq.rfl, if_true] at hcount
            omega
          · simp only [hline, if_false] at hblank
            omega
        have hrest := ih (hdefault.trans hs) hnextCount
        rw [observe_withCharset_of_none hnone, hnext]
        simp only [Except.map, hrest]
      · rw [observe_withCharset_of_some hnone]

/-- A raw line that, in whatever charset it is read, is no delimiter and declares no other
boundary. -/
def Quiet (media : Multipart) (raw : Bytes) : Prop :=
  ∀ c : Charset, media.Inner (c.decode raw) ∧ boundary? (c.decode raw) = none

theorem Within.observe (hs : Within media D s) {line : Text} (hline : boundary? line = none)
    {after : ReadState} (hafter : s.observe line = .ok after) : Within media D after := by
  unfold ReadState.observe at hafter
  split at hafter
  · rename_i value hvalue
    cases hparse : MediaType.parse value with
    | error fault =>
        rw [declare_of_malformed hparse] at hafter
        obtain rfl := Except.ok.inj hafter
        exact ⟨hs.default, hs.boundary⟩
    | ok parsed =>
        have hnone : parsed.parameter? "boundary" = none := by
          simpa [boundary?, hvalue, hparse, Except.toOption] using hline
        rw [declare_of_parse hparse hnone] at hafter
        obtain ⟨charset, -, rfl⟩ := map_eq_ok_iff.mp hafter
        exact ⟨hs.default, hs.boundary⟩
  · split at hafter
    · obtain rfl := Except.ok.inj hafter
      exact ⟨hs.default, hs.boundary⟩
    · split at hafter <;> obtain rfl := Except.ok.inj hafter
      · exact ⟨hs.default, hs.boundary⟩
      · exact hs

/-- Quiet lines are read without a delimiter among them and leave the boundary known. -/
theorem Within.readOn (hs : Within media D s) {raws : List Bytes}
    (hraws : ∀ raw ∈ raws, Quiet media raw) {texts : List Text} {last : ReadState}
    (h : s.readOn raws = .ok (texts, last)) :
    Within media D last ∧ ∀ t ∈ texts, media.Inner t := by
  induction raws generalizing s texts with
  | nil =>
      obtain ⟨rfl, rfl⟩ := Prod.mk.inj (Except.ok.inj h)
      exact ⟨hs, List.forall_mem_nil _⟩
  | cons raw raws ih =>
      obtain ⟨hraw, hraws⟩ := List.forall_mem_cons.mp hraws
      obtain ⟨others, after, rfl, hobserve, hothers⟩ := readOn_cons_eq_ok_iff.mp h
      obtain ⟨hinner, hboundary⟩ : media.Inner (s.decode raw) ∧ boundary? (s.decode raw) = none :=
        hraw _
      obtain ⟨hlast, htexts⟩ := ih (hs.observe hboundary hobserve) hraws hothers
      exact ⟨hlast, List.forall_mem_cons.mpr ⟨hinner, htexts⟩⟩

/-- A part that ends in a line feed, without delimiters and other boundaries, in which a
content type is declared before the body. -/
structure SelfContained (media : Multipart) (D : Charset) (part : Bytes) : Prop where
  ended : ∀ b ∈ part.getLast?, b = lf
  quiet : ∀ raw ∈ lines cr lf part, Quiet media raw
  declared : ∃ before raw after, lines cr lf part = before ++ raw :: after ∧
    before.count [cr, lf] ≤ 1 ∧ contentType? (D.decode raw) ≠ none

theorem SelfContained.isolated {part : Bytes} (h : SelfContained media D part) :
    Isolated media D part where
  ended := h.ended
  same := by
    intro s s' hs hs' texts last hread
    obtain ⟨before, raw, after, hlines, hcount, hraw⟩ := h.declared
    have hstate : s' = s.withCharset s'.charset := by
      obtain ⟨⟨hdefault, hboundary⟩, hprogress⟩ := hs
      obtain ⟨⟨hdefault', hboundary'⟩, hprogress'⟩ := hs'
      obtain ⟨default, charset, boundary, ⟨blank⟩⟩ := s
      obtain ⟨default', charset', boundary', ⟨blank'⟩⟩ := s'
      simp_all [withCharset]
    have hstart : s.progress.blankLines + before.count [cr, lf] ≤ 1 := by
      rw [hs.progress]
      omega
    rw [hlines] at hread ⊢
    rw [hstate, readOn_withCharset hs.default hstart hraw]
    exact ⟨last, hread⟩
  kept := fun _ hs _ _ hread => hs.toWithin.readOn h.quiet hread

end ReadState

namespace Batch

open ReadState (SelfContained)

variable {σ : Type} [StartLine σ] {media : Multipart} {D : Charset}

/-- Parts that each declare a content type before their body are read as if each were the
only one: together they fail if and only if one of them fails alone, and each becomes the
one item that it becomes alone. -/
theorem ofDeliveries_assemble_iff_alone (settings : BatchSettings)
    (hsettings : settings.validate = .ok ()) (hD : settings.charset = .ok D)
    (hmedia : media.Delimiting) (template : Item σ) {parts : List Bytes}
    (hparts : ∀ part ∈ parts, SelfContained media D part) :
    let read (parts : List Bytes) :=
      ofDeliveries media settings template [.bytes (assemble media parts)]
    ((∃ items, read parts = .ok items) ↔ ∀ part ∈ parts, ∃ items, read [part] = .ok items) ∧
      ∀ items, read parts = .ok items ↔
        List.Forall₂ (fun part item => read [part] = .ok [item]) parts items := by
  intro read
  have hiff : ∀ parts' : List Bytes, (∀ part ∈ parts', part ∈ parts) → ∀ items,
      read parts' = .ok items ↔ List.Forall₂ (PartBecomes media D template) parts' items := by
    intro parts' hsubset items
    apply ofDeliveries_assemble_eq_ok_iff hsettings hD hmedia template
    · exact fun part hpart => (hparts part (hsubset part hpart)).isolated
    · exact Delivery.steady_singleton _
    · exact List.append_nil _
  have halone : ∀ part ∈ parts, ∀ items,
      read [part] = .ok items ↔
        ∃ item, PartBecomes media D template part item ∧ items = [item] := by
    intro part hpart items
    rw [hiff [part] (by simpa using hpart), List.forall₂_cons_left_iff]
    simp
  have hwhole := hiff parts fun _ h => h
  constructor
  · simp only [hwhole, exists_forall₂_iff]
    apply forall_congr'
    intro part
    apply forall_congr'
    intro hpart
    simp only [halone part hpart]
    constructor
    · rintro ⟨item, hitem⟩
      exact ⟨[item], item, hitem, rfl⟩
    · rintro ⟨items, item, hitem, -⟩
      exact ⟨item, hitem⟩
  · intro items
    rw [hwhole]
    apply forall₂_congr
    intro part hpart item
    simp [halone part hpart]

/-- A part with a response whose content is declared to be in ISO-8859-1. -/
def latinPart : Bytes :=
  Utf8.encode ("Content-Type: a/b\r\n\r\nHTTP/1.1 200\r\n" ++
    "Content-Type: a/b;charset=l1\r\n\r\n").toList ++ [0xE9, 0x0D, 0x0A]

/-- The response in it. -/
def latinResponse : Response :=
  { start := ⟨some 200⟩
    headers := ⟨[("Content-Type".toList, ["a/b;charset=l1".toList])]⟩
    content := ['é'] }

/-- A part whose headers are the given text, with a response whose content is in UTF-8. -/
def plainPart (headers : String) : Bytes :=
  Utf8.encode (headers ++ "\r\nHTTP/1.1 200\r\n\r\n").toList ++ [0xC3, 0xA9, 0x0D, 0x0A]

/-- A response without headers. -/
def plainResponse (content : String) : Response :=
  { start := ⟨some 200⟩, content := content.toList }

theorem selfContained_latinPart : SelfContained short .utf8 latinPart where
  ended := fun _ hb => (Option.some.inj hb).symm
  quiet := by
    intro raw hraw c
    have hquiet : ∀ raw ∈ lines cr lf latinPart, (short.opensPart (c.decode raw) = false ∧
        short.endsParts (c.decode raw) = false) ∧
        ReadState.boundary? (c.decode raw) = none := by
      cases c <;> decide +kernel
    exact hquiet raw hraw
  declared :=
    ⟨[], Utf8.encode (endLine "Content-Type: a/b".toList), _, rfl, by decide,
      by decide⟩

theorem selfContained_plainPart :
    SelfContained short .utf8 (plainPart "Content-Type: a/b\r\n") where
  ended := fun _ hb => (Option.some.inj hb).symm
  quiet := by
    intro raw hraw c
    have hquiet : ∀ raw ∈ lines cr lf (plainPart "Content-Type: a/b\r\n"),
        (short.opensPart (c.decode raw) = false ∧ short.endsParts (c.decode raw) = false) ∧
          ReadState.boundary? (c.decode raw) = none := by
      cases c <;> decide +kernel
    exact hquiet raw hraw
  declared :=
    ⟨[], Utf8.encode (endLine "Content-Type: a/b".toList), _, rfl, by decide,
      by decide⟩

/-- Behind a part in ISO-8859-1, one that declares its content type reads as it does alone. -/
theorem parse_plainPart_behind_latinPart :
    (∀ part ∈ [latinPart, plainPart "Content-Type: a/b\r\n"],
        SelfContained short .utf8 part) ∧
      parse short Item.empty
          (assemble short [latinPart, plainPart "Content-Type: a/b\r\n"]) =
        .ok [latinResponse, plainResponse "é"] := by
  have hparts : ∀ part ∈ [latinPart, plainPart "Content-Type: a/b\r\n"],
      SelfContained short .utf8 part := by
    simp only [List.forall_mem_cons]
    exact ⟨selfContained_latinPart, selfContained_plainPart, List.forall_mem_nil _⟩
  have hlatin : parse short Item.empty (assemble short [latinPart]) = .ok [latinResponse] := by
    rw [parse_eq]
    decide +kernel
  have hplain : parse short Item.empty
      (assemble short [plainPart "Content-Type: a/b\r\n"]) =
        .ok [plainResponse "é"] := by
    rw [parse_eq]
    decide +kernel
  have hwhole := (ofDeliveries_assemble_iff_alone .standard rfl rfl delimiting_short
    (Item.empty : Response) hparts).2 [latinResponse, plainResponse "é"]
  exact ⟨hparts, hwhole.mpr (.cons hlatin (.cons hplain .nil))⟩

/-- Behind a part in ISO-8859-1, one that declares no content type reads in ISO-8859-1,
which it does not alone. -/
theorem parse_undeclared_behind_latinPart :
    parse short Item.empty (assemble short [plainPart ""]) = .ok [plainResponse "é"] ∧
      parse short Item.empty (assemble short [latinPart, plainPart ""]) =
        .ok [latinResponse, plainResponse "Ã©"] := by
  constructor
  · rw [parse_eq]
    decide +kernel
  · rw [parse_eq]
    decide +kernel

end Batch

end QueryBatch
