/-
Payloads that are cut off.  Whatever charset a line is read in, only the bytes of the close
delimiter read as one, so a payload that stops before its close delimiter is complete is
rejected as a whole.
-/
import QueryBatch.Proofs.Payload.PartReading

namespace QueryBatch

open Lines (Unbroken lines)

namespace Batch

variable {σ τ : Type} [StartLine σ] [StartLine τ] {media : Multipart}

/-- A text that stops at the end of a line. -/
def Terminated (t : Text) : Prop :=
  ∀ c ∈ t.getLast?, c = '\n'

theorem Terminated.append {t u : Text} (ht : Terminated t) (hu : Terminated u) :
    Terminated (t ++ u) := by
  intro c hc
  rw [List.getLast?_append] at hc
  cases hlast : u.getLast? with
  | none => exact ht c (by simpa [hlast] using hc)
  | some d => exact hu c (by simpa [hlast] using hc)

theorem terminated_nil : Terminated [] := by
  simp [Terminated]

theorem terminated_endLine (line : Text) : Terminated (endLine line) := by
  simp [Terminated, endLine]

theorem Terminated.flatMap {α : Type} {f : α → Text} {l : List α}
    (h : ∀ a ∈ l, Terminated (f a)) : Terminated (l.flatMap f) := by
  induction l with
  | nil => exact terminated_nil
  | cons a l ih =>
      rw [List.forall_mem_cons] at h
      exact h.1.append (ih h.2)

theorem terminated_writeHeaders (h : Headers) : Terminated (writeHeaders h) := by
  unfold writeHeaders
  split
  · exact terminated_nil
  · apply Terminated.append _ (terminated_endLine [])
    apply Terminated.flatMap
    intro field _
    exact Terminated.flatMap fun value _ => terminated_endLine _

theorem terminated_writeItem (item : Item σ) : Terminated (writeItem media item) := by
  have hstart : Terminated ((item.startLine?.map endLine).getD []) := by
    cases item.startLine? with
    | none => exact terminated_nil
    | some line => exact terminated_endLine line
  have hcontent : Terminated (if item.content = [] then [] else endLine item.content) := by
    split
    · exact terminated_nil
    · exact terminated_endLine _
  have hpart : Terminated partHeaders := (terminated_endLine _).append (terminated_endLine _)
  unfold writeItem
  exact (((((terminated_endLine _).append hpart).append (terminated_endLine [])).append
    hstart).append (terminated_writeHeaders _)).append hcontent

/-- The close delimiter is the last line of a payload. -/
theorem lines_write_eq (hunbroken : Unbroken '\r' '\n' media.boundary) (items : List (Item σ)) :
    lines '\r' '\n' (write media items) =
      lines '\r' '\n' (items.flatMap (writeItem media)) ++ [endLine media.closeDelimiter] := by
  have hterminated : Terminated (items.flatMap (writeItem media)) :=
    Terminated.flatMap fun item _ => terminated_writeItem item
  have hclose :
      lines '\r' '\n' (endLine media.closeDelimiter) = [endLine media.closeDelimiter] := by
    apply Lines.lines_of_ended (by decide)
    refine ⟨media.closeDelimiter, ['\r', '\n'], rfl, ?_, Or.inl rfl⟩
    have hhyphens : Unbroken '\r' '\n' "--".toList := by decide
    exact Lines.unbroken_append.mpr ⟨Lines.unbroken_append.mpr ⟨hhyphens, hunbroken⟩, hhyphens⟩
  rw [write, ← hclose]
  cases hlast : (items.flatMap (writeItem media)).getLast? with
  | none => simp [List.getLast?_eq_none_iff.mp hlast]
  | some c =>
      obtain rfl := hterminated c hlast
      exact Lines.lines_append_of_getLast? (by decide) hlast

theorem ascii_closeDelimiter (hascii : media.boundary.Ascii) : media.closeDelimiter.Ascii := by
  have hhyphens : Text.Ascii "--".toList := by decide
  exact (hhyphens.append hascii).append hhyphens

/-- Lines that become items have a raw line among them that starts with the bytes of the
close delimiter. -/
theorem exists_raw_of_ofLines (hascii : media.boundary.Ascii) {raws : List Bytes}
    {read : List Line} (hread : List.Forall₂ Charset.Reads raws (read.map Line.content))
    {template : Item τ} {items : List (Item τ)} (h : ofLines media template read = .ok items) :
    ∃ raw ∈ raws, Utf8.encode media.closeDelimiter <+: raw := by
  obtain ⟨parts, hsplit, -⟩ := map_eq_ok_iff.mp h
  cases hgroups : media.groups? read with
  | none =>
      rw [Multipart.split, hgroups] at hsplit
      cases hsplit
  | some found =>
      obtain ⟨line, hline, hends⟩ := Multipart.exists_endsParts_of_groups? hgroups
      obtain ⟨raw, hraw, c, hdecoded⟩ :=
        exists_of_forall₂_of_mem hread (List.mem_map_of_mem hline)
      obtain ⟨rest, hcontent, -⟩ := Multipart.isDelimiterLine_iff.mp hends
      refine ⟨raw, hraw, Charset.encode_prefix_of_decode (c := c) (ascii_closeDelimiter hascii) ?_⟩
      rw [hdecoded, hcontent]
      exact List.prefix_append _ rest

/-- No line of a payload cut off before its close delimiter is complete starts with the bytes
of the close delimiter, if no line of the payload but the last one does. -/
theorem not_encode_prefix_of_cut (hascii : media.boundary.Ascii)
    (hunbroken : Unbroken '\r' '\n' media.boundary) {items : List (Item σ)}
    (hlines : ∀ line ∈ (lines '\r' '\n' (write media items)).dropLast,
      ¬ media.closeDelimiter <+: line)
    {cut : Bytes} (hcut : cut <+: Utf8.encode (write media items))
    (hshort : cut.length <
      (Utf8.encode (items.flatMap (writeItem media) ++ media.closeDelimiter)).length) :
    ∀ raw ∈ lines 0x0D 0x0A cut, ¬ Utf8.encode media.closeDelimiter <+: raw := by
  intro raw hraw hclose
  obtain ⟨rest, hrest⟩ := hcut
  obtain ⟨before, whole, after, hwhole, hstart, hplace⟩ :=
    Lines.exists_line_of_mem_lines (by decide) hraw rest
  rw [hrest, Utf8.lines_encode, lines_write_eq hunbroken, List.map_append, List.map_singleton]
    at hwhole
  rw [lines_write_eq hunbroken, List.dropLast_concat] at hlines
  rcases List.eq_nil_or_concat after with rfl | ⟨others, last, rfl⟩
  · -- the line starts where the close delimiter does, and the payload is cut within it
    obtain ⟨hbefore, -⟩ := List.append_inj' hwhole rfl
    have hle := hplace.length_le
    rw [List.length_append, ← hbefore, ← Utf8.encode_flatten, Lines.flatten_lines] at hle
    rw [Utf8.encode_append, List.length_append] at hshort
    have hlength := hclose.length_le
    omega
  · rw [List.concat_eq_append, ← List.cons_append, ← List.append_assoc] at hwhole
    obtain ⟨hbefore, -⟩ := List.append_inj' hwhole rfl
    have hmem : whole ∈ (lines '\r' '\n' (items.flatMap (writeItem media))).map Utf8.encode := by
      rw [hbefore]
      simp
    obtain ⟨line, hline, rfl⟩ := List.mem_map.mp hmem
    apply hlines line hline
    exact Charset.prefix_of_encode_prefix (ascii_closeDelimiter hascii) (hclose.trans hstart)

/-- A payload cut off before its close delimiter is complete is rejected, with any settings
and any template, if no line of the payload but the last one starts with the delimiter. -/
theorem ofDeliveries_eq_error_of_cut (hascii : media.boundary.Ascii)
    (hunbroken : Unbroken '\r' '\n' media.boundary) {items : List (Item σ)}
    (hlines : ∀ line ∈ (lines '\r' '\n' (write media items)).dropLast,
      ¬ media.closeDelimiter <+: line)
    {cut : Bytes} (hcut : cut <+: Utf8.encode (write media items))
    (hshort : cut.length <
      (Utf8.encode (items.flatMap (writeItem media) ++ media.closeDelimiter)).length)
    (settings : BatchSettings) (template : Item τ) :
    ∃ e, ofDeliveries media settings template [.bytes cut] = .error e := by
  cases hread : ofDeliveries media settings template [.bytes cut] with
  | error e => exact ⟨e, rfl⟩
  | ok found =>
      exfalso
      obtain ⟨r, hreader, hread⟩ := bind_eq_ok_iff.mp hread
      obtain ⟨read, hlinesRead, hitems⟩ := bind_eq_ok_iff.mp hread
      obtain ⟨_, -, hreader⟩ := bind_eq_ok_iff.mp hreader
      obtain ⟨D, -, hreader⟩ := bind_eq_ok_iff.mp hreader
      obtain rfl := Except.ok.inj hreader
      rw [LineReader.read_ofDeliveries_bytes] at hlinesRead
      obtain ⟨raw, hraw, hclose⟩ :=
        exists_raw_of_ofLines hascii (ReadState.reads_of_readPayload hlinesRead) hitems
      exact not_encode_prefix_of_cut hascii hunbroken hlines hcut hshort raw hraw hclose

/-- A truncated payload is never accepted: wherever the bytes of written items are cut off
before the close delimiter at their end is complete, reading them fails.  The boundary is
in ASCII and stands on one line, and no line of the payload but the last one starts with
the close delimiter. -/
theorem parse_eq_error_of_cut (hascii : media.boundary.Ascii)
    (hunbroken : Unbroken '\r' '\n' media.boundary) (items : List (Item σ))
    (hlines : ∀ line ∈ (lines '\r' '\n' (write media items)).dropLast,
      ¬ media.closeDelimiter <+: line)
    (cut : Bytes) (hcut : cut <+: Utf8.encode (write media items))
    (hshort : cut.length <
      (Utf8.encode (items.flatMap (writeItem media) ++ media.closeDelimiter)).length)
    (template : Item τ) : ∃ e, parse media template cut = .error e :=
  ofDeliveries_eq_error_of_cut hascii hunbroken hlines hcut hshort .standard template

/-- A response whose content is one character of two bytes. -/
def created : Response :=
  { start := ⟨some 201⟩, content := "é".toList }

/-- The payload of the response is rejected if it is cut off within the content, and also if
what is left of the close delimiter is a delimiter. -/
theorem parse_cut_created :
    (∃ e, parse ⟨['b'], .utf8⟩ (Item.empty : Response)
      ((Utf8.encode (write ⟨['b'], .utf8⟩ [created])).take 97) = .error e) ∧
    ∃ e, parse ⟨['b'], .utf8⟩ (Item.empty : Response)
      ((Utf8.encode (write ⟨['b'], .utf8⟩ [created])).take 103) = .error e := by
  have hascii : Text.Ascii ['b'] := by decide
  have hunbroken : Unbroken '\r' '\n' ['b'] := by decide
  have hlines : ∀ line ∈ (lines '\r' '\n' (write ⟨['b'], .utf8⟩ [created])).dropLast,
      ¬ Multipart.closeDelimiter ⟨['b'], .utf8⟩ <+: line := by
    decide +kernel
  constructor
  · exact parse_eq_error_of_cut hascii hunbroken [created] hlines _ (List.take_prefix _ _)
      (by decide +kernel) Item.empty
  · exact parse_eq_error_of_cut hascii hunbroken [created] hlines _ (List.take_prefix _ _)
      (by decide +kernel) Item.empty

end Batch

end QueryBatch
