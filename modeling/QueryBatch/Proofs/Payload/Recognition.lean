/-
Delimiters as the reader of lines knows them.  A delimiter parts a payload whatever blanks
stand behind it, but puts the reader back to headers only if nothing but line endings do.
-/
import QueryBatch.Proofs.Payload.Isolation

namespace QueryBatch

namespace Multipart

/-- A line of a delimiter or a close delimiter with nothing but its ending behind it.  A
boundary that ends like a line is never told from the ending. -/
def Bare (m : Multipart) (line : Text) : Prop :=
  ∃ bare ending, line = bare ++ ending ∧ (bare = m.delimiter ∨ bare = m.closeDelimiter) ∧
    (∀ c ∈ ending, c = '\r' ∨ c = '\n') ∧ ∀ c ∈ bare.getLast?, c ≠ '\r' ∧ c ≠ '\n'

variable {m : Multipart} {line : Text}

theorem exists_hyphen (h : m.Opens line ∨ m.Closes line) : ∃ rest, line = '-' :: rest := by
  rcases h with ⟨blanks, rfl, -⟩ | ⟨blanks, rfl, -⟩ <;> exact ⟨_, rfl⟩

end Multipart

namespace ReadState

variable {media : Multipart} {D : Charset} {s after : ReadState} {line : Text}

theorem isBoundary_iff (h : Within media D s) : s.isBoundary line = true ↔ media.Bare line := by
  have hbare : ∀ bare, Text.dropEndWhile (fun c => c == '\r' || c == '\n') line = bare ↔
      ∃ ending, line = bare ++ ending ∧ (∀ c ∈ ending, c = '\r' ∨ c = '\n') ∧
        ∀ c ∈ bare.getLast?, c ≠ '\r' ∧ c ≠ '\n' := by
    intro bare
    simp [Text.dropEndWhile_eq_iff]
  simp only [isBoundary, h.boundary, Bool.or_eq_true, beq_iff_eq]
  constructor
  · intro hline
    obtain ⟨ending, heq, hending, hlast⟩ := (hbare _).mp rfl
    exact ⟨_, ending, heq, hline, hending, hlast⟩
  · rintro ⟨bare, ending, heq, hline, hending, hlast⟩
    rwa [(hbare bare).mpr ⟨ending, heq, hending, hlast⟩]

/-- A delimiter is observed as one if it is bare, and not at all otherwise. -/
theorem observe_of_divides (h : Within media D s) (hline : media.Opens line ∨ media.Closes line)
    (hafter : s.observe line = .ok after) :
    (media.Bare line → after = { s with progress := s.progress.afterBoundary }) ∧
      (¬ media.Bare line → after = s) := by
  -- What starts with a hyphen is neither a header of the content nor a blank line.
  obtain ⟨rest, rfl⟩ := Multipart.exists_hyphen hline
  have hnone : contentType? ('-' :: rest) = none :=
    contentType?_eq_none_of_initial (by decide) (by decide) (by decide)
  have hfull : '-' :: rest ≠ "\r\n".toList := by simp
  simp only [observe, hnone, if_neg hfull] at hafter
  constructor
  · intro hbare
    rw [if_pos ((isBoundary_iff h).mpr hbare)] at hafter
    exact (Except.ok.inj hafter).symm
  · intro hbare
    rw [if_neg (mt (isBoundary_iff h).mp hbare)] at hafter
    exact (Except.ok.inj hafter).symm

/-- Behind a delimiter the reader looks for headers if the delimiter is bare, or if it did so
before. -/
theorem inBody_of_divides (h : Within media D s) (hline : media.Opens line ∨ media.Closes line)
    (hafter : s.observe line = .ok after) :
    after.progress.inBody = false ↔ media.Bare line ∨ s.progress.inBody = false := by
  obtain ⟨hbare, hpadded⟩ := observe_of_divides h hline hafter
  by_cases hline : media.Bare line
  · rw [hbare hline]
    exact iff_of_true rfl (Or.inl hline)
  · rw [hpadded hline]
    exact (or_iff_right hline).symm

end ReadState

namespace LineReader

open ReadState (Within boundary?)

/-- The lines among the answers when so many lines are asked for. -/
def linesRead (n : Nat) (r : LineReader) : List Text :=
  (readLines n r).1.filterMap fun answer => answer.toOption.join

variable {media : Multipart} {D : Charset} {r : LineReader} {line : Text}

/-- A line that is answered is observed; any other answer leaves what is known as it was. -/
theorem readLine_cases (r : LineReader) :
    (∃ line, r.readLine.1 = .ok (some line) ∧ r.state.observe line = .ok r.readLine.2.state) ∨
      r.readLine.1.toOption.join = none ∧ r.readLine.2.state = r.state := by
  unfold readLine
  split
  · exact Or.inr ⟨rfl, rfl⟩
  · exact Or.inr ⟨rfl, rfl⟩
  · rename_i b raw source _
    cases hobserve : r.state.observe (r.state.decode (b :: raw)) with
    | error e => exact Or.inr ⟨by simp [hobserve, Except.toOption], by simp [hobserve]⟩
    | ok state => exact Or.inl ⟨r.state.decode (b :: raw), by simp [hobserve], by simp [hobserve]⟩

theorem observe_of_readLine (h : r.readLine.1 = .ok (some line)) :
    r.state.observe line = .ok r.readLine.2.state := by
  rcases readLine_cases r with ⟨line', hline', hobserve⟩ | ⟨hnone, -⟩
  · obtain rfl : line' = line := by simpa [hline'] using h
    exact hobserve
  · simp [h, Except.toOption] at hnone

theorem linesRead_of_line (h : r.readLine.1 = .ok (some line)) (n : Nat) :
    linesRead (n + 1) r = line :: linesRead n r.readLine.2 := by
  rw [linesRead, readLines, h]
  rfl

theorem linesRead_of_none (h : r.readLine.1.toOption.join = none) (n : Nat) :
    linesRead (n + 1) r = linesRead n r.readLine.2 :=
  List.filterMap_cons_none h

/-- As long as no line declares a boundary, the reader looks for that of the media type. -/
theorem within_readLines (h : Within media D r.state) (n : Nat)
    (hquiet : ∀ line ∈ linesRead n r, boundary? line = none) :
    Within media D (readLines n r).2.state := by
  induction n generalizing r with
  | zero => exact h
  | succ n ih =>
      rcases readLine_cases r with ⟨line, hline, hobserve⟩ | ⟨hnone, hstate⟩
      · rw [linesRead_of_line hline, List.forall_mem_cons] at hquiet
        exact ih (h.observe hquiet.1 hobserve) hquiet.2
      · rw [linesRead_of_none hnone] at hquiet
        exact ih (hstate ▸ h) hquiet

/-- Blank lines bring the body nearer, each by one, and nothing else does. -/
theorem blankLines_readLines (r : LineReader) (n : Nat) :
    (readLines n r).2.state.defaultCharset = r.state.defaultCharset ∧
      (readLines n r).2.state.progress.blankLines ≤
        r.state.progress.blankLines + (linesRead n r).count "\r\n".toList := by
  induction n generalizing r with
  | zero => exact ⟨rfl, Nat.le_refl _⟩
  | succ n ih =>
      obtain ⟨hdefault, hblank⟩ := ih r.readLine.2
      rcases readLine_cases r with ⟨line, hline, hobserve⟩ | ⟨hnone, hstate⟩
      · obtain ⟨hdefault', hblank'⟩ := ReadState.blankLines_of_observe hobserve
        refine ⟨hdefault.trans hdefault', ?_⟩
        simp only [linesRead_of_line hline, List.count_cons, beq_iff_eq]
        exact Nat.le_trans hblank (by omega)
      · rw [hstate] at hdefault hblank
        rw [linesRead_of_none hnone]
        exact ⟨hdefault, hblank⟩

/-- The reader recognises a delimiter of the splitter if and only if it is bare, unless it looks
for headers anyway.  Behind a bare one it reads in the default charset until the second blank
line. -/
theorem readLines_delimiter (media : Multipart) (size : Nat) (D : Charset)
    (deliveries : List Delivery) (n : Nat) (line : Text) :
    let start := ofDeliveries media size D deliveries
    let before := (readLines n start).2
    let after := before.readLine.2
    (∀ seen ∈ linesRead n start, boundary? seen = none) →
    before.readLine.1 = .ok (some line) → (media.Opens line ∨ media.Closes line) →
      (after.state.progress.inBody = false ↔
        media.Bare line ∨ before.state.progress.inBody = false) ∧
      (media.Bare line → ∀ k, (linesRead k after).count "\r\n".toList ≤ 1 →
        ∀ raw, (readLines k after).2.state.decode raw = D.decode raw) := by
  intro start before after hquiet hline hdivides
  have hwithin : Within media D before.state :=
    within_readLines (ReadState.atPart_initial media D).toWithin n hquiet
  have hobserve : before.state.observe line = .ok after.state := observe_of_readLine hline
  refine ⟨ReadState.inBody_of_divides hwithin hdivides hobserve, ?_⟩
  intro hbare k hcount raw
  have hafter := (ReadState.observe_of_divides hwithin hdivides hobserve).1 hbare
  obtain ⟨hdefault, hblank⟩ := blankLines_readLines after k
  have hstart : after.state.progress.blankLines = 0 := by rw [hafter]; rfl
  rw [ReadState.decode_of_header (by omega), hdefault, hafter]
  exact congrArg (fun c : Charset => c.decode raw) hwithin.default

/-- A reader in the body of its first part, whose bytes are to end in the given line. -/
def inBodyBefore (last : Text) : LineReader :=
  ofDeliveries Batch.short 8192 .utf8
    [.bytes (Utf8.encode ("--b\r\n\r\n\r\nx\r\n".toList ++ last))]

/-- Behind a bare delimiter the reader looks for headers again. -/
theorem readLines_bare_delimiter :
    let line := "--b\r\n".toList
    let before := (readLines 4 (inBodyBefore line)).2
    let after := before.readLine.2
    (∀ seen ∈ linesRead 4 (inBodyBefore line), boundary? seen = none) ∧
      before.readLine.1 = .ok (some line) ∧ Batch.short.Opens line ∧
      (linesRead 0 after).count "\r\n".toList ≤ 1 ∧
      before.state.progress.inBody = true ∧ after.state.progress.inBody = false ∧
      ∀ raw, after.state.decode raw = Charset.utf8.decode raw := by
  intro line before after
  have hquiet : ∀ seen ∈ linesRead 4 (inBodyBefore line), boundary? seen = none := by
    decide +kernel
  have hline : before.readLine.1 = .ok (some line) := by decide +kernel
  have hopens : Batch.short.Opens line := Multipart.opensPart_iff.mp (by decide)
  have hbare : Batch.short.Bare line :=
    ⟨"--b".toList, "\r\n".toList, rfl, Or.inl rfl, by simp, by simp⟩
  have hcount : (linesRead 0 after).count "\r\n".toList ≤ 1 := Nat.zero_le 1
  obtain ⟨hbody, hdecode⟩ :=
    readLines_delimiter Batch.short 8192 .utf8 _ 4 line hquiet hline (Or.inl hopens)
  exact ⟨hquiet, hline, hopens, hcount, by decide +kernel, hbody.mpr (Or.inl hbare),
    hdecode hbare 0 hcount⟩

/-- A part in ISO-8859-1, and behind a line a response with a header in UTF-8. -/
def accented (line : Text) : Bytes :=
  Utf8.encode "--b\r\n".toList ++ Batch.latinPart ++
    Utf8.encode (line ++ "\r\nHTTP/1.1 200\r\nX: é\r\n\r\nx\r\n--b--\r\n".toList)

/-- The response behind the line, its header with the given value. -/
def accentedResponse (value : String) : Response :=
  { start := ⟨some 200⟩, headers := ⟨[("X".toList, [value.toList])]⟩, content := ['x'] }

/-- Behind a delimiter with a blank the reader stays in the body, so the headers of the part
that starts there read in the charset of the body before. -/
theorem readLines_padded_delimiter :
    let line := "--b \r\n".toList
    let before := (readLines 4 (inBodyBefore line)).2
    ((∀ seen ∈ linesRead 4 (inBodyBefore line), boundary? seen = none) ∧
      before.readLine.1 = .ok (some line) ∧ Batch.short.Opens line ∧
      before.readLine.2.state.progress.inBody = true) ∧
    Batch.parse Batch.short Item.empty (accented "--b\r\n".toList) =
      .ok [Batch.latinResponse, accentedResponse "é"] ∧
    Batch.parse Batch.short Item.empty (accented line) =
      .ok [Batch.latinResponse, accentedResponse "Ã©"] := by
  intro line before
  have hopens : Batch.short.Opens line := Multipart.opensPart_iff.mp (by decide)
  refine ⟨⟨by decide +kernel, by decide +kernel, hopens, by decide +kernel⟩, ?_, ?_⟩
  · rw [Batch.parse_eq]
    decide +kernel
  · rw [Batch.parse_eq]
    decide +kernel

end LineReader

end QueryBatch
