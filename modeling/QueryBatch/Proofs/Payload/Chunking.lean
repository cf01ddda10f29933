/-
Readers of steady sources.  What a reader makes of a payload depends on the payload's
bytes alone: it is what the raw lines of the bytes read as, one after the other.
-/
import QueryBatch.Payload.LineReader
import QueryBatch.Proofs.Failure
import QueryBatch.Proofs.Payload.SteadySource

namespace QueryBatch

namespace ReadState

/-- A raw line as text, with what is known after it. -/
def readRaw (s : ReadState) (raw : Bytes) : Except Error (Text × ReadState) :=
  (s.observe (s.decode raw)).map fun after => (s.decode raw, after)

/-- Raw lines as texts; the first failure ends them. -/
def readAll : ReadState → List Bytes → Except Error (List Text)
  | _, [] => .ok []
  | s, raw :: raws =>
      match s.readRaw raw with
      | .error e => .error e
      | .ok (line, after) => (readAll after raws).map (line :: ·)

/-- Texts as lines, numbered from one. -/
def numbered (texts : List Text) : List Line :=
  texts.zipIdx.map fun (content, i) => ⟨i + 1, content⟩

/-- The raw lines of a payload as lines. -/
def readPayload (s : ReadState) : List Bytes → Except Error (List Line)
  | [] => .ok []
  | raw :: raws =>
      match s.readRaw raw with
      | .error e => .error e
      | .ok (first, after) =>
          ((after.adopt first).readAll raws).map fun others => numbered (first :: others)

theorem map_number_numbered (texts : List Text) :
    (numbered texts).map Line.number = List.range' 1 texts.length := by
  apply List.ext_getElem
  · simp [numbered]
  · intro i hi hi'
    simp [numbered, Nat.add_comm]

theorem map_content_numbered (texts : List Text) :
    (numbered texts).map Line.content = texts := by
  apply List.ext_getElem
  · simp [numbered]
  · intro i hi hi'
    simp [numbered]

end ReadState

namespace LineReader

open Source (cr lf cr_ne_lf)
open Lines (lines)

/-- One line of a steady reader: the first of the raw lines to come, read. -/
theorem readLine_of_steady {r : LineReader} (h : r.source.Steady) :
    ∃ source : Source, source.Steady ∧ source.ahead = (lines cr lf r.source.ahead).tail.flatten ∧
      r.readLine =
        match lines cr lf r.source.ahead with
        | [] => (.ok none, ⟨source, r.state⟩)
        | raw :: _ =>
            match r.state.readRaw raw with
            | .error e => (.error e, ⟨source, r.state⟩)
            | .ok (line, after) => (.ok (some line), ⟨source, after⟩) := by
  obtain ⟨source, hline, hsteady, hahead⟩ := Source.takeLine_of_steady h rfl
  refine ⟨source, hsteady, hahead, ?_⟩
  unfold readLine
  rw [hline]
  cases hlines : lines cr lf r.source.ahead with
  | nil => rfl
  | cons raw raws =>
      obtain ⟨b, raw, rfl⟩ := List.exists_cons_of_ne_nil (Lines.ne_nil_of_lines_eq_cons hlines)
      simp only [List.headD_cons, ReadState.readRaw]
      cases r.state.observe (r.state.decode (b :: raw)) <;> rfl

theorem readRest_of_steady {r : LineReader} (h : r.source.Steady) :
    r.readRest = r.state.readAll (lines cr lf r.source.ahead) := by
  induction hlines : lines cr lf r.source.ahead generalizing r with
  | nil =>
      obtain ⟨source, -, -, hread⟩ := readLine_of_steady h
      rw [hlines] at hread
      rw [readRest, ReadState.readAll]
      split <;> simp_all
  | cons raw raws ih =>
      obtain ⟨source, hsteady, hahead, hread⟩ := readLine_of_steady h
      rw [hlines] at hahead hread
      have hnext := Lines.lines_flatten_tail cr_ne_lf hlines
      rw [readRest, ReadState.readAll]
      cases hraw : r.state.readRaw raw with
      | error e =>
          simp only [hraw] at hread
          split <;> simp_all
      | ok result =>
          obtain ⟨line, after⟩ := result
          simp only [hraw] at hread
          have hrest := ih (r := ⟨source, after⟩) hsteady (hahead ▸ hnext)
          split <;> simp_all

/-- A steady reader reads the raw lines of the bytes to come. -/
theorem read_of_steady {r : LineReader} (h : r.source.Steady) :
    r.read = r.state.readPayload (lines cr lf r.source.ahead) := by
  obtain ⟨source, hsteady, hahead, hread⟩ := readLine_of_steady h
  unfold read
  rw [hread]
  cases hlines : lines cr lf r.source.ahead with
  | nil => rfl
  | cons raw raws =>
      rw [hlines] at hahead
      simp only [ReadState.readPayload]
      cases r.state.readRaw raw with
      | error e => rfl
      | ok result =>
          obtain ⟨first, after⟩ := result
          have hrest := readRest_of_steady (r := ⟨source, after.adopt first⟩) hsteady
          rw [hahead, List.tail_cons, Lines.lines_flatten_tail cr_ne_lf hlines] at hrest
          simp only [hrest]
          rfl

/-- Two readers that know the same and have the same bytes before them. -/
structure Alike (r r' : LineReader) : Prop where
  steady : r.source.Steady
  steady' : r'.source.Steady
  ahead : r.source.ahead = r'.source.ahead
  state : r.state = r'.state

/-- Alike readers give the same line and stay alike. -/
theorem Alike.readLine {r r' : LineReader} (h : Alike r r') :
    r.readLine.1 = r'.readLine.1 ∧ Alike r.readLine.2 r'.readLine.2 := by
  obtain ⟨source, hsteady, hahead, hread⟩ := readLine_of_steady h.steady
  obtain ⟨source', hsteady', hahead', hread'⟩ := readLine_of_steady h.steady'
  rw [← h.ahead] at hahead' hread'
  rw [← h.state] at hread'
  rw [hread, hread']
  have hsame := hahead.trans hahead'.symm
  cases lines cr lf r.source.ahead with
  | nil => exact ⟨rfl, hsteady, hsteady', hsame, rfl⟩
  | cons raw raws =>
      simp only
      cases r.state.readRaw raw with
      | error e => exact ⟨rfl, hsteady, hsteady', hsame, rfl⟩
      | ok result => exact ⟨rfl, hsteady, hsteady', hsame, rfl⟩

/-- Asks for a line so many times: the answers, and the reader after them. -/
def readLines : Nat → LineReader → List (Except Error (Option Text)) × LineReader
  | 0, r => ([], r)
  | n + 1, r => ((r.readLine.1 :: (readLines n r.readLine.2).1), (readLines n r.readLine.2).2)

theorem Alike.readLines {r r' : LineReader} (h : Alike r r') (n : Nat) :
    (readLines n r).1 = (readLines n r').1 ∧ Alike (readLines n r).2 (readLines n r').2 := by
  induction n generalizing r r' with
  | zero => exact ⟨rfl, h⟩
  | succ n ih =>
      obtain ⟨hline, hnext⟩ := h.readLine
      obtain ⟨hlines, hlast⟩ := ih hnext
      exact ⟨by rw [LineReader.readLines, LineReader.readLines, hline, hlines], hlast⟩

theorem steady_ofDeliveries (media : Multipart) (size : Nat) (defaultCharset : Charset)
    {deliveries : List Delivery} (h : Delivery.Steady deliveries) :
    (ofDeliveries media size defaultCharset deliveries).source.Steady :=
  ⟨Nat.lt_of_lt_of_le Nat.one_pos (Nat.le_max_right size 1), h, fun hend => by cases hend⟩

theorem ahead_ofDeliveries (media : Multipart) (size : Nat) (defaultCharset : Charset)
    (deliveries : List Delivery) :
    (ofDeliveries media size defaultCharset deliveries).source.ahead =
      Delivery.joined deliveries :=
  rfl

/-- A payload that comes in one piece. -/
theorem read_ofDeliveries_bytes (media : Multipart) (size : Nat) (defaultCharset : Charset)
    (bytes : Bytes) :
    (ofDeliveries media size defaultCharset [.bytes bytes]).read =
      (ReadState.initial media defaultCharset).readPayload (lines cr lf bytes) := by
  have hsteady := Delivery.steady_singleton bytes
  rw [read_of_steady (steady_ofDeliveries media size defaultCharset hsteady),
    ahead_ofDeliveries, Delivery.joined, Delivery.joined, List.append_nil]
  rfl

theorem map_number_of_read {r : LineReader} {read : List Line} (h : r.read = .ok read) :
    read.map Line.number = List.range' 1 read.length := by
  unfold LineReader.read at h
  split at h
  · simp at h
  · cases h
    rfl
  · rename_i first r' hfirst
    obtain ⟨others, -, hnumbered⟩ := map_eq_ok_iff.mp h
    have hread : ReadState.numbered (first :: others) = read := hnumbered
    rw [← hread, ReadState.map_number_numbered]
    simp [ReadState.numbered]

/-- However the bytes of a payload are cut into pieces, whatever interrupts them and
however many are asked for at a time, they read as if they came in one piece: the same
lines or the same failure, and line by line the same answers and the same state.  The
raw lines are the one decomposition of the bytes. -/
theorem read_of_cut_deliveries (media : Multipart) (defaultCharset : Charset) (size : Nat)
    {deliveries : List Delivery} {bytes : Bytes}
    (hpieces : ∀ d ∈ deliveries, d = .interrupted ∨ ∃ piece, piece ≠ [] ∧ d = .bytes piece)
    (hbytes : Delivery.joined deliveries = bytes) (sizeOfWhole : Nat) :
    let cut := ofDeliveries media size defaultCharset deliveries
    let whole := ofDeliveries media sizeOfWhole defaultCharset [.bytes bytes]
    cut.read = whole.read ∧
      (∀ n, (readLines n cut).1 = (readLines n whole).1 ∧
        (readLines n cut).2.state = (readLines n whole).2.state) ∧
      (∃ raws, cut.source.rawLines = .ok raws ∧
        (∀ ls, Lines.Decomposes cr lf bytes ls ↔ ls = raws) ∧
        cut.read = (ReadState.initial media defaultCharset).readPayload raws) ∧
      ∀ read, cut.read = .ok read → read.map Line.number = List.range' 1 read.length := by
  intro cut whole
  have hcut : cut.source.Steady :=
    steady_ofDeliveries media size defaultCharset (Delivery.steady_of_forall hpieces)
  have hwhole : whole.source.Steady :=
    steady_ofDeliveries media sizeOfWhole defaultCharset (Delivery.steady_singleton bytes)
  have hahead : cut.source.ahead = bytes := hbytes
  have halike : Alike cut whole :=
    ⟨hcut, hwhole, hahead.trans (List.append_nil bytes).symm, rfl⟩
  have hread : cut.read =
      (ReadState.initial media defaultCharset).readPayload (lines cr lf bytes) := by
    rw [read_of_steady hcut, hahead]
    rfl
  refine ⟨?_, fun n => ?_, ⟨lines cr lf bytes, ?_, ?_, hread⟩, fun read => map_number_of_read⟩
  · rw [hread, read_ofDeliveries_bytes]
  · exact ⟨(halike.readLines n).1, (halike.readLines n).2.state⟩
  · rw [Source.rawLines_of_steady hcut, hahead]
  · exact fun ls => Lines.decomposes_iff cr_ne_lf

/-- A line ending cut in two by an interruption is one ending. -/
theorem read_of_cut_line_ending :
    (ofDeliveries ⟨['x'], .utf8⟩ 1 .utf8
        [.bytes [0x61, 0x0D], .interrupted, .bytes [0x0A, 0x62]]).read =
      (ofDeliveries ⟨['x'], .utf8⟩ 4 .utf8 [.bytes [0x61, 0x0D, 0x0A, 0x62]]).read :=
  (read_of_cut_deliveries ⟨['x'], .utf8⟩ .utf8 1 (by simp) rfl 4).1

end LineReader

end QueryBatch
