/-
Lines of a payload.  What a line is decoded with depends on the lines before it:
headers have the default charset, and a body, which starts after the second blank
line of its part, has the charset that the part declared.
-/
import QueryBatch.Payload.Multipart
import QueryBatch.Payload.Source
import QueryBatch.Settings.Basic

namespace QueryBatch

/-- A line of a payload, with its ending. -/
structure Line where
  number : Nat
  content : Text
deriving DecidableEq, Repr

/-- How far a part is read: the blank lines since its boundary line.  The count has no
bound; a counter of one byte that stays at its greatest value tells the same, since all that
is asked is whether two were counted. -/
structure Progress where
  blankLines : Nat := 0
deriving DecidableEq, Repr

namespace Progress

/-- After one more blank line. -/
def afterBlank (p : Progress) : Progress :=
  ⟨p.blankLines + 1⟩

/-- After a boundary line. -/
def afterBoundary (_ : Progress) : Progress :=
  ⟨0⟩

/-- Whether the body has begun: one blank line ends the headers of the part, and
one those of the message in it. -/
def inBody (p : Progress) : Bool :=
  2 ≤ p.blankLines

end Progress

/-- What a reader of lines has learnt from the lines so far. -/
structure ReadState where
  /-- The charset of headers, and of bodies that declare none. -/
  defaultCharset : Charset
  /-- The charset of the body of the current part. -/
  charset : Charset
  /-- The line that separates parts. -/
  boundary : Text
  progress : Progress := {}
deriving DecidableEq, Repr

namespace ReadState

/-- Before the first line. -/
def initial (media : Multipart) (defaultCharset : Charset) : ReadState :=
  { defaultCharset, charset := media.charset, boundary := media.delimiter }

/-- The value of a line `name: value`. -/
def headerValue? (name line : Text) : Option Text :=
  (Text.splitAt? ':' line).bind fun (key, value) =>
    if Text.sameIgnoringCase (Text.trim key) name then some (Text.trim value) else none

/-- The value of a line that declares a content type. -/
def contentType? (line : Text) : Option Text :=
  headerValue? "Content-Type".toList line

/-- Whether a line separates parts or ends them. -/
def isBoundary (s : ReadState) (line : Text) : Bool :=
  let bare := Text.dropEndWhile (fun c => c == '\r' || c == '\n') line
  bare == s.boundary || bare == s.boundary ++ "--".toList

/-- After a content type is declared.  One that cannot be read declares nothing. -/
def declare (s : ReadState) (contentType : Text) : Except Error ReadState :=
  match MediaType.parse contentType with
  | .error _ => .ok { s with charset := s.defaultCharset }
  | .ok media => do
      let charset ←
        match media.parameter? "charset" with
        | some label => Charset.ofLabel label
        | none => .ok s.defaultCharset
      let boundary :=
        match media.parameter? "boundary" with
        | some boundary => "--".toList ++ Text.trimWhile (· == '"') boundary
        | none => s.boundary
      return { s with charset, boundary }

/-- After a line. -/
def observe (s : ReadState) (line : Text) : Except Error ReadState :=
  match contentType? line with
  | some value => s.declare value
  | none =>
      if line = "\r\n".toList then .ok { s with progress := s.progress.afterBlank }
      else if s.isBoundary line then .ok { s with progress := s.progress.afterBoundary }
      else .ok s

/-- A raw line as text. -/
def decode (s : ReadState) (raw : Bytes) : Text :=
  (if s.progress.inBody then s.charset else s.defaultCharset).decode raw

/-- A text without the pairs of hyphens at its end; the text is given in reverse. -/
def dropHyphenPairs : Text → Text
  | '-' :: '-' :: r => dropHyphenPairs r
  | t => t

/-- After the first line, which sets the boundary if it looks like a delimiter. -/
def adopt (s : ReadState) (first : Text) : ReadState :=
  let marker := Text.trim first
  if (Text.dropStart? "--".toList marker).isSome then
    { s with boundary := (dropHyphenPairs marker.reverse).reverse }
  else s

end ReadState

/-- A source read line by line. -/
structure LineReader where
  source : Source
  state : ReadState
deriving DecidableEq, Repr

namespace LineReader

/-- A reader of what a source delivers. -/
def ofDeliveries (media : Multipart) (bufferSize : Nat) (defaultCharset : Charset)
    (deliveries : List Delivery) : LineReader :=
  ⟨{ size := max bufferSize 1, deliveries }, .initial media defaultCharset⟩

/-- A reader with the standard settings. -/
def standard (media : Multipart) (deliveries : List Delivery) : LineReader :=
  ofDeliveries media BatchSettings.standard.bufferSize .utf8 deliveries

/-- A reader with the given settings, if anything can be read with them. -/
def ofSettings (media : Multipart) (settings : BatchSettings) (deliveries : List Delivery) :
    Except Error LineReader := do
  settings.validate
  let charset ← settings.charset
  return ofDeliveries media settings.bufferSize charset deliveries

/-- The next line, if the end is not met.  After a failure the reader goes on with
what follows. -/
def readLine (r : LineReader) : Except Error (Option Text) × LineReader :=
  match r.source.takeLine with
  | (.error e, source) => (.error e, { r with source })
  | (.ok [], source) => (.ok none, { r with source })
  | (.ok (b :: raw), source) =>
      let line := r.state.decode (b :: raw)
      match r.state.observe line with
      | .error e => (.error e, { r with source })
      | .ok state => (.ok (some line), { source, state })

theorem weight_of_readLine_eq_some {r r' : LineReader} {line : Text}
    (h : r.readLine = (.ok (some line), r')) : r'.source.weight < r.source.weight := by
  unfold readLine at h
  split at h
  · simp at h
  · simp at h
  · rename_i b raw source htake
    have := Source.weight_of_takeLine_eq_ok htake
    simp only at h
    split at h
    · simp at h
    · simp only [Prod.mk.injEq] at h
      rw [← h.2]
      simp only [List.length_cons] at this ⊢
      omega

set_option linter.unusedVariables false in
/-- All the lines that follow; the first failure ends them. -/
def readRest (r : LineReader) : Except Error (List Text) :=
  match hline : r.readLine with
  | (.error e, _) => .error e
  | (.ok none, _) => .ok []
  | (.ok (some line), r') => (readRest r').map (line :: ·)
termination_by r.source.weight
decreasing_by exact weight_of_readLine_eq_some hline

/-- All the lines that follow, numbered from one.  The first one may tell the
boundary. -/
def read (r : LineReader) : Except Error (List Line) :=
  match r.readLine with
  | (.error e, _) => .error e
  | (.ok none, _) => .ok []
  | (.ok (some first), r') =>
      (readRest { r' with state := r'.state.adopt first }).map fun others =>
        (first :: others).zipIdx.map fun (content, i) => ⟨i + 1, content⟩

end LineReader

end QueryBatch
