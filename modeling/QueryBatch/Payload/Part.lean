/-
Parts of a payload.  The lines between two delimiters are a part, and a part reads
as an item: headers of the part, a blank line, a start line, headers of the
message, a blank line, and content.
-/
import QueryBatch.Payload.Item
import QueryBatch.Payload.LineReader
import QueryBatch.Text.Word

namespace QueryBatch

namespace Multipart

/-- Whether a text is a line of the payload, possibly followed by blanks. -/
def isDelimiterLine (line content : Text) : Bool :=
  match Text.dropStart? line content with
  | some rest => Text.allBlank rest
  | none => false

/-- Whether a text opens a part. -/
def opensPart (m : Multipart) (content : Text) : Bool :=
  isDelimiterLine m.delimiter content

/-- Whether a text ends the parts. -/
def endsParts (m : Multipart) (content : Text) : Bool :=
  isDelimiterLine m.closeDelimiter content

/-- A text without its line ending, if that is a carriage return and a line feed. -/
def dropLineEnding (content : Text) : Text :=
  match content.reverse with
  | '\n' :: '\r' :: r => r.reverse
  | _ => content

/-- A part without the line ending that belongs to the delimiter after it. -/
def dropLastEnding : List Line → List Line
  | [] => []
  | [line] => [{ line with content := dropLineEnding line.content }]
  | line :: lines => line :: dropLastEnding lines

/-- The lines before the first delimiter, and the parts after it, if a close
delimiter ends them. -/
def groups? (m : Multipart) : List Line → Option (List Line × List (List Line))
  | [] => none
  | line :: lines =>
      if m.endsParts line.content then some ([], [])
      else
        (groups? m lines).map fun (current, parts) =>
          if m.opensPart line.content then ([], dropLastEnding current :: parts)
          else (line :: current, parts)

/-- The parts that lines make up; what precedes the first delimiter and what
follows the close delimiter is no part. -/
def split (m : Multipart) (lines : List Line) : Except Error (List (List Line)) :=
  match m.groups? lines with
  | some (_, parts) => .ok parts
  | none => .error (.missingCloseDelimiter ((lines.head?.map Line.number).getD 0))

end Multipart

namespace Part

/-- Whether a character may stand in the name of a header. -/
def isHeaderName (c : Char) : Bool :=
  MediaType.tokenMarks.contains c || Text.isWord c

/-- The text of a header behind its colon: it may end in blanks, and without them
it is a single line.  One blank right after the colon does not count. -/
def headerValue? (t : Text) : Option Text :=
  let value := if t.head?.any Text.isBlank then t.tail else t
  if (Text.trimEnd value).contains '\n' then none else some (Text.trim value)

/-- The name and the value of a header line. -/
def header? (line : Text) : Option (Text × Text) :=
  let name := line.takeWhile isHeaderName
  match line.dropWhile isHeaderName with
  | ':' :: value => if name = [] then none else (headerValue? value).map fun value => (name, value)
  | _ => none

/-- Whether a text holds another one. -/
def holds (inner : Text) : Text → Bool
  | [] => inner.isEmpty
  | c :: r => (Text.dropStart? inner (c :: r)).isSome || holds inner r

/-- The lines after the header lines at the start. -/
def afterHeaders (lines : List Text) : List Text :=
  lines.dropWhile fun line => (header? line).isSome

/-- The headers at the start. -/
def headers (lines : List Text) : List (Text × Text) :=
  (lines.takeWhile fun line => (header? line).isSome).filterMap header?

/-- The lines after a blank line, if that is the first. -/
def afterBlank : List Text → List Text
  | [] => []
  | line :: lines => if Text.allBlank line then lines else line :: lines

/-- The start line at the start, if there is one, and the lines after it. -/
def start? : List Text → Option Text × List Text
  | [] => (none, [])
  | line :: lines => if holds protocol line then (some line, lines) else (none, line :: lines)

variable {σ : Type} [StartLine σ]

/-- Reads a part into an item.  What the part does not tell stays as it is; its
own headers leave no trace. -/
def read (item : Item σ) (lines : List Text) : Item σ :=
  let (line?, message) := start? (afterBlank (afterHeaders lines))
  let started := (line?.map item.readStart).getD item
  let withHeaders :=
    (headers message).foldl (fun item header => item.addHeader header.1 header.2) started
  { withHeaders with content := (afterBlank (afterHeaders message)).flatten }

end Part

end QueryBatch
