/-
Items of a payload: messages with a start line, header fields and content.
-/
import QueryBatch.Payload.Headers
import QueryBatch.Payload.StartLine

namespace QueryBatch

/-- A message whose start line is of kind `σ`. -/
structure Item (σ : Type) where
  start : σ
  headers : Headers := {}
  content : Text := []
deriving DecidableEq, Repr

/-- A message that asks for something. -/
abbrev Request := Item RequestLine

/-- A message that answers a request. -/
abbrev Response := Item StatusLine

namespace Item

variable {σ : Type} [StartLine σ]

/-- The message of which nothing is known. -/
def empty : Item σ :=
  { start := StartLine.unknown }

/-- Reads a start line into a message; a line that is none changes nothing. -/
def readStart (item : Item σ) (line : Text) : Item σ :=
  { item with start := StartLine.read item.start line }

/-- The start line of a message, if it has one to write. -/
def startLine? (item : Item σ) : Option Text :=
  StartLine.write? item.start

/-- Adds the elements of a header value. -/
def addHeader (item : Item σ) (name value : Text) : Item σ :=
  { item with headers := item.headers.appendElements name value }

end Item

end QueryBatch
