/-
Payloads as lists of items, read and written.
-/
import QueryBatch.Payload.Part

namespace QueryBatch

namespace Batch

variable {σ : Type} [StartLine σ]

/-- The items that lines make up; each part completes a copy of the template. -/
def ofLines (media : Multipart) (template : Item σ) (lines : List Line) :
    Except Error (List (Item σ)) :=
  (media.split lines).map fun parts =>
    parts.map fun part => Part.read template (part.map Line.content)

/-- The items of the payload that a reader reads. -/
def ofReader (media : Multipart) (template : Item σ) (r : LineReader) :
    Except Error (List (Item σ)) :=
  r.read >>= ofLines media template

/-- The items of a payload, read with the given settings. -/
def ofDeliveries (media : Multipart) (settings : BatchSettings) (template : Item σ)
    (deliveries : List Delivery) : Except Error (List (Item σ)) :=
  LineReader.ofSettings media settings deliveries >>= ofReader media template

/-- The items of a payload given as its bytes, read with the standard settings. -/
def parse (media : Multipart) (template : Item σ) (payload : Bytes) :
    Except Error (List (Item σ)) :=
  ofDeliveries media .standard template [.bytes payload]

/-- Ends a line. -/
def endLine (line : Text) : Text :=
  line ++ "\r\n".toList

/-- The headers of every part. -/
def partHeaders : Text :=
  endLine "Content-Type: application/http".toList ++
    endLine "Content-Transfer-Encoding: binary".toList

/-- The header lines of a field, one for each value. -/
def writeField (field : Text × List Text) : Text :=
  field.2.flatMap fun value => endLine (field.1 ++ ": ".toList ++ value)

/-- Header fields and the blank line after them; nothing if there are none. -/
def writeHeaders (h : Headers) : Text :=
  if h.entries = [] then [] else h.entries.flatMap writeField ++ endLine []

/-- An item as a part, with the delimiter before it. -/
def writeItem (media : Multipart) (item : Item σ) : Text :=
  endLine media.delimiter ++ partHeaders ++ endLine [] ++
    (item.startLine?.map endLine).getD [] ++ writeHeaders item.headers ++
    (if item.content = [] then [] else endLine item.content)

/-- Items as a payload. -/
def write (media : Multipart) (items : List (Item σ)) : Text :=
  items.flatMap (writeItem media) ++ endLine media.closeDelimiter

end Batch

end QueryBatch
