/-
Charsets: how bytes read as text.  No charset refuses a byte; what it cannot read
becomes a replacement character.
-/
import QueryBatch.Error

namespace QueryBatch

/-- How bytes read as text. -/
inductive Charset where
  | utf8
  /-- ISO-8859-1: each byte is the code point of its value. -/
  | latin1
  | ascii
deriving DecidableEq, Repr

namespace Charset

/-- The canonical name of a charset. -/
def name : Charset → Text
  | .utf8 => "UTF-8".toList
  | .latin1 => "ISO-8859-1".toList
  | .ascii => "US-ASCII".toList

/-- The labels of a charset, in lower case. -/
def labels : Charset → List Text
  | .utf8 => ["utf-8".toList, "utf8".toList]
  | .latin1 =>
      ["iso-8859-1".toList, "iso8859-1".toList, "iso_8859-1".toList, "latin1".toList, "l1".toList]
  | .ascii => ["us-ascii".toList, "ascii".toList]

/-- A label without blanks and quotes around it, in lower case. -/
def normalizeLabel (label : Text) : Text :=
  Text.toLower (Text.trimWhile (· == '"') (Text.trim label))

/-- The charset that a label names, in any case, with or without quotes. -/
def ofLabel (label : Text) : Except Error Charset :=
  match [utf8, latin1, ascii].find? fun c => c.labels.contains (normalizeLabel label) with
  | some c => .ok c
  | none => .error (.unsupportedCharset label)

/-- The character that one byte stands for outside UTF-8. -/
def ofByte (latin : Bool) (b : UInt8) : Char :=
  if latin || b.toNat < 0x80 then Char.ofNat b.toNat else Utf8.replacement

/-- Reads bytes as text. -/
def decode : Charset → Bytes → Text
  | .utf8, bytes => Utf8.decode bytes
  | .latin1, bytes => bytes.map (ofByte true)
  | .ascii, bytes => bytes.map (ofByte false)

end Charset

end QueryBatch
