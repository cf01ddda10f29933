/-
The media type of a payload: `multipart/mixed` with the boundary that separates
the parts and the charset that the payload announces.
-/
import QueryBatch.Payload.Charset

namespace QueryBatch

/-- What a payload announces of itself. -/
structure Multipart where
  boundary : Text
  charset : Charset := .utf8
deriving DecidableEq, Repr

namespace Multipart

/-- Reads the announcement of a payload. -/
def parse (contentType : Text) : Except Error Multipart :=
  match MediaType.parse (Text.trim contentType) with
  | .error fault => .error (.contentType (.malformed contentType fault))
  | .ok media =>
      if media.kind ≠ "multipart".toList ∨ media.subtype ≠ "mixed".toList then
        .error (.contentType (.otherType media.essence))
      else
        match (media.parameter? "boundary").map (Text.trimWhile (· == '"')) with
        | none | some [] => .error (.contentType (.noBoundary contentType))
        | some boundary =>
            match media.parameter? "charset" with
            | none => .ok ⟨boundary, .utf8⟩
            | some label => (Charset.ofLabel label).map fun charset => ⟨boundary, charset⟩

/-- The line that opens a part. -/
def delimiter (m : Multipart) : Text :=
  "--".toList ++ m.boundary

/-- The line that ends the parts. -/
def closeDelimiter (m : Multipart) : Text :=
  "--".toList ++ m.boundary ++ "--".toList

/-- The announcement of a payload. -/
def contentType (m : Multipart) : Text :=
  "multipart/mixed;boundary=".toList ++ m.boundary

/-- The lower-case hexadecimal digits of a number, filled with zeros to a width. -/
def hexDigits (width n : Nat) : Text :=
  let digits := Nat.toDigits 16 n
  List.replicate (width - digits.length) '0' ++ digits

/-- The announcement made with 128 bits, drawn afresh for each payload. -/
def ofBits (bits : BitVec 128) : Multipart :=
  ⟨"batch_".toList ++ hexDigits 32 bits.toNat, .utf8⟩

end Multipart

end QueryBatch
