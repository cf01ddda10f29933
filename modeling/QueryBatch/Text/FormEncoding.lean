/-
Form encoding: `+` stands for a space and `%` with two hexadecimal digits for the
byte they name; every other character stands for its own UTF-8 bytes.  A value is read
as the only name in a form, in which the signs that would end it are escaped.
-/
import QueryBatch.Error

namespace QueryBatch.FormEncoding

/-- The value of a hexadecimal digit in either case. -/
def hexDigit? (c : Char) : Option Nat :=
  if '0' ≤ c ∧ c ≤ '9' then some (c.toNat - 48)
  else if 'a' ≤ c ∧ c ≤ 'f' then some (c.toNat - 87)
  else if 'A' ≤ c ∧ c ≤ 'F' then some (c.toNat - 55)
  else none

/-- The byte that two hexadecimal digits at the start of the text name. -/
def escapedByte? : Text → Option UInt8
  | high :: low :: _ =>
      match hexDigit? high, hexDigit? low with
      | some h, some l => some (UInt8.ofNat (16 * h + l))
      | _, _ => none
  | _ => none

/-- The byte position of the first `%` that names no byte; the text starts at the
given position. -/
def badEscape? (position : Nat) : Text → Option Nat
  | [] => none
  | c :: r =>
      if c = '%' ∧ escapedByte? r = none then some position
      else badEscape? (position + c.utf8Size) r

/-- The bytes that bytes with escapes stand for: a `%` and two hexadecimal digits for the
byte that they name, anything else for itself. -/
def percentDecode : Bytes → Bytes
  | [] => []
  | percent :: high :: low :: r =>
      if percent = 0x25 then
        match escapedByte? [Char.ofNat high.toNat, Char.ofNat low.toNat] with
        | some byte => byte :: percentDecode r
        | none => percent :: percentDecode (high :: low :: r)
      else percent :: percentDecode (high :: low :: r)
  | b :: r => b :: percentDecode r

/-- The text that a name or a value in a form stands for. -/
def component (bytes : Bytes) : Text :=
  Utf8.decode (percentDecode (bytes.map fun b => if b = 0x2B then 0x20 else b))

/-- The pieces of a form between its `&` signs. -/
def pieces : Bytes → List Bytes
  | [] => [[]]
  | b :: r =>
      if b = 0x26 then [] :: pieces r
      else
        match pieces r with
        | [] => [[b]]
        | piece :: others => (b :: piece) :: others

/-- The name and the value in a piece of a form: what stands before and after the first `=`. -/
def field (piece : Bytes) : Text × Text :=
  (component (piece.takeWhile fun b => b != 0x3D),
    component ((piece.dropWhile fun b => b != 0x3D).drop 1))

/-- The fields of a form; an empty piece is none. -/
def fields (form : Bytes) : List (Text × Text) :=
  ((pieces form).filter fun piece => !piece.isEmpty).map field

/-- Writes the signs that end the name of a field as their escapes. -/
def escapeMarks (value : Text) : Text :=
  value.flatMap fun c =>
    if c = '&' then "%26".toList else if c = '=' then "%3D".toList else [c]

/-- The text that a form-encoded value stands for, when the fields of a form are read by
`read`: the name of the first field. -/
def decodeBy (read : Bytes → List (Text × Text)) (value : Text) : Except Error Text :=
  match badEscape? 0 value with
  | some position => .error (.encoding (.badEscape position value))
  | none => .ok (((read (Utf8.encode (escapeMarks value))).head?.map Prod.fst).getD [])

/-- The text that a form-encoded value stands for. -/
def decode (value : Text) : Except Error Text :=
  decodeBy fields value

end QueryBatch.FormEncoding
