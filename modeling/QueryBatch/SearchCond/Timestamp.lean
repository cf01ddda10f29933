/-
Timestamps with an offset.  Form decoding turns the `+` of a final offset `+hhmm`
into a space; restoring puts it back.
-/
import QueryBatch.Text.Basic

namespace QueryBatch.Timestamp

/-- Whether a text ends in a space and four digits, all before them on one line.
The text is given in reverse. -/
def hasSpacedOffset : Text → Bool
  | d₄ :: d₃ :: d₂ :: d₁ :: ' ' :: before =>
      [d₁, d₂, d₃, d₄].all Char.isDigit && !before.contains '\n'
  | _ => false

/-- Puts a `+` in the place of the byte that is the fifth from the end.  There is no such text if
that parts a character. -/
def putPlus? (t : Text) : Option Text := do
  let place := t.byteLength - 5
  let (before, _) ← t.splitAtByte? place
  let (_, digits) ← t.splitAtByte? (place + 1)
  return before ++ '+' :: digits

/-- Puts the `+` back before a final offset that lost it. -/
def restore (t : Text) : Text :=
  if hasSpacedOffset t.reverse then (putPlus? t).getD t else t

end QueryBatch.Timestamp
