/-
UTF-8.  Encoding writes each character in its shortest form.  Decoding never
fails: every maximal part of an ill-formed sequence reads as one replacement
character.
-/
import QueryBatch.Text.Basic

namespace QueryBatch

/-- Undecoded bytes. -/
abbrev Bytes := List UInt8

namespace Utf8

/-- The UTF-8 form of a text. -/
def encode (t : Text) : Bytes :=
  t.flatMap String.utf8EncodeChar

@[simp] theorem encode_nil : encode [] = [] := rfl

@[simp] theorem encode_cons (c : Char) (t : Text) :
    encode (c :: t) = String.utf8EncodeChar c ++ encode t := by
  simp [encode]

@[simp] theorem encode_append (s t : Text) : encode (s ++ t) = encode s ++ encode t := by
  simp [encode]

/-- Stands for bytes that no character encodes to. -/
def replacement : Char := '\uFFFD'

/-- A sequence begun but not finished: how many bytes it still needs, the bits
read so far, and the bounds of its next byte. -/
structure Pending where
  needed : Nat
  bits : Nat
  low : Nat
  high : Nat
deriving DecidableEq, Repr

/-- The sequence that a lead byte begins, if it is one. -/
def lead? (b : Nat) : Option Pending :=
  if 0xC2 ≤ b ∧ b ≤ 0xDF then some ⟨1, b - 0xC0, 0x80, 0xBF⟩
  else if b = 0xE0 then some ⟨2, 0, 0xA0, 0xBF⟩
  else if b = 0xED then some ⟨2, 0xD, 0x80, 0x9F⟩
  else if 0xE1 ≤ b ∧ b ≤ 0xEF then some ⟨2, b - 0xE0, 0x80, 0xBF⟩
  else if b = 0xF0 then some ⟨3, 0, 0x90, 0xBF⟩
  else if 0xF1 ≤ b ∧ b ≤ 0xF3 then some ⟨3, b - 0xF0, 0x80, 0xBF⟩
  else if b = 0xF4 then some ⟨3, 4, 0x80, 0x8F⟩
  else none

/-- Reads a byte that continues no sequence. -/
def start (b : Nat) : Option Pending × Text :=
  if b < 0x80 then (none, [Char.ofNat b])
  else
    match lead? b with
    | some p => (some p, [])
    | none => (none, [replacement])

/-- Reads one byte: the sequence left open and the characters now known. -/
def step (open? : Option Pending) (b : Nat) : Option Pending × Text :=
  match open? with
  | none => start b
  | some p =>
      if p.low ≤ b ∧ b ≤ p.high then
        let bits := p.bits * 64 + (b - 0x80)
        if p.needed ≤ 1 then (none, [Char.ofNat bits])
        else (some ⟨p.needed - 1, bits, 0x80, 0xBF⟩, [])
      else
        -- the byte is no part of the sequence and is read afresh
        ((start b).1, replacement :: (start b).2)

/-- Decodes the bytes that follow the sequence left open. -/
def decodeFrom (open? : Option Pending) : Bytes → Text
  | [] => if open?.isSome then [replacement] else []
  | b :: bytes => (step open? b.toNat).2 ++ decodeFrom (step open? b.toNat).1 bytes

/-- The text that the bytes encode. -/
def decode (bytes : Bytes) : Text :=
  decodeFrom none bytes

end Utf8

end QueryBatch
