/-
Form-encoded texts: every `%` stands before two hexadecimal digits.  What a text stands
for is put together character by character.
-/
import Mathlib.Logic.Basic
import QueryBatch.Text.FormEncoding

namespace QueryBatch.FormEncoding

/-- The hexadecimal digits in either case. -/
def hexDigits : Text :=
  "0123456789abcdefABCDEF".toList

/-- A text in which two hexadecimal digits follow every `%`. -/
def Escaped (value : Text) : Prop :=
  ∀ before after, value = before ++ '%' :: after →
    ∃ high low rest, after = high :: low :: rest ∧ high ∈ hexDigits ∧ low ∈ hexDigits

/-- The bytes that a text stands for.  A `%` that names no byte stands for itself. -/
def bytes : Text → Bytes
  | [] => []
  | '%' :: high :: low :: r =>
      match escapedByte? [high, low] with
      | some byte => byte :: bytes r
      | none => 0x25 :: bytes (high :: low :: r)
  | c :: r => (if c = '+' then [0x20] else String.utf8EncodeChar c) ++ bytes r

theorem hexDigit?_isSome_iff {c : Char} : (hexDigit? c).isSome = true ↔ c ∈ hexDigits := by
  have hdigits : hexDigits = ['0', '1', '2', '3', '4', '5', '6', '7', '8', '9', 'a', 'b', 'c',
      'd', 'e', 'f', 'A', 'B', 'C', 'D', 'E', 'F'] := by decide
  have hle : ∀ c d : Char, c ≤ d ↔ c.toNat ≤ d.toNat := fun c d => UInt32.le_iff_toNat_le
  simp only [hdigits, List.mem_cons, List.not_mem_nil, ← Char.toNat_inj, hexDigit?, hle,
    Char.reduceToNat]
  split
  · simp; omega
  · split
    · simp; omega
    · split
      · simp; omega
      · simp; omega

theorem escapedByte?_ne_none_iff {t : Text} :
    escapedByte? t ≠ none ↔
      ∃ high low rest, t = high :: low :: rest ∧ high ∈ hexDigits ∧ low ∈ hexDigits := by
  match t with
  | [] => simp [escapedByte?]
  | [c] => simp [escapedByte?]
  | high :: low :: rest =>
      have hdigits : escapedByte? (high :: low :: rest) ≠ none ↔
          high ∈ hexDigits ∧ low ∈ hexDigits := by
        rw [← hexDigit?_isSome_iff, ← hexDigit?_isSome_iff, escapedByte?]
        cases hexDigit? high <;> cases hexDigit? low <;> simp
      rw [hdigits]
      constructor
      · exact fun h => ⟨high, low, rest, rfl, h⟩
      · rintro ⟨high', low', rest', heq, h⟩
        cases heq
        exact h

theorem escaped_cons_iff {c : Char} {t : Text} :
    Escaped (c :: t) ↔ (c = '%' → escapedByte? t ≠ none) ∧ Escaped t := by
  rw [escapedByte?_ne_none_iff]
  constructor
  · intro h
    refine ⟨fun hc => h [] t (by rw [hc]; rfl), ?_⟩
    rintro before after rfl
    exact h (c :: before) after rfl
  · rintro ⟨hhead, htail⟩ before after heq
    cases before with
    | nil =>
        obtain ⟨hc, rfl⟩ := List.cons.inj heq
        exact hhead hc
    | cons d before => exact htail before after (List.cons.inj heq).2

theorem badEscape?_eq_none_iff {position : Nat} {t : Text} :
    badEscape? position t = none ↔ Escaped t := by
  induction t generalizing position with
  | nil => simp [badEscape?, Escaped]
  | cons c t ih =>
      rw [escaped_cons_iff, badEscape?]
      split
      · rename_i hbad
        simp only [reduceCtorEq, false_iff, not_and]
        exact fun hhead => absurd hbad.2 (hhead hbad.1)
      · rename_i hgood
        rw [ih]
        simp only [not_and] at hgood
        exact ⟨fun h => ⟨hgood, h⟩, And.right⟩

@[simp] theorem escaped_nil : Escaped [] := by
  intro before after heq
  simp at heq

theorem escaped_cons_of_ne {c : Char} (hc : c ≠ '%') {t : Text} : Escaped (c :: t) ↔ Escaped t := by
  rw [escaped_cons_iff]
  exact and_iff_right fun heq => absurd heq hc

theorem mem_hexDigits_of_escapedByte? {high low : Char} {byte : UInt8}
    (hbyte : escapedByte? [high, low] = some byte) : high ∈ hexDigits ∧ low ∈ hexDigits := by
  have hsome : escapedByte? [high, low] ≠ none := by simp [hbyte]
  obtain ⟨_, _, _, ⟨⟩, hdigits⟩ := escapedByte?_ne_none_iff.mp hsome
  exact hdigits

theorem escaped_escape_iff {high low : Char} {byte : UInt8}
    (hbyte : escapedByte? [high, low] = some byte) {t : Text} :
    Escaped ('%' :: high :: low :: t) ↔ Escaped t := by
  obtain ⟨hhigh, hlow⟩ := mem_hexDigits_of_escapedByte? hbyte
  have hpercent : '%' ∉ hexDigits := by decide
  rw [escaped_cons_iff, escaped_cons_of_ne fun hc => hpercent (hc ▸ hhigh),
    escaped_cons_of_ne fun hc => hpercent (hc ▸ hlow)]
  exact and_iff_right fun _ => escapedByte?_ne_none_iff.mpr ⟨_, _, t, rfl, hhigh, hlow⟩

/-- An escaped text is empty, or something else than a `%` stands first, or an escape. -/
@[elab_as_elim]
theorem Escaped.induction {motive : (t : Text) → Escaped t → Prop} (nil : motive [] escaped_nil)
    (cons : ∀ (c : Char) (t : Text) (hc : c ≠ '%') (ht : Escaped t), motive t ht →
      motive (c :: t) ((escaped_cons_of_ne hc).mpr ht))
    (escape : ∀ (high low : Char) (byte : UInt8) (t : Text)
      (hbyte : escapedByte? [high, low] = some byte) (ht : Escaped t), motive t ht →
      motive ('%' :: high :: low :: t) ((escaped_escape_iff hbyte).mpr ht)) :
    ∀ {t : Text} (h : Escaped t), motive t h
  | [], _ => nil
  | c :: t, h => by
      by_cases hc : c = '%'
      · subst hc
        obtain ⟨high, low, rest, rfl, hdigits⟩ := h [] t rfl
        obtain ⟨byte, hbyte⟩ := Option.ne_none_iff_exists'.mp <|
          escapedByte?_ne_none_iff.mpr ⟨high, low, [], rfl, hdigits⟩
        have hrest := (escaped_escape_iff hbyte).mp h
        exact escape high low byte rest hbyte hrest (Escaped.induction nil cons escape hrest)
      · have hrest := (escaped_cons_of_ne hc).mp h
        exact cons c t hc hrest (Escaped.induction nil cons escape hrest)

theorem bytes_cons_of_ne {c : Char} (hc : c ≠ '%') (t : Text) :
    bytes (c :: t) = (if c = '+' then [0x20] else String.utf8EncodeChar c) ++ bytes t := by
  rw [bytes]
  exact fun _ _ _ heq => absurd heq hc

theorem bytes_escape {high low : Char} {byte : UInt8}
    (hbyte : escapedByte? [high, low] = some byte) (t : Text) :
    bytes ('%' :: high :: low :: t) = byte :: bytes t := by
  rw [bytes, hbyte]

end QueryBatch.FormEncoding
