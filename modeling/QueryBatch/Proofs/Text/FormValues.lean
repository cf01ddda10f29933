/-
Form-encoded values.  A value is read as the only name in a form, whatever signs of a form it
holds, so reading it undoes every way to encode a text.
-/
import Mathlib.Data.Bool.AllAny
import Mathlib.Data.List.TakeWhile
import QueryBatch.Proofs.Failure
import QueryBatch.Proofs.Text.Encoding
import QueryBatch.Proofs.Text.Escapes

namespace QueryBatch.FormEncoding

/-- A reader of forms: fields stand between `&` signs, and in a field the first `=` stands
between the name and the value. -/
structure ReadsForms (read : Bytes → List (Text × Text)) : Prop where
  nil : read [] = []
  append : ∀ first rest, read (first ++ 0x26 :: rest) = read first ++ read rest
  name : ∀ name, name ≠ [] → 0x26 ∉ name → 0x3D ∉ name → read name = [(component name, [])]
  value : ∀ name value, 0x26 ∉ name → 0x3D ∉ name → 0x26 ∉ value →
    read (name ++ 0x3D :: value) = [(component name, component value)]

section

variable {bytes : Bytes}

theorem pieces_ne_nil (bytes : Bytes) : pieces bytes ≠ [] := by
  fun_cases pieces bytes <;> simp_all

theorem pieces_of_notMem (h : 0x26 ∉ bytes) : pieces bytes = [bytes] := by
  induction bytes with
  | nil => rfl
  | cons b bytes ih =>
      rw [List.mem_cons, not_or] at h
      rw [pieces, if_neg (Ne.symm h.1), ih h.2]

theorem pieces_append (first rest : Bytes) :
    pieces (first ++ 0x26 :: rest) = pieces first ++ pieces rest := by
  induction first with
  | nil => simp [pieces]
  | cons b first ih =>
      rw [List.cons_append, pieces, pieces, ih]
      by_cases hb : b = 0x26
      · rw [if_pos hb, if_pos hb]
        rfl
      · rw [if_neg hb, if_neg hb]
        obtain ⟨piece, others, hpieces⟩ := List.exists_cons_of_ne_nil (pieces_ne_nil first)
        rw [hpieces]
        rfl

theorem fields_of_notMem (hne : bytes ≠ []) (h : 0x26 ∉ bytes) : fields bytes = [field bytes] := by
  rw [fields, pieces_of_notMem h, List.filter_cons_of_pos (by simpa using hne)]
  rfl

theorem bne_of_notMem {name : Bytes} (h : 0x3D ∉ name) : ∀ b ∈ name, (b != 0x3D) = true :=
  fun _ hb => bne_iff_ne.mpr fun heq => h (heq ▸ hb)

theorem readsForms_fields : ReadsForms fields where
  nil := rfl
  append first rest := by
    rw [fields, pieces_append, List.filter_append, List.map_append, fields, fields]
  name name hne hmark hequals := by
    have hall := bne_of_notMem hequals
    rw [fields_of_notMem hne hmark, field, List.takeWhile_eq_self_iff.mpr hall,
      List.dropWhile_eq_nil_iff.mpr hall]
    rfl
  value name value hmark hequals hvalue := by
    have hall := bne_of_notMem hequals
    have hpiece : 0x26 ∉ name ++ 0x3D :: value := by simp [hmark, hvalue]
    rw [fields_of_notMem (by simp) hpiece, field, List.takeWhile_append_of_pos hall,
      List.dropWhile_append_of_pos hall]
    simp

theorem ReadsForms.eq_of_notMem {read : Bytes → List (Text × Text)} (hread : ReadsForms read)
    {piece : Bytes} (hmark : 0x26 ∉ piece) : read piece = fields piece := by
  by_cases hequals : 0x3D ∈ piece
  · obtain ⟨name, value, rfl, hname⟩ := List.eq_append_cons_of_mem hequals
    simp only [List.mem_append, List.mem_cons, not_or] at hmark
    obtain ⟨hfirst, -, hvalue⟩ := hmark
    rw [hread.value name value hfirst hname hvalue,
      readsForms_fields.value name value hfirst hname hvalue]
  · by_cases hnil : piece = []
    · rw [hnil, hread.nil, readsForms_fields.nil]
    · rw [hread.name piece hnil hmark hequals, readsForms_fields.name piece hnil hmark hequals]

/-- The rules of forms determine how a form is read. -/
theorem ReadsForms.eq_fields {read : Bytes → List (Text × Text)} (hread : ReadsForms read) :
    read = fields := by
  funext form
  -- What stands after the first `&` of the form is shorter than the form.
  induction hlength : form.length using Nat.strong_induction_on generalizing form with
  | h n ih =>
      by_cases hmark : 0x26 ∈ form
      · obtain ⟨first, rest, rfl, hfirst⟩ := List.eq_append_cons_of_mem hmark
        have hshorter : rest.length < n := by
          rw [← hlength, List.length_append, List.length_cons]
          omega
        rw [hread.append, readsForms_fields.append, hread.eq_of_notMem hfirst,
          ih rest.length hshorter rest rfl]
      · exact hread.eq_of_notMem hmark

end

/-- What is no `%` is left alone. -/
theorem percentDecode_append {first : Bytes} (h : 0x25 ∉ first) (rest : Bytes) :
    percentDecode (first ++ rest) = first ++ percentDecode rest := by
  induction first with
  | nil => rfl
  | cons b first ih =>
      rw [List.mem_cons, not_or] at h
      have hcons : ∀ r, percentDecode (b :: r) = b :: percentDecode r := by
        intro r
        match r with
        | [] => rfl
        | [_] => rfl
        | _ :: _ :: _ => rw [percentDecode, if_neg (Ne.symm h.1)]
      rw [List.cons_append, hcons, ih h.2, List.cons_append]

/-- A byte below 128 stands in the bytes of no other character than its own. -/
theorem notMem_encodeChar {b : UInt8} (hb : b.toNat < 0x80) {c : Char} (hc : c.toNat ≠ b.toNat) :
    b ∉ String.utf8EncodeChar c :=
  fun hmem => hc (Utf8.toNat_eq_of_mem_encodeChar hb hmem)

/-- The signs that end a name do not stand in the bytes of a value that is read as one. -/
theorem notMem_encode_escapeMarks (value : Text) :
    0x26 ∉ Utf8.encode (escapeMarks value) ∧ 0x3D ∉ Utf8.encode (escapeMarks value) := by
  induction value with
  | nil => decide
  | cons c value ih =>
      rw [escapeMarks, List.flatMap_cons, Utf8.encode_append, List.mem_append, List.mem_append,
        not_or, not_or]
      by_cases hand : c = '&'
      · rw [if_pos hand]
        exact ⟨⟨by decide, ih.1⟩, by decide, ih.2⟩
      · by_cases hequals : c = '='
        · rw [if_neg hand, if_pos hequals]
          exact ⟨⟨by decide, ih.1⟩, by decide, ih.2⟩
        · rw [if_neg hand, if_neg hequals, Utf8.encode_cons, Utf8.encode_nil, List.append_nil]
          refine ⟨⟨notMem_encodeChar (by decide) ?_, ih.1⟩, notMem_encodeChar (by decide) ?_, ih.2⟩
          · exact fun heq => hand (Char.toNat_inj.mp heq)
          · exact fun heq => hequals (Char.toNat_inj.mp heq)

/-- Bytes with spaces in the place of plus signs. -/
def spacedBytes (bytes : Bytes) : Bytes :=
  bytes.map fun b => if b = 0x2B then 0x20 else b

theorem spacedBytes_append (first rest : Bytes) :
    spacedBytes (first ++ rest) = spacedBytes first ++ spacedBytes rest :=
  List.map_append

theorem spacedBytes_encodeChar (c : Char) :
    spacedBytes (String.utf8EncodeChar c) =
      if c = '+' then [0x20] else String.utf8EncodeChar c := by
  by_cases hplus : c = '+'
  · rw [hplus]
    decide
  · have hnot : 0x2B ∉ String.utf8EncodeChar c :=
      notMem_encodeChar (by decide) fun heq => hplus (Char.toNat_inj.mp heq)
    rw [if_neg hplus, spacedBytes]
    refine (List.map_congr_left fun b hb => ?_).trans (List.map_id _)
    exact if_neg fun heq : b = 0x2B => hnot (heq ▸ hb)

theorem encode_escapeMarks_cons (c : Char) (t : Text) :
    Utf8.encode (escapeMarks (c :: t)) =
      Utf8.encode (escapeMarks [c]) ++ Utf8.encode (escapeMarks t) := by
  simp [escapeMarks]

theorem percentDecode_escape {high low byte : UInt8}
    (hbyte : escapedByte? [Char.ofNat high.toNat, Char.ofNat low.toNat] = some byte)
    (rest : Bytes) : percentDecode (0x25 :: high :: low :: rest) = byte :: percentDecode rest := by
  rw [percentDecode, if_pos rfl, hbyte]

/-- A character that is no `%` is read as itself, and a plus sign as a space. -/
theorem percentDecode_char_append {c : Char} (hc : c ≠ '%') (rest : Bytes) :
    percentDecode (spacedBytes (Utf8.encode (escapeMarks [c])) ++ rest) =
      (if c = '+' then [0x20] else String.utf8EncodeChar c) ++ percentDecode rest := by
  by_cases hand : c = '&'
  · subst hand
    exact percentDecode_escape (by decide) rest
  · by_cases hequals : c = '='
    · subst hequals
      exact percentDecode_escape (by decide) rest
    · have hself : escapeMarks [c] = [c] := by simp [escapeMarks, hand, hequals]
      have hpercent : 0x25 ∉ if c = '+' then [0x20] else String.utf8EncodeChar c := by
        by_cases hplus : c = '+'
        · rw [if_pos hplus]
          decide
        · rw [if_neg hplus]
          exact notMem_encodeChar (by decide) fun heq => hc (Char.toNat_inj.mp heq)
      rw [hself, Utf8.encode_cons, Utf8.encode_nil, List.append_nil, spacedBytes_encodeChar,
        percentDecode_append hpercent]

/-- The escapes that were put into a value are undone with those that were there. -/
theorem percentDecode_encode_escapeMarks {value : Text} (h : Escaped value) :
    percentDecode (spacedBytes (Utf8.encode (escapeMarks value))) = bytes value := by
  induction h using Escaped.induction with
  | nil => rfl
  | cons c t hc ht ih =>
      rw [encode_escapeMarks_cons, spacedBytes_append, percentDecode_char_append hc, ih,
        bytes_cons_of_ne hc]
  | escape high low byte t hbyte ht ih =>
      obtain ⟨hhigh, hlow⟩ := mem_hexDigits_of_escapedByte? hbyte
      have hdigit : ∀ c ∈ hexDigits,
          spacedBytes (Utf8.encode (escapeMarks [c])) = [UInt8.ofNat c.toNat] :=
        List.all_iff_forall_prop.mp (by decide)
      have hchar : ∀ c ∈ hexDigits, Char.ofNat (UInt8.ofNat c.toNat).toNat = c :=
        List.all_iff_forall_prop.mp (by decide)
      have hvalue : spacedBytes (Utf8.encode (escapeMarks ('%' :: high :: low :: t))) =
          0x25 :: UInt8.ofNat high.toNat :: UInt8.ofNat low.toNat ::
            spacedBytes (Utf8.encode (escapeMarks t)) := by
        rw [encode_escapeMarks_cons, encode_escapeMarks_cons high, encode_escapeMarks_cons low,
          spacedBytes_append, spacedBytes_append, spacedBytes_append, hdigit high hhigh,
          hdigit low hlow]
        rfl
      rw [hvalue, bytes_escape hbyte, ← ih]
      exact percentDecode_escape (by rw [hchar high hhigh, hchar low hlow, hbyte]) _

/-- A value that is the only name in a form: what it stands for is read from its bytes. -/
theorem decode_of_escaped {value : Text} (h : Escaped value) :
    decode value = .ok (Utf8.decode (bytes value)) := by
  have hname : component (Utf8.encode (escapeMarks value)) = Utf8.decode (bytes value) :=
    congrArg Utf8.decode (percentDecode_encode_escapeMarks h)
  rw [decode, decodeBy, badEscape?_eq_none_iff.mpr h]
  by_cases hnil : Utf8.encode (escapeMarks value) = []
  · rw [← hname, hnil]
    rfl
  · obtain ⟨hmark, hequals⟩ := notMem_encode_escapeMarks value
    rw [readsForms_fields.name _ hnil hmark hequals, hname]
    rfl

/-- Escaped texts are those that can be decoded; their bytes decide what they mean. -/
theorem decode_eq_ok_iff {value decoded : Text} :
    decode value = .ok decoded ↔ Escaped value ∧ decoded = Utf8.decode (bytes value) := by
  cases hbad : badEscape? 0 value with
  | none =>
      have hescaped := badEscape?_eq_none_iff.mp hbad
      simp [decode_of_escaped hescaped, hescaped, eq_comm]
  | some position =>
      have hnot : ¬ Escaped value := fun h => by
        simp [badEscape?_eq_none_iff.mpr h] at hbad
      simp [decode, decodeBy, hbad, hnot]

/-- A value that cannot be decoded is at fault for an escape in it. -/
theorem decode_eq_error_iff {value : Text} {e : Error} :
    decode value = .error e ↔
      ∃ position, badEscape? 0 value = some position ∧
        e = .encoding (.badEscape position value) := by
  rw [decode, decodeBy]
  cases badEscape? 0 value with
  | none => simp
  | some position => simp [eq_comm]

/-- A hexadecimal digit of a number, in either case. -/
def IsHexDigit (n : Nat) (c : Char) : Prop :=
  c = n.digitChar ∨ c = n.digitChar.toUpper

/-- An escape of a byte. -/
def IsEscapeOf (byte : UInt8) (written : Text) : Prop :=
  ∃ high low, IsHexDigit (byte.toNat / 16) high ∧ IsHexDigit (byte.toNat % 16) low ∧
    written = ['%', high, low]

/-- The ways to write a character: as itself, a space as a plus sign, or each of its bytes as
an escape.  A plus sign or a percent sign is not written as itself. -/
inductive IsWritten : Char → Text → Prop
  | literal {c : Char} (hplus : c ≠ '+') (hpercent : c ≠ '%') : IsWritten c [c]
  | plus : IsWritten ' ' ['+']
  | escapes {c : Char} {written : List Text}
      (h : List.Forall₂ IsEscapeOf (String.utf8EncodeChar c) written) :
      IsWritten c written.flatten

/-- A character of one byte may be written as the escape of the byte. -/
theorem isWritten_of_isEscapeOf {c : Char} {byte : UInt8} {written : Text}
    (hchar : String.utf8EncodeChar c = [byte]) (h : IsEscapeOf byte written) :
    IsWritten c written := by
  have hescapes : List.Forall₂ IsEscapeOf (String.utf8EncodeChar c) [written] := by
    rw [hchar]
    exact .cons h .nil
  simpa using IsWritten.escapes hescapes

/-- The ways to encode a text: each character is written in some way. -/
def Encodes (text value : Text) : Prop :=
  ∃ written, List.Forall₂ IsWritten text written ∧ value = written.flatten

/-- An escaped text that stands for the bytes. -/
def StandsFor (value : Text) (bs : Bytes) : Prop :=
  Escaped value ∧ bytes value = bs

theorem StandsFor.append {first rest : Text} {bs cs : Bytes} (h : StandsFor first bs)
    (hrest : StandsFor rest cs) : StandsFor (first ++ rest) (bs ++ cs) := by
  obtain ⟨hfirst, rfl⟩ := h
  obtain ⟨hrest, rfl⟩ := hrest
  induction hfirst using Escaped.induction with
  | nil => exact ⟨hrest, rfl⟩
  | cons c t hc ht ih =>
      refine ⟨(escaped_cons_of_ne hc).mpr ih.1, ?_⟩
      rw [List.cons_append, bytes_cons_of_ne hc, ih.2, bytes_cons_of_ne hc, List.append_assoc]
  | escape high low byte t hbyte ht ih =>
      refine ⟨(escaped_escape_iff hbyte).mpr ih.1, ?_⟩
      rw [List.cons_append, List.cons_append, List.cons_append, bytes_escape hbyte, ih.2,
        bytes_escape hbyte, List.cons_append]

theorem standsFor_flatten {α : Type} {f : α → Bytes} {xs : List α} {written : List Text}
    (h : List.Forall₂ (fun x value => StandsFor value (f x)) xs written) :
    StandsFor written.flatten (xs.flatMap f) := by
  induction h with
  | nil => exact ⟨escaped_nil, rfl⟩
  | cons hhead _ ih => exact hhead.append ih

theorem escapedByte?_of_isHexDigit {byte : UInt8} {high low : Char}
    (hhigh : IsHexDigit (byte.toNat / 16) high) (hlow : IsHexDigit (byte.toNat % 16) low) :
    escapedByte? [high, low] = some byte := by
  have hdigits : ∀ n < 16, hexDigit? n.digitChar = some n ∧
      hexDigit? n.digitChar.toUpper = some n := by
    decide
  have hdigit : ∀ {n c}, n < 16 → IsHexDigit n c → hexDigit? c = some n := by
    rintro n c hn (rfl | rfl)
    · exact (hdigits n hn).1
    · exact (hdigits n hn).2
  have hbyte := byte.toNat_lt
  rw [escapedByte?, hdigit (by omega) hhigh, hdigit (by omega) hlow]
  simp [Nat.div_add_mod]

theorem IsEscapeOf.standsFor {byte : UInt8} {written : Text} (h : IsEscapeOf byte written) :
    StandsFor written [byte] := by
  obtain ⟨high, low, hhigh, hlow, rfl⟩ := h
  have hbyte := escapedByte?_of_isHexDigit hhigh hlow
  exact ⟨(escaped_escape_iff hbyte).mpr escaped_nil, bytes_escape hbyte []⟩

theorem IsWritten.standsFor {c : Char} {written : Text} (h : IsWritten c written) :
    StandsFor written (String.utf8EncodeChar c) := by
  cases h with
  | literal hplus hpercent =>
      refine ⟨(escaped_cons_of_ne hpercent).mpr escaped_nil, ?_⟩
      rw [bytes_cons_of_ne hpercent, if_neg hplus]
      exact List.append_nil _
  | plus => exact ⟨(escaped_cons_of_ne (by decide)).mpr escaped_nil, by decide⟩
  | escapes h =>
      have hbytes := standsFor_flatten (h.imp fun _ _ hescape => hescape.standsFor)
      rwa [List.flatMap_singleton'] at hbytes

/-- Every encoding of a text stands for the bytes of the text. -/
theorem Encodes.standsFor {text value : Text} (h : Encodes text value) :
    StandsFor value (Utf8.encode text) := by
  obtain ⟨written, hwritten, rfl⟩ := h
  exact standsFor_flatten (hwritten.imp fun _ _ h => h.standsFor)

/-- A text without signs that decoding changes encodes itself. -/
theorem encodes_self {text : Text} (hplus : '+' ∉ text) (hpercent : '%' ∉ text) :
    Encodes text text := by
  refine ⟨text.map fun c => [c], ?_, (List.flatMap_singleton' text).symm⟩
  rw [List.forall₂_map_right_iff, List.forall₂_same]
  exact fun c hc => .literal (fun heq => hplus (heq ▸ hc)) fun heq => hpercent (heq ▸ hc)

/-- Decoding undoes encoding. -/
theorem Encodes.decode_eq {text value : Text} (h : Encodes text value) :
    decode value = .ok text := by
  rw [decode_of_escaped h.standsFor.1, h.standsFor.2, Utf8.decode_encode]

/-- Values are read as the only name in a form.  A value cannot be read if two hexadecimal
digits do not follow some `%` of it.  Any other value, whatever signs of a form it holds, is
the text that its bytes decode to, so what encodes a text is read as that text. -/
theorem decodeBy_undoes_encoding {read : Bytes → List (Text × Text)} (hread : ReadsForms read) :
    (∀ value : Text,
      ((∃ position, decodeBy read value = .error (.encoding (.badEscape position value))) ↔
        ¬ Escaped value) ∧
      (Escaped value → decodeBy read value = .ok (Utf8.decode (bytes value)))) ∧
    ∀ text value : Text, Encodes text value → decodeBy read value = .ok text := by
  rw [hread.eq_fields]
  refine ⟨fun value => ⟨⟨?_, fun hbad => ?_⟩, decode_of_escaped⟩, fun _ _ => Encodes.decode_eq⟩
  · rintro ⟨position, herror⟩ hescaped
    have hok := decode_of_escaped hescaped
    rw [decode, herror] at hok
    cases hok
  · obtain ⟨position, hposition⟩ :=
      Option.ne_none_iff_exists'.mp fun hnone => hbad (badEscape?_eq_none_iff.mp hnone)
    exact ⟨position, decode_eq_error_iff.mpr ⟨position, hposition, rfl⟩⟩

/-- Both signs of a form, a space and an escaped letter and plus sign. -/
theorem decode_marks_and_escapes :
    ReadsForms fields ∧ Encodes "é=& +".toList "%C3%a9=&+%2b".toList ∧
      decode "%C3%a9=&+%2b".toList = .ok "é=& +".toList ∧
      ¬ Escaped "50%".toList ∧
      ∃ position, decode "50%".toList = .error (.encoding (.badEscape position "50%".toList)) := by
  have htext : "é=& +".toList = ['é', '=', '&', ' ', '+'] := by decide
  have hletterBytes : String.utf8EncodeChar 'é' = [0xC3, 0xA9] := by decide
  have hletter : IsWritten 'é' ["%C3".toList, "%a9".toList].flatten := .escapes <| by
    rw [hletterBytes]
    exact .cons ⟨'C', '3', .inr (by decide), .inl (by decide), rfl⟩ <|
      .cons ⟨'a', '9', .inl (by decide), .inl (by decide), rfl⟩ .nil
  have hsign : IsWritten '+' "%2b".toList :=
    isWritten_of_isEscapeOf (by decide : String.utf8EncodeChar '+' = [0x2B])
      ⟨'2', 'b', .inl (by decide), .inl (by decide), rfl⟩
  have hencodes : Encodes "é=& +".toList "%C3%a9=&+%2b".toList := by
    rw [htext]
    refine ⟨["%C3%a9".toList, ['='], ['&'], ['+'], "%2b".toList], ?_, by decide⟩
    exact .cons hletter <| .cons (.literal (by decide) (by decide)) <|
      .cons (.literal (by decide) (by decide)) <| .cons .plus <| .cons hsign .nil
  have hbad : ¬ Escaped "50%".toList := fun h =>
    absurd (badEscape?_eq_none_iff.mpr h : badEscape? 0 "50%".toList = none) (by decide)
  have hread := decodeBy_undoes_encoding readsForms_fields
  exact ⟨readsForms_fields, hencodes, hread.2 _ _ hencodes, hbad, (hread.1 _).1.mpr hbad⟩

end QueryBatch.FormEncoding
