/-
Encoded text.  Decoding undoes encoding, and the bytes that end lines come from the
characters that do, so text can be cut into lines before or after it is encoded.
-/
import QueryBatch.Proofs.Text.Lines
import QueryBatch.Text.Utf8

namespace QueryBatch.Utf8

/-- A byte that begins a sequence leaves it open. -/
theorem decodeFrom_lead {b : UInt8} {p : Pending} {bytes : Bytes} (hb : 0x80 ≤ b.toNat)
    (hlead : lead? b.toNat = some p) :
    decodeFrom none (b :: bytes) = decodeFrom (some p) bytes := by
  have hstart : ¬ b.toNat < 0x80 := by omega
  simp [decodeFrom, step, start, hstart, hlead]

/-- A byte within the bounds of an open sequence goes on with it. -/
theorem decodeFrom_continued {b : UInt8} {p : Pending} {bytes : Bytes}
    (hb : p.low ≤ b.toNat ∧ b.toNat ≤ p.high) (hneeded : 1 < p.needed) :
    decodeFrom (some p) (b :: bytes) =
      decodeFrom (some ⟨p.needed - 1, p.bits * 64 + (b.toNat - 0x80), 0x80, 0xBF⟩) bytes := by
  have hmore : ¬ p.needed ≤ 1 := by omega
  simp [decodeFrom, step, hb, hmore]

/-- The last byte that an open sequence needs completes its character. -/
theorem decodeFrom_completed {b : UInt8} {p : Pending} {bytes : Bytes}
    (hb : p.low ≤ b.toNat ∧ b.toNat ≤ p.high) (hneeded : p.needed = 1) :
    decodeFrom (some p) (b :: bytes) =
      Char.ofNat (p.bits * 64 + (b.toNat - 0x80)) :: decodeFrom none bytes := by
  simp [decodeFrom, step, hb, hneeded]

theorem lead?_of_two {v : Nat} (hlow : 0x7F < v) (hhigh : v ≤ 0x7FF) :
    lead? (v / 64 % 32 + 0xC0) = some ⟨1, v / 64, 0x80, 0xBF⟩ := by
  have hb : v / 64 % 32 = v / 64 := by omega
  rw [hb, lead?, if_pos (by omega), Nat.add_sub_cancel]

theorem lead?_of_three {v : Nat} (hlow : 0x7FF < v) (hhigh : v ≤ 0xFFFF)
    (hscalar : v < 0xD800 ∨ 0xDFFF < v) :
    ∃ low high, lead? (v / 4096 % 16 + 0xE0) = some ⟨2, v / 4096, low, high⟩ ∧
      low ≤ v / 64 % 64 + 0x80 ∧ v / 64 % 64 + 0x80 ≤ high := by
  have hb : v / 4096 % 16 = v / 4096 := by omega
  rw [hb, lead?, if_neg (by omega)]
  by_cases hzero : v / 4096 = 0
  · exact ⟨0xA0, 0xBF, by simp [hzero], by omega, by omega⟩
  · by_cases hsurrogate : v / 4096 = 0xD
    · exact ⟨0x80, 0x9F, by simp [hsurrogate], by omega, by omega⟩
    · refine ⟨0x80, 0xBF, ?_, by omega, by omega⟩
      rw [if_neg (by omega), if_neg (by omega), if_pos (by omega), Nat.add_sub_cancel]

theorem lead?_of_four {v : Nat} (hlow : 0xFFFF < v) (hhigh : v < 0x110000) :
    ∃ low high, lead? (v / 262144 % 8 + 0xF0) = some ⟨3, v / 262144, low, high⟩ ∧
      low ≤ v / 4096 % 64 + 0x80 ∧ v / 4096 % 64 + 0x80 ≤ high := by
  have hb : v / 262144 % 8 = v / 262144 := by omega
  rw [hb, lead?, if_neg (by omega), if_neg (by omega), if_neg (by omega), if_neg (by omega)]
  by_cases hzero : v / 262144 = 0
  · exact ⟨0x90, 0xBF, by simp [hzero], by omega, by omega⟩
  · by_cases hfour : v / 262144 = 4
    · exact ⟨0x80, 0x8F, by simp [hfour], by omega, by omega⟩
    · refine ⟨0x80, 0xBF, ?_, by omega, by omega⟩
      rw [if_neg (by omega), if_pos (by omega), Nat.add_sub_cancel]

theorem toNat_ofNat {n : Nat} (h : n < 256) : (UInt8.ofNat n).toNat = n := by
  simp [Nat.mod_eq_of_lt h]

theorem toNat_tail (n : Nat) : (UInt8.ofNat (n % 64 + 0x80)).toNat = n % 64 + 0x80 :=
  toNat_ofNat (by omega)

theorem decodeFrom_of_one {v : Nat} (bytes : Bytes) (hhigh : v < 0x80) :
    decodeFrom none (UInt8.ofNat v :: bytes) = Char.ofNat v :: decodeFrom none bytes := by
  have hbyte : (UInt8.ofNat v).toNat = v := toNat_ofNat (by omega)
  simp only [decodeFrom, step, start, hbyte]
  rw [if_pos hhigh]
  rfl

theorem decodeFrom_of_two {v : Nat} (bytes : Bytes) (hlow : 0x7F < v) (hhigh : v ≤ 0x7FF) :
    decodeFrom none (UInt8.ofNat (v / 64 % 32 + 0xC0) :: UInt8.ofNat (v % 64 + 0x80) :: bytes) =
      Char.ofNat v :: decodeFrom none bytes := by
  have hbyte : (UInt8.ofNat (v / 64 % 32 + 0xC0)).toNat = v / 64 % 32 + 0xC0 :=
    toNat_ofNat (by omega)
  have hlead := lead?_of_two hlow hhigh
  have hbits : v / 64 * 64 + (v % 64 + 0x80 - 0x80) = v := by omega
  rw [← hbyte] at hlead
  rw [decodeFrom_lead (by omega) hlead,
    decodeFrom_completed (by simp only [toNat_tail]; omega) rfl, toNat_tail, hbits]

theorem decodeFrom_of_three {v : Nat} (bytes : Bytes) (hlow : 0x7FF < v) (hhigh : v ≤ 0xFFFF)
    (hscalar : v < 0xD800 ∨ 0xDFFF < v) :
    decodeFrom none (UInt8.ofNat (v / 4096 % 16 + 0xE0) :: UInt8.ofNat (v / 64 % 64 + 0x80) ::
        UInt8.ofNat (v % 64 + 0x80) :: bytes) =
      Char.ofNat v :: decodeFrom none bytes := by
  have hbyte : (UInt8.ofNat (v / 4096 % 16 + 0xE0)).toNat = v / 4096 % 16 + 0xE0 :=
    toNat_ofNat (by omega)
  obtain ⟨low, high, hlead, hbounds⟩ := lead?_of_three hlow hhigh hscalar
  have hbits : (v / 4096 * 64 + (v / 64 % 64 + 0x80 - 0x80)) * 64 + (v % 64 + 0x80 - 0x80) = v := by
    omega
  rw [← hbyte] at hlead
  rw [decodeFrom_lead (by omega) hlead,
    decodeFrom_continued (by simp only [toNat_tail]; exact hbounds) (by simp),
    decodeFrom_completed (by simp only [toNat_tail]; omega) rfl, toNat_tail, toNat_tail, hbits]

theorem decodeFrom_of_four {v : Nat} (bytes : Bytes) (hlow : 0xFFFF < v) (hhigh : v < 0x110000) :
    decodeFrom none (UInt8.ofNat (v / 262144 % 8 + 0xF0) :: UInt8.ofNat (v / 4096 % 64 + 0x80) ::
        UInt8.ofNat (v / 64 % 64 + 0x80) :: UInt8.ofNat (v % 64 + 0x80) :: bytes) =
      Char.ofNat v :: decodeFrom none bytes := by
  have hbyte : (UInt8.ofNat (v / 262144 % 8 + 0xF0)).toNat = v / 262144 % 8 + 0xF0 :=
    toNat_ofNat (by omega)
  obtain ⟨low, high, hlead, hbounds⟩ := lead?_of_four hlow hhigh
  have hbits : ((v / 262144 * 64 + (v / 4096 % 64 + 0x80 - 0x80)) * 64 +
      (v / 64 % 64 + 0x80 - 0x80)) * 64 + (v % 64 + 0x80 - 0x80) = v := by
    omega
  rw [← hbyte] at hlead
  rw [decodeFrom_lead (by omega) hlead,
    decodeFrom_continued (by simp only [toNat_tail]; exact hbounds) (by simp),
    decodeFrom_continued (by simp only [toNat_tail]; omega) (by simp),
    decodeFrom_completed (by simp only [toNat_tail]; omega) rfl, toNat_tail, toNat_tail, toNat_tail,
    hbits]

/-- The bytes of a character read as the character, whatever follows. -/
theorem decodeFrom_encodeChar_append (c : Char) (bytes : Bytes) :
    decodeFrom none (String.utf8EncodeChar c ++ bytes) = c :: decodeFrom none bytes := by
  have hscalar : c.toNat < 0xD800 ∨ 0xDFFF < c.toNat ∧ c.toNat < 0x110000 := c.valid
  have hchar : Char.ofNat c.toNat = c := Char.ofNat_toNat c
  unfold String.utf8EncodeChar
  simp only [← Char.toNat.eq_1]
  generalize c.toNat = v at *
  subst hchar
  split
  · exact decodeFrom_of_one bytes (by omega)
  · split
    · exact decodeFrom_of_two bytes (by omega) (by omega)
    · split
      · exact decodeFrom_of_three bytes (by omega) (by omega) (by omega)
      · exact decodeFrom_of_four bytes (by omega) (by omega)

theorem decode_encode (t : Text) : decode (encode t) = t := by
  unfold decode
  induction t with
  | nil => rfl
  | cons c t ih => rw [encode_cons, decodeFrom_encodeChar_append, ih]

/-- A byte below 128 stands for itself wherever it occurs. -/
theorem toNat_eq_of_mem_encodeChar {c : Char} {b : UInt8} (hb : b.toNat < 0x80)
    (hmem : b ∈ String.utf8EncodeChar c) : c.toNat = b.toNat := by
  unfold String.utf8EncodeChar at hmem
  simp only [← Char.toNat.eq_1] at hmem
  generalize c.toNat = v at *
  have htwo := toNat_ofNat (n := v / 64 % 32 + 0xC0) (by omega)
  have hthree := toNat_ofNat (n := v / 4096 % 16 + 0xE0) (by omega)
  have hfour := toNat_ofNat (n := v / 262144 % 8 + 0xF0) (by omega)
  split at hmem
  · rw [List.mem_singleton.mp hmem, toNat_ofNat (by omega)]
  · split at hmem
    · simp only [List.mem_cons, List.not_mem_nil, or_false] at hmem
      rcases hmem with rfl | rfl <;> simp only [htwo, toNat_tail] at hb <;> omega
    · split at hmem
      · simp only [List.mem_cons, List.not_mem_nil, or_false] at hmem
        rcases hmem with rfl | rfl | rfl <;> simp only [hthree, toNat_tail] at hb <;> omega
      · simp only [List.mem_cons, List.not_mem_nil, or_false] at hmem
        rcases hmem with rfl | rfl | rfl | rfl <;> simp only [hfour, toNat_tail] at hb <;> omega

theorem mem_encodeChar_cr_iff {c : Char} : 0x0D ∈ String.utf8EncodeChar c ↔ c = '\r' := by
  constructor
  · exact fun h => Char.toNat_inj.mp (toNat_eq_of_mem_encodeChar (by decide) h)
  · rintro rfl
    decide

theorem mem_encodeChar_lf_iff {c : Char} : 0x0A ∈ String.utf8EncodeChar c ↔ c = '\n' := by
  constructor
  · exact fun h => Char.toNat_inj.mp (toNat_eq_of_mem_encodeChar (by decide) h)
  · rintro rfl
    decide

open Lines (Unbroken Ended Open Apart Decomposes lines)

theorem encode_flatten (ts : List Text) : encode ts.flatten = (ts.map encode).flatten := by
  induction ts with
  | nil => rfl
  | cons t ts ih => rw [List.flatten_cons, encode_append, ih, List.map_cons, List.flatten_cons]

theorem encode_eq_nil_iff {t : Text} : encode t = [] ↔ t = [] := by
  cases t with
  | nil => simp
  | cons c t => simp [String.utf8EncodeChar_ne_nil]

theorem unbroken_encode {t : Text} (h : Unbroken '\r' '\n' t) :
    Unbroken 0x0D 0x0A (encode t) := by
  apply Lines.unbroken_iff.mpr
  constructor
  · intro hmem
    obtain ⟨c, hc, hb⟩ := List.mem_flatMap.mp hmem
    exact (h c hc).1 (mem_encodeChar_cr_iff.mp hb)
  · intro hmem
    obtain ⟨c, hc, hb⟩ := List.mem_flatMap.mp hmem
    exact (h c hc).2 (mem_encodeChar_lf_iff.mp hb)

theorem ended_encode {t : Text} (h : Ended '\r' '\n' t) : Ended 0x0D 0x0A (encode t) := by
  obtain ⟨body, ending, rfl, hbody, hending⟩ := h
  refine ⟨encode body, encode ending, encode_append body ending, unbroken_encode hbody, ?_⟩
  rcases hending with rfl | rfl | rfl
  · exact Or.inl (by decide)
  · exact Or.inr (Or.inl (by decide))
  · exact Or.inr (Or.inr (by decide))

theorem open_encode {t : Text} (h : Open '\r' '\n' t) : Open 0x0D 0x0A (encode t) :=
  ⟨fun hnil => h.1 (encode_eq_nil_iff.mp hnil), unbroken_encode h.2⟩

theorem getLast?_of_encode {t : Text} (h : (encode t).getLast? = some 0x0D) :
    t.getLast? = some '\r' := by
  rcases List.eq_nil_or_concat t with rfl | ⟨t, c, rfl⟩
  · simp at h
  · rw [List.concat_eq_append, encode_append, List.getLast?_append] at h
    have hlast : (String.utf8EncodeChar c).getLast? = some 0x0D := by
      have hne : (String.utf8EncodeChar c) ≠ [] := String.utf8EncodeChar_ne_nil
      rw [List.getLast?_eq_some_getLast hne]
      simpa [List.getLast?_eq_some_getLast hne] using h
    have hc := mem_encodeChar_cr_iff.mp (List.mem_of_getLast? hlast)
    simp [hc]

theorem head?_of_encode {t : Text} (h : (encode t).head? = some 0x0A) :
    t.head? = some '\n' := by
  cases t with
  | nil => simp at h
  | cons c t =>
      rw [encode_cons] at h
      have hhead : (String.utf8EncodeChar c).head? = some 0x0A := by
        rw [List.head?_append, List.head?_eq_some_head String.utf8EncodeChar_ne_nil] at h
        rw [List.head?_eq_some_head String.utf8EncodeChar_ne_nil]
        exact h
      have hc := mem_encodeChar_lf_iff.mp (List.mem_of_head? hhead)
      simp [hc]

/-- The lines of encoded text are the lines of the text, encoded. -/
theorem lines_encode (t : Text) : lines 0x0D 0x0A (encode t) = (lines '\r' '\n' t).map encode := by
  have h := Lines.decomposes_lines (by decide : '\r' ≠ '\n') t
  refine (Decomposes.eq_lines (by decide) ⟨?_, ?_, ?_, ?_⟩).symm
  · rw [← encode_flatten, h.flatten_eq]
  · rw [← List.map_dropLast]
    intro raw hraw
    obtain ⟨l, hl, rfl⟩ := List.mem_map.mp hraw
    exact ended_encode (h.ended l hl)
  · intro raw hraw
    rw [List.getLast?_map] at hraw
    obtain ⟨l, hl, rfl⟩ := Option.map_eq_some_iff.mp hraw
    exact (h.last l hl).imp ended_encode open_encode
  · rw [List.isChain_map]
    exact h.apart.imp fun l m hapart hcut =>
      hapart ⟨getLast?_of_encode hcut.1, head?_of_encode hcut.2⟩

end QueryBatch.Utf8
