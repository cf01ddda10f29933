/-
Decoded bytes.  In every charset a byte below 128 stands for itself and ends whatever
sequence is open, so bytes can be cut into lines before or after they are decoded.
-/
import Mathlib.Algebra.Group.Nat.Defs
import Mathlib.Data.List.Forall2
import QueryBatch.Payload.Charset
import QueryBatch.Proofs.Text.Encoding

namespace QueryBatch

open Lines (Unbroken Ended Open Apart Decomposes lines)

namespace Utf8

/-- What holds of a sequence left open: its next byte is none below 128, and the number
that it spells in the end is not below 128 either. -/
structure Pending.Proper (p : Pending) : Prop where
  low : 0x80 ≤ p.low
  bits : 2 ≤ p.bits * 64 + (p.low - 0x80)
  last : p.needed ≤ 1 → 0x80 ≤ p.bits * 64 + (p.low - 0x80)

theorem proper_of_lead? {b : Nat} {p : Pending} (h : lead? b = some p) : p.Proper := by
  unfold lead? at h
  split_ifs at h <;> obtain rfl := Option.some.inj h <;> constructor <;> simp only <;> omega

/-- A sequence that goes on stays proper. -/
theorem Pending.Proper.continued {p : Pending} (h : p.Proper) {b : Nat} (hlow : p.low ≤ b)
    (needed : Nat) : Pending.Proper ⟨needed, p.bits * 64 + (b - 0x80), 0x80, 0xBF⟩ := by
  obtain ⟨hbase, hbits, -⟩ := h
  constructor <;> simp only <;> omega

theorem toNat_char {n : Nat} (h : n.isValidChar) : (Char.ofNat n).toNat = n := by
  rw [Char.ofNat, dif_pos h]
  rfl

theorem toNat_char_of_lt {n : Nat} (h : n < 0xD800) : (Char.ofNat n).toNat = n :=
  toNat_char (Or.inl h)

theorem ofNat_ne_of_le {n : Nat} (hn : 0x80 ≤ n) {c : Char} (hc : c.toNat < 0x80)
    (hzero : c.toNat ≠ 0) : Char.ofNat n ≠ c := by
  rintro rfl
  by_cases hvalid : n.isValidChar
  · have hnumber := toNat_char hvalid
    omega
  · exact hzero (by simp [Char.ofNat, hvalid])

theorem ofNat_ne_of_lt {n : Nat} (hn : n < 0x80) {c : Char} (hne : n ≠ c.toNat) :
    Char.ofNat n ≠ c := by
  rintro rfl
  exact hne (toNat_char_of_lt (by omega)).symm

/-- What is read of a byte that ends no line, and what is left open after it. -/
theorem step_spec {open? : Option Pending} (hopen : ∀ p ∈ open?, p.Proper) (b : Nat) :
    (∀ p ∈ (step open? b).1, p.Proper) ∧
      (b ≠ 0x0D ∧ b ≠ 0x0A → Unbroken '\r' '\n' (step open? b).2) := by
  have hreplacement : Unbroken '\r' '\n' [replacement] := Lines.unbroken_of_all (by decide)
  have hstart : (∀ p ∈ (start b).1, p.Proper) ∧
      (b ≠ 0x0D ∧ b ≠ 0x0A → Unbroken '\r' '\n' (start b).2) := by
    unfold start
    split
    · rename_i hascii
      refine ⟨by simp, fun hb => ?_⟩
      apply Lines.unbroken_cons.mpr
      exact ⟨⟨ofNat_ne_of_lt hascii hb.1, ofNat_ne_of_lt hascii hb.2⟩, by simp [Unbroken]⟩
    · split
      · rename_i p hlead
        refine ⟨?_, by simp [Unbroken]⟩
        intro q hq
        obtain rfl := Option.some.inj hq
        exact proper_of_lead? hlead
      · exact ⟨by simp, fun _ => hreplacement⟩
  cases open? with
  | none => exact hstart
  | some p =>
      have hp := hopen p rfl
      unfold step
      simp only
      split
      · rename_i hbounds
        split
        · rename_i hneeded
          have hnumber : 0x80 ≤ p.bits * 64 + (b - 0x80) := by
            have := hp.last hneeded
            omega
          refine ⟨by simp, fun _ => ?_⟩
          apply Lines.unbroken_cons.mpr
          exact ⟨⟨ofNat_ne_of_le hnumber (by decide) (by decide),
            ofNat_ne_of_le hnumber (by decide) (by decide)⟩, by simp [Unbroken]⟩
        · refine ⟨?_, by simp [Unbroken]⟩
          intro q hq
          obtain rfl := Option.some.inj hq
          exact hp.continued hbounds.1 _
      · exact ⟨hstart.1, fun hb => Lines.unbroken_append.mpr ⟨hreplacement, hstart.2 hb⟩⟩

theorem unbroken_decodeFrom {open? : Option Pending} (hopen : ∀ p ∈ open?, p.Proper)
    {bytes : Bytes} (hbytes : Unbroken 0x0D 0x0A bytes) :
    Unbroken '\r' '\n' (decodeFrom open? bytes) := by
  induction bytes generalizing open? with
  | nil =>
      unfold decodeFrom
      split
      · exact Lines.unbroken_of_all (by decide)
      · simp [Unbroken]
  | cons b bytes ih =>
      rw [Lines.unbroken_cons] at hbytes
      obtain ⟨hnext, hread⟩ := step_spec hopen b.toNat
      have hb : b.toNat ≠ 0x0D ∧ b.toNat ≠ 0x0A :=
        ⟨fun h => hbytes.1.1 (UInt8.toNat_inj.mp h), fun h => hbytes.1.2 (UInt8.toNat_inj.mp h)⟩
      rw [decodeFrom, Lines.unbroken_append]
      exact ⟨hread hb, ih hnext hbytes.2⟩

/-- A byte below 128 ends the sequence left open before it. -/
theorem decodeFrom_append_cons {open? : Option Pending} (hopen : ∀ p ∈ open?, p.Proper)
    (before : Bytes) {b : UInt8} (hb : b.toNat < 0x80) (after : Bytes) :
    decodeFrom open? (before ++ b :: after) =
      decodeFrom open? before ++ Char.ofNat b.toNat :: decodeFrom none after := by
  induction before generalizing open? with
  | nil =>
      cases open? with
      | none => simp [decodeFrom, step, start, hb]
      | some p =>
          have hlow := (hopen p rfl).low
          have hout : ¬ (p.low ≤ b.toNat ∧ b.toNat ≤ p.high) := by omega
          simp [decodeFrom, step, start, hb, hout]
  | cons x before ih =>
      obtain ⟨hnext, -⟩ := step_spec hopen x.toNat
      rw [List.cons_append, decodeFrom, ih hnext, decodeFrom, List.append_assoc]

/-- A sequence left open shows in the text, whatever follows. -/
theorem decodeFrom_some_ne_nil (p : Pending) (bytes : Bytes) : decodeFrom (some p) bytes ≠ [] := by
  induction bytes generalizing p with
  | nil => simp [decodeFrom]
  | cons b bytes ih =>
      rw [decodeFrom, step]
      split
      · split
        · simp
        · simpa using ih _
      · simp

theorem decodeFrom_none_cons_ne_nil (b : UInt8) (bytes : Bytes) :
    decodeFrom none (b :: bytes) ≠ [] := by
  rw [decodeFrom, step, start]
  split
  · simp
  · split
    · simpa using decodeFrom_some_ne_nil _ bytes
    · simp

/-- The least number that an open sequence can spell. -/
def Pending.least (p : Pending) : Nat :=
  (p.bits * 64 + (p.low - 0x80)) * 64 ^ (p.needed - 1)

/-- The greatest number that an open sequence can spell. -/
def Pending.greatest (p : Pending) : Nat :=
  (p.bits * 64 + (p.high - 0x80)) * 64 ^ (p.needed - 1) + (64 ^ (p.needed - 1) - 1)

/-- An open sequence all of whose numbers are those of characters, and none below 128. -/
structure Pending.Scalar (p : Pending) : Prop where
  needed : 1 ≤ p.needed ∧ p.needed ≤ 3
  least : 0x80 ≤ p.least
  scalar : p.greatest < 0xD800 ∨ 0xDFFF < p.least ∧ p.greatest < 0x110000

theorem scalar_of_lead? {b : Nat} {p : Pending} (h : lead? b = some p) : p.Scalar := by
  unfold lead? at h
  split_ifs at h <;> obtain rfl := Option.some.inj h <;> constructor <;>
    simp only [Pending.least, Pending.greatest] <;> omega

theorem Pending.Scalar.continued {p : Pending} (h : p.Scalar) {b : Nat}
    (hb : p.low ≤ b ∧ b ≤ p.high) (hneeded : 1 < p.needed) :
    Pending.Scalar ⟨p.needed - 1, p.bits * 64 + (b - 0x80), 0x80, 0xBF⟩ := by
  obtain ⟨needed, bits, low, high⟩ := p
  obtain ⟨hrange, hleast, hscalar⟩ := h
  simp only [Pending.least, Pending.greatest] at *
  obtain rfl | rfl : needed = 2 ∨ needed = 3 := by omega
  all_goals
    constructor <;> simp only [Pending.least, Pending.greatest] <;> omega

/-- A completed sequence is no character below 128. -/
theorem Pending.Scalar.toNat_ofNat {p : Pending} (h : p.Scalar) {b : Nat}
    (hb : p.low ≤ b ∧ b ≤ p.high) (hneeded : p.needed ≤ 1) :
    0x80 ≤ (Char.ofNat (p.bits * 64 + (b - 0x80))).toNat := by
  obtain ⟨needed, bits, low, high⟩ := p
  obtain ⟨hrange, hleast, hscalar⟩ := h
  simp only [Pending.least, Pending.greatest] at *
  obtain rfl : needed = 1 := by omega
  have hvalid : (bits * 64 + (b - 0x80)).isValidChar := by
    unfold Nat.isValidChar
    omega
  rw [toNat_char hvalid]
  omega

/-- A sequence left open does not read as a character below 128, however it goes on. -/
theorem head?_decodeFrom_some {p : Pending} (h : p.Scalar) (bytes : Bytes) :
    ∀ c ∈ (decodeFrom (some p) bytes).head?, 0x80 ≤ c.toNat := by
  have hreplacement : 0x80 ≤ replacement.toNat := by decide
  induction bytes generalizing p with
  | nil => simpa [decodeFrom] using hreplacement
  | cons b bytes ih =>
      rw [decodeFrom, step]
      by_cases hb : p.low ≤ b.toNat ∧ b.toNat ≤ p.high
      · simp only [hb, and_self, if_true]
        by_cases hneeded : p.needed ≤ 1
        · simpa [hneeded] using h.toNat_ofNat hb hneeded
        · simpa [hneeded] using ih (h.continued hb (Nat.lt_of_not_le hneeded))
      · simpa [hb] using hreplacement

theorem head?_decode {b : UInt8} (hb : 0x80 ≤ b.toNat) (bytes : Bytes) :
    ∀ c ∈ (decode (b :: bytes)).head?, 0x80 ≤ c.toNat := by
  rw [decode, decodeFrom, step, start, if_neg (Nat.not_lt_of_le hb)]
  cases hlead : lead? b.toNat with
  | none => simp [replacement]
  | some p => simpa using head?_decodeFrom_some (scalar_of_lead? hlead) bytes

/-- A character below 128 is encoded as the byte of its number. -/
theorem encodeChar_of_ascii {c : Char} (hc : c.toNat < 0x80) :
    String.utf8EncodeChar c = [UInt8.ofNat c.toNat] := by
  unfold String.utf8EncodeChar
  simp only [← Char.toNat.eq_1]
  exact if_pos (by omega)

end Utf8

/-- All characters are below 128. -/
def Text.Ascii (t : Text) : Prop :=
  ∀ c ∈ t, c.toNat < 0x80

instance (t : Text) : Decidable t.Ascii :=
  List.decidableBAll (fun c : Char => c.toNat < 0x80) t

theorem Text.Ascii.append {t u : Text} (ht : t.Ascii) (hu : u.Ascii) : (t ++ u).Ascii :=
  List.forall_mem_append.mpr ⟨ht, hu⟩

/-- What holds of the first 128 characters holds of every character in ASCII. -/
theorem of_ascii {P : Char → Prop} (hall : ∀ n < 0x80, P (Char.ofNat n)) {c : Char}
    (hc : c.toNat < 0x80) : P c := by
  have hchar := hall c.toNat hc
  rwa [Char.ofNat_toNat] at hchar

namespace Charset

variable {c : Charset}

theorem noneOpen : ∀ p ∈ (none : Option Utf8.Pending), p.Proper := by
  simp

@[simp] theorem decode_nil (c : Charset) : c.decode [] = [] := by
  cases c <;> rfl

theorem decode_eq_nil_iff {bytes : Bytes} : c.decode bytes = [] ↔ bytes = [] := by
  cases c with
  | utf8 =>
      cases bytes with
      | nil => simp
      | cons b bytes => exact iff_of_false (Utf8.decodeFrom_none_cons_ne_nil b bytes) (by simp)
  | latin1 => exact List.map_eq_nil_iff
  | ascii => exact List.map_eq_nil_iff

/-- In every charset a byte below 128 stands for itself, whatever is around it. -/
theorem decode_append_cons (c : Charset) (before : Bytes) {b : UInt8} (hb : b.toNat < 0x80)
    (after : Bytes) :
    c.decode (before ++ b :: after) = c.decode before ++ Char.ofNat b.toNat :: c.decode after := by
  cases c with
  | utf8 => exact Utf8.decodeFrom_append_cons noneOpen before hb after
  | latin1 => simp [decode, ofByte]
  | ascii => simp [decode, ofByte, hb]

theorem decode_cons (c : Charset) {b : UInt8} (hb : b.toNat < 0x80) (after : Bytes) :
    c.decode (b :: after) = Char.ofNat b.toNat :: c.decode after := by
  simpa using decode_append_cons c [] hb after

/-- Bytes behind one below 128 read as if nothing were before them. -/
theorem decode_append_of_getLast? (c : Charset) {before : Bytes}
    (h : ∀ b ∈ before.getLast?, b.toNat < 0x80) (after : Bytes) :
    c.decode (before ++ after) = c.decode before ++ c.decode after := by
  rcases List.eq_nil_or_concat before with rfl | ⟨first, b, rfl⟩
  · simp
  · rw [List.concat_eq_append] at h ⊢
    have hb : b.toNat < 0x80 := h b (by simp)
    rw [List.append_assoc, List.singleton_append, decode_append_cons c first hb,
      decode_append_cons c first hb, decode_nil, List.append_assoc, List.singleton_append]

theorem unbroken_decode (c : Charset) {bytes : Bytes} (h : Unbroken 0x0D 0x0A bytes) :
    Unbroken '\r' '\n' (c.decode bytes) := by
  have hbyte : ∀ latin, Unbroken '\r' '\n' (bytes.map (ofByte latin)) := by
    intro latin x hx
    obtain ⟨b, hb, rfl⟩ := List.mem_map.mp hx
    have hne : b.toNat ≠ 0x0D ∧ b.toNat ≠ 0x0A :=
      ⟨fun heq => (h b hb).1 (UInt8.toNat_inj.mp heq),
        fun heq => (h b hb).2 (UInt8.toNat_inj.mp heq)⟩
    unfold ofByte
    split
    · by_cases hascii : b.toNat < 0x80
      · exact ⟨Utf8.ofNat_ne_of_lt hascii hne.1, Utf8.ofNat_ne_of_lt hascii hne.2⟩
      · exact ⟨Utf8.ofNat_ne_of_le (by omega) (by decide) (by decide),
          Utf8.ofNat_ne_of_le (by omega) (by decide) (by decide)⟩
    · decide
  cases c with
  | utf8 => exact Utf8.unbroken_decodeFrom noneOpen h
  | latin1 => exact hbyte true
  | ascii => exact hbyte false

/-- Text in ASCII reads as itself in every charset, whatever follows. -/
theorem decode_encode_append (c : Charset) {t : Text} (ht : t.Ascii) (after : Bytes) :
    c.decode (Utf8.encode t ++ after) = t ++ c.decode after := by
  induction t with
  | nil => rfl
  | cons d t ih =>
      obtain ⟨hd, ht⟩ := List.forall_mem_cons.mp ht
      have hbyte : (UInt8.ofNat d.toNat).toNat = d.toNat := Utf8.toNat_ofNat (by omega)
      rw [Utf8.encode_cons, Utf8.encodeChar_of_ascii hd, List.append_assoc, List.singleton_append,
        decode_cons c (by omega), ih ht, hbyte, Char.ofNat_toNat, List.cons_append]

theorem decode_encode_of_ascii (c : Charset) {t : Text} (ht : t.Ascii) :
    c.decode (Utf8.encode t) = t := by
  simpa using decode_encode_append c ht []

/-- In every charset a byte from 128 on reads as no character below 128. -/
theorem head?_decode_of_le (c : Charset) {b : UInt8} (hb : 0x80 ≤ b.toNat) (after : Bytes) :
    ∀ x ∈ (c.decode (b :: after)).head?, 0x80 ≤ x.toNat := by
  cases c with
  | utf8 => exact Utf8.head?_decode hb after
  | latin1 =>
      have hlt := b.toNat_lt
      rintro x ⟨⟩
      rwa [ofByte, Bool.true_or, if_pos rfl, Utf8.toNat_char_of_lt (by omega)]
  | ascii =>
      have hno : (false || decide (b.toNat < 0x80)) = false := by simpa using hb
      have hreplacement : 0x80 ≤ Utf8.replacement.toNat := by decide
      rintro x ⟨⟩
      rwa [ofByte, hno, if_neg Bool.false_ne_true]

/-- Text in ASCII is read of no other bytes than its own. -/
theorem encode_prefix_of_decode {t : Text} (ht : t.Ascii) {raw : Bytes}
    (h : t <+: c.decode raw) : Utf8.encode t <+: raw := by
  induction t generalizing raw with
  | nil => exact List.nil_prefix
  | cons d t ih =>
      obtain ⟨hd, ht⟩ := List.forall_mem_cons.mp ht
      cases raw with
      | nil => simp at h
      | cons b raw =>
          by_cases hb : b.toNat < 0x80
          · rw [decode_cons c hb, List.cons_prefix_cons] at h
            obtain ⟨hfirst, hrest⟩ := h
            have hnumber : d.toNat = b.toNat := by
              rw [hfirst, Utf8.toNat_char_of_lt (by omega)]
            rw [Utf8.encode_cons, Utf8.encodeChar_of_ascii hd, hnumber, List.singleton_append,
              List.cons_prefix_cons]
            exact ⟨UInt8.ofNat_toNat, ih ht hrest⟩
          · -- the first character that is read would not be in ASCII
            have hhead : (c.decode (b :: raw)).head? = some d := by
              obtain ⟨rest, hrest⟩ := h
              simp [← hrest]
            have hle := head?_decode_of_le c (Nat.le_of_not_lt hb) raw d hhead
            omega

theorem prefix_of_encode_prefix {t u : Text} (ht : t.Ascii)
    (h : Utf8.encode t <+: Utf8.encode u) : t <+: u := by
  obtain ⟨rest, hrest⟩ := h
  have hdecoded := decode_encode_append .utf8 ht rest
  rw [hrest, decode, Utf8.decode_encode] at hdecoded
  exact ⟨_, hdecoded.symm⟩

theorem decode_cr_lf (c : Charset) (before : Bytes) :
    c.decode (before ++ [0x0D, 0x0A]) = c.decode before ++ ['\r', '\n'] := by
  have hlast : c.decode [0x0D, 0x0A] = ['\r', '\n'] := by cases c <;> decide
  rw [decode_append_cons c before (by decide)]
  have hrest : c.decode [0x0A] = ['\n'] := by cases c <;> decide
  rw [hrest]
  rfl

/-- The ending of a line stays as it is. -/
theorem decode_ending (c : Charset) (body : Bytes) {ending : Bytes}
    (hending : ending = [0x0D, 0x0A] ∨ ending = [0x0A] ∨ ending = [0x0D]) :
    c.decode (body ++ ending) = c.decode body ++ ending.map fun b => Char.ofNat b.toNat := by
  rcases hending with rfl | rfl | rfl
  · exact decode_cr_lf c body
  · rw [decode_append_cons c body (by decide), decode_nil]
    rfl
  · rw [decode_append_cons c body (by decide), decode_nil]
    rfl

theorem ended_decode (c : Charset) {l : Bytes} (h : Ended 0x0D 0x0A l) :
    Ended '\r' '\n' (c.decode l) := by
  obtain ⟨body, ending, rfl, hbody, hending⟩ := h
  refine ⟨c.decode body, _, decode_ending c body hending, unbroken_decode c hbody, ?_⟩
  rcases hending with rfl | rfl | rfl
  · exact Or.inl (by decide)
  · exact Or.inr (Or.inl (by decide))
  · exact Or.inr (Or.inr (by decide))

theorem open_decode (c : Charset) {l : Bytes} (h : Open 0x0D 0x0A l) :
    Open '\r' '\n' (c.decode l) :=
  ⟨fun hnil => h.1 (decode_eq_nil_iff.mp hnil), unbroken_decode c h.2⟩

theorem getLast?_of_ended {l : Bytes} (h : Ended 0x0D 0x0A l) :
    ∀ b ∈ l.getLast?, b.toNat < 0x80 := by
  obtain ⟨body, ending, rfl, -, rfl | rfl | rfl⟩ := h <;> simp

theorem getLast?_of_decode {c : Charset} {l : Bytes} (hl : Ended 0x0D 0x0A l)
    (h : (c.decode l).getLast? = some '\r') : l.getLast? = some 0x0D := by
  obtain ⟨body, ending, rfl, -, hending⟩ := hl
  rw [decode_ending c body hending] at h
  rcases hending with rfl | rfl | rfl
  · simp at h
  · simp at h
  · simp

/-- Decoded bytes start with a line ending only if the bytes do. -/
theorem head?_of_decode {c : Charset} {l : Bytes} {x : Char} (hx : x = '\r' ∨ x = '\n')
    (h : (c.decode l).head? = some x) : l.head? = some (UInt8.ofNat x.toNat) := by
  have hbody : ∀ body : Bytes, Unbroken 0x0D 0x0A body → body ≠ [] → ∀ u,
      (c.decode body ++ u).head? ≠ some x := by
    intro body hbody hne u hhead
    have hdecoded : c.decode body ≠ [] := fun hnil => hne (decode_eq_nil_iff.mp hnil)
    rw [List.head?_append_of_ne_nil _ hdecoded] at hhead
    have hunbroken := unbroken_decode c hbody x (List.mem_of_head? hhead)
    exact hx.elim hunbroken.1 hunbroken.2
  rcases Lines.unbroken_or_exists 0x0D 0x0A l with hunbroken | ⟨body, b, rest, rfl, hunbroken, hb⟩
  · by_cases hnil : l = []
    · simp [hnil] at h
    · exact absurd (by simpa using h) (hbody l hunbroken hnil [])
  · have hascii : b.toNat < 0x80 := by rcases hb with rfl | rfl <;> decide
    rw [decode_append_cons c body hascii] at h
    by_cases hnil : body = []
    · subst hnil
      obtain rfl : Char.ofNat b.toNat = x := by simpa using h
      rcases hb with rfl | rfl <;> rfl
    · exact absurd h (hbody body hunbroken hnil _)

/-- Only the bytes of a blank line read as one. -/
theorem eq_lineEnding_of_decode {c : Charset} {raw : Bytes}
    (h : c.decode raw = ['\r', '\n']) : raw = [0x0D, 0x0A] := by
  have hcr := head?_of_decode (c := c) (l := raw) (Or.inl rfl) (by rw [h]; rfl)
  obtain ⟨rest, rfl⟩ := List.head?_eq_some_iff.mp hcr
  have hrest : c.decode rest = ['\n'] :=
    (List.cons.inj ((decode_cons c (by decide) rest).symm.trans h)).2
  have hlf := head?_of_decode (c := c) (l := rest) (Or.inr rfl) (by rw [hrest]; rfl)
  obtain ⟨more, rfl⟩ := List.head?_eq_some_iff.mp hlf
  have hmore : c.decode more = [] :=
    (List.cons.inj ((decode_cons c (by decide) more).symm.trans hrest)).2
  rw [decode_eq_nil_iff.mp hmore]
  rfl

/-- A text is what a raw line reads as in some charset. -/
def Reads (raw : Bytes) (t : Text) : Prop :=
  ∃ c : Charset, c.decode raw = t

/-- Raw lines read as lines, whatever charset each of them is read in. -/
theorem decomposes_of_reads {raws : List Bytes} {texts : List Text}
    (hraws : Decomposes 0x0D 0x0A raws.flatten raws) (h : List.Forall₂ Reads raws texts) :
    Decomposes '\r' '\n' texts.flatten texts := by
  induction h with
  | nil => exact .nil
  | @cons raw t raws texts hread hreads ih =>
      obtain ⟨c, rfl⟩ := hread
      cases hreads with
      | nil =>
          rw [List.flatten_singleton]
          refine .singleton ((hraws.last raw (by simp)).imp (ended_decode c) (open_decode c))
      | @cons next t' raws texts hread' hreads =>
          have hended := hraws.ended raw (by simp)
          obtain ⟨hapart, -⟩ := List.isChain_cons_cons.mp hraws.apart
          have hrest := ih hraws.tail
          refine Decomposes.cons (ended_decode c hended) ?_ hrest
          rw [Apart, hrest.head?_eq]
          obtain ⟨c', rfl⟩ := hread'
          exact fun hcut => hapart
            ⟨getLast?_of_decode hended hcut.1, head?_of_decode (Or.inr rfl) hcut.2⟩

/-- Lines that each end read one after the other as what they are together. -/
theorem decode_flatten (c : Charset) {raws : List Bytes} {t : Bytes}
    (h : Decomposes 0x0D 0x0A t raws) : c.decode t = (raws.map c.decode).flatten := by
  induction raws generalizing t with
  | nil =>
      rw [← h.flatten_eq]
      exact decode_nil c
  | cons raw raws ih =>
      rw [List.map_cons, List.flatten_cons, ← ih h.tail, ← h.flatten_eq, List.flatten_cons]
      cases raws with
      | nil => simp
      | cons next raws =>
          exact decode_append_of_getLast? c (getLast?_of_ended (h.first (by simp)).1) _

/-- The lines of decoded bytes are the lines of the bytes, decoded. -/
theorem lines_decode (c : Charset) (bytes : Bytes) :
    lines '\r' '\n' (c.decode bytes) = (lines 0x0D 0x0A bytes).map c.decode := by
  have h : Decomposes 0x0D 0x0A bytes (lines 0x0D 0x0A bytes) :=
    Lines.decomposes_lines (by decide) bytes
  have hreads : List.Forall₂ Reads (lines 0x0D 0x0A bytes)
      ((lines 0x0D 0x0A bytes).map c.decode) :=
    List.forall₂_map_right_iff.mpr (List.forall₂_same.mpr fun raw _ => ⟨c, rfl⟩)
  have hraws : Decomposes 0x0D 0x0A (lines 0x0D 0x0A bytes).flatten (lines 0x0D 0x0A bytes) := by
    rwa [h.flatten_eq]
  rw [decode_flatten c h]
  exact ((decomposes_of_reads hraws hreads).eq_lines (by decide)).symm

end Charset

end QueryBatch
