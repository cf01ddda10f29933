/-
Text as a list of characters, and blanks.  A blank is a character with the
Unicode property White_Space; trimming removes blanks from the ends.
-/

namespace QueryBatch

/-- Decoded text, character by character. -/
abbrev Text := List Char

namespace Text

/-- Length of the UTF-8 form, the unit in which positions are reported. -/
def byteLength : Text → Nat
  | [] => 0
  | c :: t => c.utf8Size + byteLength t

@[simp] theorem byteLength_nil : byteLength [] = 0 := rfl

@[simp] theorem byteLength_cons (c : Char) (t : Text) :
    byteLength (c :: t) = c.utf8Size + byteLength t := rfl

@[simp] theorem byteLength_append (s t : Text) :
    byteLength (s ++ t) = byteLength s + byteLength t := by
  induction s with
  | nil => simp
  | cons c s ih => simp [ih, Nat.add_assoc]

/-- Lower case of the ASCII letters; every other character stays. -/
def toLower (t : Text) : Text :=
  t.map Char.toLower

/-- Equality that ignores the case of ASCII letters. -/
def sameIgnoringCase (s t : Text) : Bool :=
  s.toLower == t.toLower

theorem sameIgnoringCase_iff {s t : Text} :
    sameIgnoringCase s t = true ↔ toLower s = toLower t := by
  simp [sameIgnoringCase]

/-- Whether a text is not after another one in ascending order: the first code points
that differ decide, and the start of a text is not after the text. -/
def notAfter : Text → Text → Bool
  | [], _ => true
  | _ :: _, [] => false
  | c :: s, d :: t => c.toNat < d.toNat || (c == d && notAfter s t)

/-- The decimal digits of a number. -/
def ofNat (n : Nat) : Text :=
  Nat.toDigits 10 n

/-- White_Space: the 25 code points that count as blank. -/
def isBlank (c : Char) : Bool :=
  let n := c.toNat
  (9 ≤ n && n ≤ 13) || n == 0x20 || n == 0x85 || n == 0xA0 || n == 0x1680 ||
    (0x2000 ≤ n && n ≤ 0x200A) || n == 0x2028 || n == 0x2029 || n == 0x202F ||
    n == 0x205F || n == 0x3000

/-- Drops the longest run at the end whose characters all satisfy `p`. -/
def dropEndWhile (p : Char → Bool) (t : Text) : Text :=
  (t.reverse.dropWhile p).reverse

/-- Drops the characters that satisfy `p` from both ends. -/
def trimWhile (p : Char → Bool) (t : Text) : Text :=
  dropEndWhile p (t.dropWhile p)

/-- Drops the blanks at the end. -/
def trimEnd (t : Text) : Text :=
  t.dropEndWhile isBlank

/-- Drops the blanks at both ends. -/
def trim (t : Text) : Text :=
  t.trimWhile isBlank

/-- Whether the text holds blanks only. -/
def allBlank (t : Text) : Bool :=
  t.all isBlank

/-- The text without its last character, if that is `c`. -/
def dropLast? (c : Char) (t : Text) : Option Text :=
  if t.getLast? = some c then some t.dropLast else none

theorem dropLast?_eq_some_iff {c : Char} {t s : Text} :
    dropLast? c t = some s ↔ t = s ++ [c] := by
  unfold dropLast?
  constructor
  · intro h
    split at h
    · rename_i hlast
      cases h
      obtain ⟨u, rfl⟩ := List.getLast?_eq_some_iff.mp hlast
      simp
    · simp at h
  · rintro rfl
    simp

/-- What follows `start`, if the text begins with it. -/
def dropStart? : Text → Text → Option Text
  | [], t => some t
  | _ :: _, [] => none
  | c :: start, d :: t => if c = d then dropStart? start t else none

theorem dropStart?_eq_some_iff {start t rest : Text} :
    dropStart? start t = some rest ↔ t = start ++ rest := by
  induction start generalizing t with
  | nil => simp [dropStart?]
  | cons c start ih =>
      cases t with
      | nil => simp [dropStart?]
      | cons d t =>
          by_cases hcd : c = d
          · simp [dropStart?, hcd, ih]
          · simp [dropStart?, hcd, Ne.symm hcd]

/-- The texts before and after the first `c`. -/
def splitAt? (c : Char) : Text → Option (Text × Text)
  | [] => none
  | d :: r =>
      if d = c then some ([], r)
      else (splitAt? c r).map fun cut => (d :: cut.1, cut.2)

theorem splitAt?_eq_some_iff {c : Char} {t a b : Text} :
    splitAt? c t = some (a, b) ↔ t = a ++ c :: b ∧ c ∉ a := by
  induction t generalizing a with
  | nil => simp [splitAt?]
  | cons d r ih =>
      by_cases hd : d = c
      · subst hd
        cases a with
        | nil => simp [splitAt?]
        | cons e a => simp [splitAt?]; grind
      · cases a with
        | nil => simp [splitAt?, hd]
        | cons e a =>
            simp only [splitAt?, hd, ↓reduceIte, Option.map_eq_some_iff]
            constructor
            · rintro ⟨⟨a', b'⟩, hcut, hpair⟩
              simp only [Prod.mk.injEq, List.cons.injEq] at hpair
              obtain ⟨⟨rfl, rfl⟩, rfl⟩ := hpair
              obtain ⟨rfl, hmem⟩ := ih.mp hcut
              simp [hmem]; grind
            · rintro ⟨heq, hmem⟩
              simp only [List.cons_append, List.cons.injEq] at heq
              obtain ⟨rfl, rfl⟩ := heq
              exact ⟨(a, b), ih.mpr ⟨rfl, by simp_all⟩, rfl⟩

/-- The texts before and after a byte offset, unless the offset parts a character or is beyond
the end. -/
def splitAtByte? (n : Nat) : Text → Option (Text × Text)
  | [] => if n = 0 then some ([], []) else none
  | c :: t =>
      if n = 0 then some ([], c :: t)
      else if c.utf8Size ≤ n then
        (splitAtByte? (n - c.utf8Size) t).map fun cut => (c :: cut.1, cut.2)
      else none

theorem splitAtByte?_eq_some_iff {n : Nat} {t s u : Text} :
    splitAtByte? n t = some (s, u) ↔ t = s ++ u ∧ byteLength s = n := by
  induction t generalizing n s with
  | nil =>
      by_cases hn : n = 0
      · cases s with
        | nil => simp [splitAtByte?, hn, eq_comm]
        | cons c s => simp [splitAtByte?, hn]
      · cases s with
        | nil => simp [splitAtByte?, hn, Ne.symm hn]
        | cons c s => simp [splitAtByte?, hn]
  | cons c t ih =>
      have hpos := c.utf8Size_pos
      cases s with
      | nil =>
          by_cases hn : n = 0
          · simp [splitAtByte?, hn, eq_comm]
          · simp [splitAtByte?, hn, Ne.symm hn]
      | cons d s =>
          rw [splitAtByte?, List.cons_append, List.cons.injEq, byteLength_cons]
          by_cases hfits : c.utf8Size ≤ n
          · rw [if_neg (by omega), if_pos hfits, Option.map_eq_some_iff]
            constructor
            · rintro ⟨⟨s', u'⟩, hcut, hpair⟩
              simp only [Prod.mk.injEq, List.cons.injEq] at hpair
              obtain ⟨⟨rfl, rfl⟩, rfl⟩ := hpair
              obtain ⟨hjoined, hlength⟩ := ih.mp hcut
              exact ⟨⟨rfl, hjoined⟩, by omega⟩
            · rintro ⟨⟨rfl, hjoined⟩, hlength⟩
              exact ⟨(s, u), ih.mpr ⟨hjoined, by omega⟩, rfl⟩
          · rw [if_neg hfits]
            constructor
            · intro hcut
              split at hcut
              · simp at hcut
              · cases hcut
            · rintro ⟨⟨rfl, -⟩, hlength⟩
              omega

/-- The pieces between the occurrences of `c`, in order; never empty. -/
def splitOn (c : Char) : Text → List Text
  | [] => [[]]
  | d :: r =>
      if d = c then [] :: splitOn c r
      else
        match splitOn c r with
        | [] => [[d]]
        | piece :: pieces => (d :: piece) :: pieces

end Text

end QueryBatch
