/-
JSON.  Tokens are read from the text and assembled on a stack of open arrays and
objects.  A string may hold escapes that name no character; such a string is a
JSON string all the same, but it has no content.
-/
import QueryBatch.Text.FormEncoding

namespace QueryBatch

/-- A JSON value; a number keeps its spelling. -/
inductive Json where
  | null
  | bool (value : Bool)
  | number (spelling : Text)
  /-- A string, without content if its escapes name no character. -/
  | string (content? : Option Text)
  | array (items : List Json)
  | object (members : List (Option Text × Json))
deriving Repr

namespace Json

/-- Part of a string: a character, or the 16-bit unit that an escape names. -/
inductive Piece where
  | char (c : Char)
  | unit (n : Nat)
deriving DecidableEq, Repr

/-- The character that a one-letter escape names. -/
def simpleEscape? (c : Char) : Option Char :=
  [('"', '"'), ('\\', '\\'), ('/', '/'), ('b', '\x08'), ('f', '\x0c'), ('n', '\n'),
    ('r', '\r'), ('t', '\t')].lookup c

/-- The number that four hexadecimal digits spell. -/
def hexUnit? (digits : List Char) : Option Nat :=
  (digits.mapM FormEncoding.hexDigit?).map fun values =>
    values.foldl (fun n v => 16 * n + v) 0

/-- The pieces of a string whose opening quote is read, and what follows it. -/
def readString : Text → Option (List Piece × Text)
  | [] => none
  | '"' :: r => some ([], r)
  | '\\' :: 'u' :: a :: b :: c :: d :: r =>
      match hexUnit? [a, b, c, d], readString r with
      | some n, some (pieces, rest) => some (.unit n :: pieces, rest)
      | _, _ => none
  | '\\' :: e :: r =>
      match simpleEscape? e, readString r with
      | some c, some (pieces, rest) => some (.char c :: pieces, rest)
      | _, _ => none
  | c :: r =>
      if c.toNat < 0x20 ∨ c = '\\' then none
      else (readString r).map fun (pieces, rest) => (.char c :: pieces, rest)

theorem length_of_readString {t rest : Text} {pieces : List Piece}
    (h : readString t = some (pieces, rest)) : rest.length < t.length := by
  fun_induction readString t generalizing pieces with
  | case1 => simp at h
  | case2 r => simp_all
  | case3 a b c d r n ps rest' hread hunit ih =>
      simp only [Option.some.injEq, Prod.mk.injEq] at h
      rw [h.2] at hread
      have := ih hread
      simp only [List.length_cons]
      omega
  | case4 => simp at h
  | case5 e r _ c ps rest' hread hescape ih =>
      simp only [Option.some.injEq, Prod.mk.injEq] at h
      rw [h.2] at hread
      have := ih hread
      simp only [List.length_cons]
      omega
  | case6 => simp at h
  | case7 => simp at h
  | case8 c r _ _ _ _ ih =>
      obtain ⟨⟨ps, rest'⟩, hread, heq⟩ := Option.map_eq_some_iff.mp h
      simp only [Prod.mk.injEq] at heq
      have := ih (heq.2 ▸ hread)
      simp only [List.length_cons]
      omega

/-- The content of a string: two units that form a pair name one character, and a
unit without its partner names none. -/
def content? : List Piece → Option Text
  | [] => some []
  | .char c :: r => (content? r).map (c :: ·)
  | .unit high :: .unit low :: r =>
      if 0xD800 ≤ high ∧ high ≤ 0xDBFF then
        if 0xDC00 ≤ low ∧ low ≤ 0xDFFF then
          (content? r).map
            (Char.ofNat (0x10000 + (high - 0xD800) * 0x400 + (low - 0xDC00)) :: ·)
        else none
      else if 0xDC00 ≤ high ∧ high ≤ 0xDFFF then none
      else (content? (.unit low :: r)).map (Char.ofNat high :: ·)
  | .unit n :: r =>
      if 0xD800 ≤ n ∧ n ≤ 0xDFFF then none else (content? r).map (Char.ofNat n :: ·)

/-- A word of JSON's vocabulary. -/
inductive Token where
  | openBracket
  | closeBracket
  | openBrace
  | closeBrace
  | comma
  | colon
  | scalar (value : Json)
deriving Repr

/-- Whether a character may stand in a number. -/
def isNumeral (c : Char) : Bool :=
  c.isDigit || "+-.eE".toList.contains c

/-- A nonempty run of digits at the start of a text is dropped. -/
def dropDigits? (t : Text) : Option Text :=
  if (t.takeWhile Char.isDigit).isEmpty then none else some (t.dropWhile Char.isDigit)

/-- Whether a text spells a number: digits without a leading zero, then possibly a
fraction, then possibly an exponent. -/
def isNumber (spelling : Text) : Bool :=
  let digits := if spelling.head? = some '-' then spelling.tail else spelling
  let rest? := if digits.head? = some '0' then some digits.tail else dropDigits? digits
  let afterFraction? := rest?.bind fun rest =>
    if rest.head? = some '.' then dropDigits? rest.tail else some rest
  let afterExponent? := afterFraction?.bind fun rest =>
    match rest with
    | e :: r =>
        if e = 'e' ∨ e = 'E' then
          dropDigits? (if r.head? = some '+' ∨ r.head? = some '-' then r.tail else r)
        else some rest
    | [] => some []
  afterExponent? == some []

/-- The mark that a character is by itself. -/
def mark? (c : Char) : Option Token :=
  if c = '[' then some .openBracket
  else if c = ']' then some .closeBracket
  else if c = '\x7b' then some .openBrace
  else if c = '\x7d' then some .closeBrace
  else if c = ',' then some .comma
  else if c = ':' then some .colon
  else none

/-- The literal at the start of a text, and what follows it. -/
def literal? (t : Text) : Option (Json × Text) :=
  [("true".toList, Json.bool true), ("false".toList, Json.bool false),
      ("null".toList, null)].findSome? fun (spelling, value) =>
    (Text.dropStart? spelling t).map fun rest => (value, rest)

/-- The token that a text which is not blank starts with, and what follows it. -/
def readToken (c : Char) (r : Text) : Option (Token × Text) :=
  match mark? c with
  | some mark => some (mark, r)
  | none =>
      if c = '"' then
        (readString r).map fun (pieces, rest) => (.scalar (.string (content? pieces)), rest)
      else if isNumeral c then
        let spelling := c :: r.takeWhile isNumeral
        if isNumber spelling then some (.scalar (.number spelling), r.dropWhile isNumeral) else none
      else (literal? (c :: r)).map fun (value, rest) => (.scalar value, rest)

theorem length_of_literal? {t rest : Text} {value : Json} (h : literal? t = some (value, rest)) :
    rest.length < t.length := by
  obtain ⟨⟨spelling, meaning⟩, hmem, hdrop⟩ := List.exists_of_findSome?_eq_some h
  obtain ⟨rest', hrest, heq⟩ := Option.map_eq_some_iff.mp hdrop
  simp only [Prod.mk.injEq] at heq
  rw [Text.dropStart?_eq_some_iff.mp hrest, ← heq.2, List.length_append]
  have hpos : 0 < spelling.length := by
    simp only [List.mem_cons, Prod.mk.injEq, List.not_mem_nil, or_false] at hmem
    rcases hmem with ⟨rfl, _⟩ | ⟨rfl, _⟩ | ⟨rfl, _⟩ <;> decide
  omega

theorem length_of_readToken {c : Char} {r rest : Text} {token : Token}
    (h : readToken c r = some (token, rest)) : rest.length < r.length + 1 := by
  unfold readToken at h
  split at h
  · simp_all
  · split at h
    · obtain ⟨⟨pieces, rest'⟩, hread, heq⟩ := Option.map_eq_some_iff.mp h
      simp only [Prod.mk.injEq] at heq
      have := length_of_readString (heq.2 ▸ hread)
      omega
    · split at h
      · simp only at h
        split at h
        · simp only [Option.some.injEq, Prod.mk.injEq] at h
          have := (List.dropWhile_suffix (l := r) isNumeral).length_le
          rw [h.2] at this
          omega
        · simp at h
      · obtain ⟨⟨value, rest'⟩, hread, heq⟩ := Option.map_eq_some_iff.mp h
        simp only [Prod.mk.injEq] at heq
        have := length_of_literal? (heq.2 ▸ hread)
        simpa using this

/-- The blanks of JSON. -/
def isSpace (c : Char) : Bool :=
  " \t\r\n".toList.contains c

set_option linter.unusedVariables false in
/-- The tokens of a text. -/
def tokens (t : Text) : Option (List Token) :=
  match ht : t with
  | [] => some []
  | c :: r =>
      if isSpace c then tokens r
      else
        match htoken : readToken c r with
        | none => none
        | some (token, rest) => (tokens rest).map (token :: ·)
termination_by t.length
decreasing_by
  · simp
  · have := length_of_readToken htoken
    simp only [List.length_cons]
    omega

/-- A container that is not closed yet, its latest element first. -/
inductive Frame where
  | array (items : List Json)
  /-- The key is that of the value to come. -/
  | object (members : List (Option Text × Json)) (key : Option Text)
deriving Repr

/-- What may come next. -/
inductive Expect where
  /-- A value, or the end of an array if that may close here. -/
  | value (mayClose : Bool)
  /-- A key, or the end of an object if that may close here. -/
  | key (mayClose : Bool)
  | colon
  /-- A comma, or the end of the container. -/
  | next
  /-- Nothing: the value is complete. -/
  | done (value : Json)
deriving Repr

/-- Puts a complete value where it belongs. -/
def place (value : Json) : List Frame → List Frame × Expect
  | [] => ([], .done value)
  | .array items :: stack => (.array (value :: items) :: stack, .next)
  | .object members key :: stack => (.object ((key, value) :: members) none :: stack, .next)

/-- Takes one token in. -/
def step (stack : List Frame) (expect : Expect) (token : Token) :
    Option (List Frame × Expect) :=
  match expect, token, stack with
  | .value _, .scalar value, stack => some (place value stack)
  | .value _, .openBracket, stack => some (.array [] :: stack, .value true)
  | .value _, .openBrace, stack => some (.object [] none :: stack, .key true)
  | .value true, .closeBracket, .array items :: stack => some (place (.array items.reverse) stack)
  | .key _, .scalar (.string content?), .object members _ :: stack =>
      some (.object members content? :: stack, .colon)
  | .key true, .closeBrace, .object members _ :: stack =>
      some (place (.object members.reverse) stack)
  | .colon, .colon, stack => some (stack, .value false)
  | .next, .comma, .array items :: stack => some (.array items :: stack, .value false)
  | .next, .comma, .object members key :: stack =>
      some (.object members key :: stack, .key false)
  | .next, .closeBracket, .array items :: stack => some (place (.array items.reverse) stack)
  | .next, .closeBrace, .object members _ :: stack =>
      some (place (.object members.reverse) stack)
  | _, _, _ => none

/-- Assembles tokens to one value. -/
def assemble (stack : List Frame) (expect : Expect) : List Token → Option Json
  | [] =>
      match expect with
      | .done value => some value
      | _ => none
  | token :: rest =>
      match step stack expect token with
      | some (stack', expect') => assemble stack' expect' rest
      | none => none

/-- Reads a JSON text. -/
def parse? (t : Text) : Option Json :=
  (tokens t).bind (assemble [] (.value false))

end Json

end QueryBatch
