/-
Media types: `type/subtype` with parameters.  A type is read byte for byte, so a
fault is reported with the byte at which it shows and that byte's position.
-/
import QueryBatch.Text.Utf8

namespace QueryBatch

/-- A media type with the parameters as written: names and the value of `charset`
in lower case, the first parameter of a name being the one that counts. -/
structure MediaType where
  kind : Text
  subtype : Text
  /-- The whole `type/subtype`, with the suffix that follows a `+`. -/
  essence : Text
  parameters : List (Text × Text)
deriving DecidableEq, Repr

namespace MediaType

/-- Why a text is no media type. -/
inductive Fault where
  | missingSlash
  | missingEqual
  | missingQuote
  | invalidToken (byte : Nat) (position : Nat)
deriving DecidableEq, Repr

/-- A hexadecimal numeral in upper case, without padding. -/
def hexUpper (n : Nat) : Text :=
  (Nat.toDigits 16 n).map Char.toUpper

/-- The wording of a fault. -/
def Fault.message : Fault → Text
  | .missingSlash =>
      "mime parse error: a slash (/) was missing between the type and subtype".toList
  | .missingEqual =>
      "mime parse error: an equals sign (=) was missing between a parameter and its value".toList
  | .missingQuote => "mime parse error: a quote (\") was missing from a parameter value".toList
  | .invalidToken byte position =>
      "mime parse error: an invalid token was encountered, ".toList ++ hexUpper byte ++
        " at position ".toList ++ Text.ofNat position

/-- The fault of meeting `c` where it may not stand. -/
def Fault.unexpected (c : Char) (position : Nat) : Fault :=
  .invalidToken ((String.utf8EncodeChar c).headD 0).toNat position

/-- The punctuation of tokens. -/
def tokenMarks : Text :=
  "!#$%&'*+-.^_\x60|~".toList

/-- Whether a character may stand in a token. -/
def isToken (c : Char) : Bool :=
  c.isAlphanum || tokenMarks.contains c

/-- Whether a character may stand between quotes. -/
def isQuotable (c : Char) : Bool :=
  31 < c.toNat && c.toNat != 127

/-- A parameter with what surrounds it in the text. -/
structure Parameter where
  name : Text
  value : Text
  /-- The spaces between the `;` and the name. -/
  gap : Nat
  /-- All that follows the `=`. -/
  written : Text
deriving DecidableEq, Repr

/-- The text up to the next quote, and what follows that quote. -/
def readToQuote (position : Nat) : Text → Except Fault (Text × Text)
  | [] => .error .missingQuote
  | c :: r =>
      if c = '"' then .ok ([], r)
      else if isQuotable c then
        (readToQuote (position + c.utf8Size) r).map fun cut => (c :: cut.1, cut.2)
      else .error (.unexpected c position)

theorem length_of_readToQuote {position : Nat} {t value rest : Text}
    (h : readToQuote position t = .ok (value, rest)) : rest.length < t.length := by
  induction t generalizing position value with
  | nil => simp [readToQuote] at h
  | cons c r ih =>
      unfold readToQuote at h
      split at h
      · simp only [Except.ok.injEq, Prod.mk.injEq] at h
        simp [h.2]
      · split at h
        · cases hr : readToQuote (position + c.utf8Size) r with
          | error f => simp [hr, Except.map] at h
          | ok cut =>
              obtain ⟨value', rest'⟩ := cut
              simp only [hr, Except.map, Except.ok.injEq, Prod.mk.injEq] at h
              have := ih (h.2 ▸ hr)
              simp only [List.length_cons]
              omega
        · simp at h

/-- The text between an opening quote, already read, and the one that closes it.
The character right after the opening quote never closes. -/
def readQuoted (position : Nat) : Text → Except Fault (Text × Text)
  | [] => .error .missingQuote
  | c :: r =>
      if isQuotable c then
        (readToQuote (position + c.utf8Size) r).map fun cut => (c :: cut.1, cut.2)
      else .error (.unexpected c position)

theorem length_of_readQuoted {position : Nat} {t value rest : Text}
    (h : readQuoted position t = .ok (value, rest)) : rest.length < t.length := by
  cases t with
  | nil => simp [readQuoted] at h
  | cons c r =>
      simp only [readQuoted] at h
      split at h
      · cases hr : readToQuote (position + c.utf8Size) r with
        | error f => simp [hr, Except.map] at h
        | ok cut =>
            obtain ⟨value', rest'⟩ := cut
            simp only [hr, Except.map, Except.ok.injEq, Prod.mk.injEq] at h
            have := length_of_readToQuote (h.2 ▸ hr)
            simp only [List.length_cons]
            omega
      · simp at h

/-- A parameter's value, and what follows the `;` that ends it; `none` stands for
the end of the text. -/
def readValue (position : Nat) (t : Text) : Except Fault (Text × Option Text) :=
  if t.head? = some '"' then
    match readQuoted (position + 1) t.tail with
    | .error fault => .error fault
    | .ok (value, rest) =>
        let after := rest.dropWhile (· == ' ')
        match after with
        | [] => .ok (value, none)
        | c :: next =>
            if c = ';' then .ok (value, some next)
            else .error (.unexpected c (position + Text.byteLength t - Text.byteLength after))
  else
    let value := t.takeWhile isToken
    match t.dropWhile isToken with
    | [] => .ok (value, none)
    | c :: next =>
        if c = ';' ∧ value ≠ [] then .ok (value, some next)
        else .error (.unexpected c (position + Text.byteLength value))

theorem length_of_readValue {position : Nat} {t value next : Text}
    (h : readValue position t = .ok (value, some next)) : next.length < t.length := by
  unfold readValue at h
  split at h
  · split at h
    · simp at h
    · rename_i value' rest hquoted
      have hrest := length_of_readQuoted hquoted
      have hafter := (List.dropWhile_suffix (l := rest) (· == ' ')).length_le
      simp only at h
      split at h
      · simp at h
      · rename_i c next' hdrop
        split at h
        · simp only [Except.ok.injEq, Prod.mk.injEq, Option.some.injEq] at h
          rw [hdrop, List.length_cons, h.2] at hafter
          rw [List.length_tail] at hrest
          omega
        · simp at h
  · simp only at h
    split at h
    · simp at h
    · rename_i c next' hdrop
      split at h
      · simp only [Except.ok.injEq, Prod.mk.injEq, Option.some.injEq] at h
        have hlen := (List.dropWhile_suffix (l := t) isToken).length_le
        rw [hdrop, List.length_cons, h.2] at hlen
        omega
      · simp at h

set_option linter.unusedVariables false in
/-- The parameters in the text that follows a `;` at the given position. -/
def readParameters (position : Nat) (t : Text) : Except Fault (List Parameter) :=
  let named := t.dropWhile (· == ' ')
  let name := named.takeWhile isToken
  let gap := t.length - named.length
  match hname : named.dropWhile isToken with
  | [] => if name = [] then .ok [] else .error .missingEqual
  | c :: written =>
      let start := position + gap + Text.byteLength name
      if c = '=' ∧ name ≠ [] then
        match hvalue : readValue (start + 1) written with
        | .error fault => .error fault
        | .ok (value, none) => .ok [⟨Text.toLower name, value, gap, written⟩]
        | .ok (value, some next) =>
            (readParameters (position + Text.byteLength t - Text.byteLength next) next).map
              fun others => ⟨Text.toLower name, value, gap, written⟩ :: others
      else .error (.unexpected c start)
termination_by t.length
decreasing_by
  have hnext := length_of_readValue hvalue
  have hnamed := (List.dropWhile_suffix (l := t) (· == ' ')).length_le
  have hwritten := (List.dropWhile_suffix (l := t.dropWhile (· == ' ')) isToken).length_le
  rw [hname, List.length_cons] at hwritten
  omega

/-- A first `charset=utf-8` one space after its `;` is noted without its place; when
another parameter follows, its value is read again as the five characters after
the `=`, so a quoted value begins with its quote and loses its last character. -/
def rereadCharset : List Parameter → List Parameter
  | first :: second :: others =>
      if first.name = "charset".toList ∧ first.value.toLower = "utf-8".toList ∧ first.gap = 1 then
        { first with value := first.written.take 5 } :: second :: others
      else first :: second :: others
  | parameters => parameters

/-- A parameter's name and value; the value of `charset` is in lower case. -/
def Parameter.entry (p : Parameter) : Text × Text :=
  (p.name, if p.name = "charset".toList then p.value.toLower else p.value)

/-- The subtype without the suffix that follows its last `+`; a `+` at the very
start belongs to the name. -/
def subtypeName : Text → Text
  | [] => []
  | c :: r =>
      c :: if r.contains '+' then (Text.dropEndWhile (· != '+') r).dropLast else r

/-- Reads a media type. -/
def parse (t : Text) : Except Fault MediaType :=
  if t = "*/*".toList then .ok ⟨['*'], ['*'], t, []⟩
  else
    let kind := t.takeWhile isToken
    match t.dropWhile isToken with
    | [] => .error .missingSlash
    | c :: r =>
        if c = '/' ∧ kind ≠ [] then
          let subtype := r.takeWhile isToken
          let media (parameters : List Parameter) : MediaType :=
            ⟨Text.toLower kind, Text.toLower (subtypeName subtype),
              Text.toLower (kind ++ '/' :: subtype),
              (rereadCharset parameters).map Parameter.entry⟩
          let position := Text.byteLength kind + 1 + Text.byteLength subtype
          match r.dropWhile isToken with
          | [] => .ok (media [])
          | d :: next =>
              if d = ';' ∧ subtype ≠ [] then
                (readParameters (position + 1) next).map media
              else .error (.unexpected d position)
        else .error (.unexpected c (Text.byteLength kind))

/-- The value of the first parameter of the given name. -/
def parameter? (m : MediaType) (name : String) : Option Text :=
  m.parameters.lookup name.toList

end MediaType

end QueryBatch
