/-
Announcements read back.  What announces a payload names its boundary as a token and no
charset, so it reads as the same payload if the boundary is a token and the charset is the
one that is meant when none is named.
-/
import QueryBatch.Payload.Multipart
import QueryBatch.Proofs.Failure
import QueryBatch.Proofs.Text.Cutting
import QueryBatch.Proofs.Text.Decoding

namespace QueryBatch

namespace MediaType

theorem plain_of_isToken {c : Char} (hc : isToken c = true) :
    Text.isBlank c = false ∧ c ≠ ':' := by
  have hascii : c.toNat < 0x80 := by
    rw [isToken, Bool.or_eq_true] at hc
    rcases hc with halphanum | hmark
    · delta Char.isAlphanum Char.isAlpha Char.isUpper Char.isLower Char.isDigit at halphanum
      simp [UInt32.le_iff_toNat_le] at halphanum
      omega
    · have hall : ∀ c ∈ tokenMarks, c.toNat < 0x80 := List.all_iff_forall_prop.mp (by decide)
      exact hall c (by simpa using hmark)
  revert hc
  apply of_ascii (P := fun c => isToken c = true → Text.isBlank c = false ∧ c ≠ ':')
  · decide +kernel
  · exact hascii

theorem ne_quote_of_isToken {c : Char} (hc : isToken c = true) : c ≠ '"' := by
  rintro rfl
  cases hc

variable {position : Nat} {name written : Text}

/-- A token that nothing follows is a value. -/
theorem readValue_of_token {value : Text} (h : ∀ c ∈ value, isToken c = true) :
    readValue position value = .ok (value, none) := by
  have hquote : value.head? ≠ some '"' :=
    fun hhead => ne_quote_of_isToken (h '"' (List.mem_of_head? hhead)) rfl
  obtain ⟨htake, hdrop⟩ := Text.takeWhile_append_of_head? (u := []) h (by simp)
  rw [List.append_nil] at htake hdrop
  simp only [readValue, if_neg hquote, htake, hdrop]

/-- A value that does not start with a quote is a token. -/
theorem token_of_readValue {value : Text} {next? : Option Text} (hquote : written.head? ≠ some '"')
    (h : readValue position written = .ok (value, next?)) : ∀ c ∈ value, isToken c = true := by
  have hvalue : value = written.takeWhile isToken := by
    simp only [readValue, if_neg hquote] at h
    split at h
    · exact (Prod.mk.inj (Except.ok.inj h)).1.symm
    · split at h
      · exact (Prod.mk.inj (Except.ok.inj h)).1.symm
      · cases h
  rw [hvalue]
  exact List.all_eq_true.mp List.all_takeWhile

/-- A name in front of an equals sign is read as the name of the first parameter. -/
theorem readParameters_append (hne : name ≠ []) (hname : ∀ c ∈ name, isToken c = true) :
    readParameters position (name ++ '=' :: written) =
      match readValue (position + 0 + Text.byteLength name + 1) written with
      | .error fault => .error fault
      | .ok (value, none) => .ok [⟨Text.toLower name, value, 0, written⟩]
      | .ok (value, some next) =>
          (readParameters (position + Text.byteLength (name ++ '=' :: written) -
            Text.byteLength next) next).map
              fun others => ⟨Text.toLower name, value, 0, written⟩ :: others := by
  obtain ⟨c, r, rfl⟩ := List.exists_cons_of_ne_nil hne
  have hspace : c ≠ ' ' := by
    rintro rfl
    cases hname ' ' List.mem_cons_self
  have hnamed : (c :: r ++ '=' :: written).dropWhile (· == ' ') = c :: r ++ '=' :: written := by
    rw [List.cons_append, List.dropWhile_cons_of_neg (by simp [hspace])]
  have hequals : isToken '=' = false := by decide
  obtain ⟨htake, hdrop⟩ := Text.takeWhile_append_cons hname hequals written
  rw [readParameters]
  split
  · rename_i heq
    rw [hnamed, hdrop] at heq
    cases heq
  · rename_i d written' heq
    rw [hnamed, hdrop] at heq
    obtain ⟨rfl, rfl⟩ := List.cons.inj heq
    rw [if_pos ⟨rfl, by rw [hnamed, htake]; exact hne⟩]
    split <;> rename_i hvalue <;> simp only [hnamed, htake, Nat.sub_self] at hvalue ⊢ <;>
      simp only [hvalue]

/-- A type with parameters. -/
theorem parse_append (kind subtype t : Text) (hkind : kind ≠ [])
    (hkindToken : ∀ c ∈ kind, isToken c = true) (hsubtype : subtype ≠ [])
    (hsubtypeToken : ∀ c ∈ subtype, isToken c = true) :
    parse (kind ++ '/' :: subtype ++ ';' :: t) =
      (readParameters (Text.byteLength kind + 1 + Text.byteLength subtype + 1) t).map
        fun parameters => ⟨Text.toLower kind, Text.toLower (subtypeName subtype),
          Text.toLower (kind ++ '/' :: subtype),
          (rereadCharset parameters).map Parameter.entry⟩ := by
  have hany : kind ++ '/' :: subtype ++ ';' :: t ≠ "*/*".toList := by
    intro heq
    have hmem : ';' ∈ "*/*".toList := by simp [← heq]
    exact absurd hmem (by decide)
  have hslash : isToken '/' = false := by decide
  have hsemicolon : isToken ';' = false := by decide
  obtain ⟨htake, hdrop⟩ :=
    Text.takeWhile_append_cons hkindToken hslash (subtype ++ ';' :: t)
  obtain ⟨htake', hdrop'⟩ := Text.takeWhile_append_cons hsubtypeToken hsemicolon t
  rw [parse, if_neg hany, List.append_assoc, List.cons_append]
  simp only [htake, hdrop, htake', hdrop', hkind, hsubtype, ne_eq, not_false_eq_true, and_self,
    if_true]

/-- A first parameter that is no charset is noted as it was read. -/
theorem rereadCharset_cons {first : Parameter} (h : first.name ≠ "charset".toList)
    (others : List Parameter) : rereadCharset (first :: others) = first :: others := by
  cases others with
  | nil => rfl
  | cons second others => rw [rereadCharset, if_neg fun hcharset => h hcharset.1]

theorem token_boundary : ∀ c ∈ "boundary".toList, isToken c = true :=
  List.all_iff_forall_prop.mp (by decide)

/-- An announcement is read from the value of its parameter on. -/
theorem parse_announced (written : Text) :
    parse ("multipart/mixed;boundary=".toList ++ written) =
      (readParameters 16 ("boundary".toList ++ '=' :: written)).map fun parameters =>
        ⟨"multipart".toList, "mixed".toList, "multipart/mixed".toList,
          (rereadCharset parameters).map Parameter.entry⟩ :=
  parse_append "multipart".toList "mixed".toList ("boundary".toList ++ '=' :: written)
    (by decide) (List.all_iff_forall_prop.mp (by decide)) (by decide)
    (List.all_iff_forall_prop.mp (by decide))

theorem parse_announced_of_token {written : Text} (h : ∀ c ∈ written, isToken c = true) :
    parse ("multipart/mixed;boundary=".toList ++ written) =
      .ok ⟨"multipart".toList, "mixed".toList, "multipart/mixed".toList,
        [("boundary".toList, written)]⟩ := by
  rw [parse_announced, readParameters_append (by decide) token_boundary, readValue_of_token h]
  rfl

/-- Only a token is read as a boundary where there is no quote. -/
theorem token_of_parse_announced {media : MediaType} {value : Text}
    (hquote : written.head? ≠ some '"')
    (h : parse ("multipart/mixed;boundary=".toList ++ written) = .ok media)
    (hvalue : media.parameter? "boundary" = some value) : ∀ c ∈ value, isToken c = true := by
  rw [parse_announced, readParameters_append (by decide) token_boundary] at h
  obtain ⟨parameters, hparameters, rfl⟩ := map_eq_ok_iff.mp h
  have hfirst : ∃ first others next?, parameters = first :: others ∧
      first.name = "boundary".toList ∧
        readValue (16 + 0 + Text.byteLength "boundary".toList + 1) written =
          .ok (first.value, next?) := by
    have hlower : Text.toLower "boundary".toList = "boundary".toList := by decide
    split at hparameters
    · cases hparameters
    · obtain rfl := Except.ok.inj hparameters
      exact ⟨_, [], none, rfl, hlower, ‹_›⟩
    · obtain ⟨others, -, rfl⟩ := map_eq_ok_iff.mp hparameters
      exact ⟨_, others, some _, rfl, hlower, ‹_›⟩
  obtain ⟨first, others, next?, rfl, hname, hread⟩ := hfirst
  have hother : first.name ≠ "charset".toList := by rw [hname]; decide
  rw [rereadCharset_cons hother] at hvalue
  have hsame : first.value = value := by
    simpa [parameter?, Parameter.entry, hother, hname] using hvalue
  rw [← hsame]
  exact token_of_readValue hquote hread

end MediaType

namespace Multipart

variable {m : Multipart} {s : Text}

/-- What an announcement tells was read of its parameter. -/
theorem boundary_of_parse (h : parse s = .ok m) :
    ∃ media value, MediaType.parse (Text.trim s) = .ok media ∧
      media.parameter? "boundary" = some value ∧
      m.boundary = Text.trimWhile (· == '"') value ∧ m.boundary ≠ [] := by
  unfold parse at h
  split at h
  · cases h
  · rename_i media hmedia
    split at h
    · cases h
    · split at h
      · cases h
      · cases h
      · rename_i boundary hne hboundary
        obtain ⟨value, hvalue, rfl⟩ := Option.map_eq_some_iff.mp hboundary
        have hm : m.boundary = Text.trimWhile (· == '"') value := by
          split at h
          · obtain rfl := Except.ok.inj h
            rfl
          · obtain ⟨charset, -, rfl⟩ := map_eq_ok_iff.mp h
            rfl
        refine ⟨media, value, hmedia, hvalue, hm, ?_⟩
        rw [hm]
        exact hne

theorem contentType_eq (m : Multipart) :
    m.contentType = "multipart/mixed;boundary=".toList ++ m.boundary :=
  rfl

theorem plain_announced : ∀ c ∈ "multipart/mixed;boundary=".toList, Text.isBlank c = false :=
  List.all_iff_forall_prop.mp (by decide)

/-- A token is announced, and read as the boundary of a payload in UTF-8. -/
theorem parse_contentType_of_token (hne : m.boundary ≠ [])
    (h : ∀ c ∈ m.boundary, MediaType.isToken c = true) :
    parse m.contentType = .ok ⟨m.boundary, .utf8⟩ := by
  have htrim : Text.trim m.contentType = m.contentType := by
    apply Text.trim_eq_self
    rw [contentType_eq, List.forall_mem_append]
    exact ⟨plain_announced, fun c hc => (MediaType.plain_of_isToken (h c hc)).1⟩
  have hquotes : Text.trimWhile (· == '"') m.boundary = m.boundary := by
    have hnone : ∀ c ∈ m.boundary, (c == '"') = false :=
      fun c hc => beq_eq_false_iff_ne.mpr (MediaType.ne_quote_of_isToken (h c hc))
    exact Text.trimWhile_eq_self (fun c hc => hnone c (List.mem_of_head? hc))
      fun c hc => hnone c (List.mem_of_getLast? hc)
  rw [parse, htrim, contentType_eq, MediaType.parse_announced_of_token h]
  obtain ⟨c, rest, hboundary⟩ := List.exists_cons_of_ne_nil hne
  rw [hboundary] at hquotes
  simp [MediaType.parameter?, hboundary, hquotes]

theorem token_of_parse_contentType {boundary : Text} {charset : Charset}
    (hquote : m.boundary.head? ≠ some '"') (h : parse m.contentType = .ok ⟨boundary, charset⟩) :
    ∀ c ∈ boundary, MediaType.isToken c = true := by
  obtain ⟨media, value, hmedia, hvalue, rfl, -⟩ := boundary_of_parse h
  -- Trimming an announcement takes blanks from the end of its boundary only.
  obtain ⟨written, after, heq, htrim⟩ := Text.exists_trim_append
    (t := "multipart/mixed;boundary=".toList) m.boundary (by simp)
    (fun c hc => plain_announced c (List.mem_of_head? hc))
    (fun c hc => plain_announced c (List.mem_of_getLast? hc))
  rw [contentType_eq, htrim] at hmedia
  have hstart : written.head? ≠ some '"' := by
    intro hhead
    apply hquote
    rw [heq, List.head?_append, hhead, Option.some_or]
  have htoken := MediaType.token_of_parse_announced hstart hmedia hvalue
  exact fun c hc => htoken c (Text.mem_of_mem_trimWhile hc)

/-- What announces a payload reads with the same boundary if and only if the boundary is a
token, and as the same payload if and only if, besides, the charset is UTF-8. -/
theorem parse_contentType_iff (h : parse s = .ok m) :
    ((∃ charset, parse m.contentType = .ok ⟨m.boundary, charset⟩) ↔
      ∀ c ∈ m.boundary, MediaType.isToken c = true) ∧
    (parse m.contentType = .ok m ↔
      (∀ c ∈ m.boundary, MediaType.isToken c = true) ∧ m.charset = .utf8) := by
  obtain ⟨media, value, -, -, hboundary, hne⟩ := boundary_of_parse h
  have hquote : m.boundary.head? ≠ some '"' := by
    intro hhead
    rw [hboundary] at hhead
    have hnot := Text.not_of_mem_head?_trimWhile hhead
    exact absurd hnot (by decide)
  constructor
  · constructor
    · exact fun ⟨_, hparse⟩ => token_of_parse_contentType hquote hparse
    · exact fun htoken => ⟨.utf8, parse_contentType_of_token hne htoken⟩
  · constructor
    · intro hparse
      have htoken := token_of_parse_contentType hquote hparse
      rw [parse_contentType_of_token hne htoken] at hparse
      exact ⟨htoken, (congrArg charset (Except.ok.inj hparse)).symm⟩
    · rintro ⟨htoken, hcharset⟩
      rw [parse_contentType_of_token hne htoken, ← hcharset]

/-- An announcement between quotes, with a charset under another of its names. -/
def quoted : Text :=
  " multipart/mixed; boundary=\"b.1\"; charset=utf8".toList

/-- The announcement of the payload reads as the payload. -/
theorem parse_contentType_quoted :
    parse quoted = .ok ⟨"b.1".toList, .utf8⟩ ∧
      (∃ charset, parse (contentType ⟨"b.1".toList, .utf8⟩) = .ok ⟨"b.1".toList, charset⟩) ∧
      parse (contentType ⟨"b.1".toList, .utf8⟩) = .ok ⟨"b.1".toList, .utf8⟩ := by
  have hparse : parse quoted = .ok ⟨"b.1".toList, .utf8⟩ := by decide +kernel
  have htoken : ∀ c ∈ "b.1".toList, MediaType.isToken c = true :=
    List.all_iff_forall_prop.mp (by decide)
  obtain ⟨hboundary, hsame⟩ := parse_contentType_iff hparse
  exact ⟨hparse, hboundary.mpr htoken, hsame.mpr ⟨htoken, rfl⟩⟩

/-- A charset is not announced, and a boundary that is no token is announced as what cannot be
read, or as another boundary with a charset. -/
theorem parse_contentType_ne :
    (parse "multipart/mixed; boundary=b; charset=ISO-8859-1".toList = .ok ⟨"b".toList, .latin1⟩ ∧
      parse (contentType ⟨"b".toList, .latin1⟩) = .ok ⟨"b".toList, .utf8⟩) ∧
    (parse "multipart/mixed; boundary=\"a b\"".toList = .ok ⟨"a b".toList, .utf8⟩ ∧
      ∃ e, parse (contentType ⟨"a b".toList, .utf8⟩) = .error e) ∧
    parse "multipart/mixed; boundary=\"a;charset=l1\"".toList =
        .ok ⟨"a;charset=l1".toList, .utf8⟩ ∧
      parse (contentType ⟨"a;charset=l1".toList, .utf8⟩) = .ok ⟨"a".toList, .latin1⟩ := by
  refine ⟨by decide +kernel, ⟨by decide +kernel, ?_⟩, by decide +kernel⟩
  refine ⟨.contentType (.malformed (contentType ⟨"a b".toList, .utf8⟩)
    (.invalidToken 0x20 26)), by decide +kernel⟩

end Multipart

end QueryBatch
