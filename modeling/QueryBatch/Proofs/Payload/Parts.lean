/-
Parts.  The headers of a part and the blank line after them leave no trace; the message
behind them is a start line, headers, a blank line and content.
-/
import QueryBatch.Proofs.Payload.WrittenLines

namespace QueryBatch

namespace Part

/-- Text that holds no line feed but at its end, among blanks, is the value of a header. -/
theorem headerValue?_of_notMem {t : Text} (ht : '\n' ∉ Text.trimEnd t) :
    headerValue? t = some (Text.trim t) := by
  have hread : ∀ u, '\n' ∉ Text.trimEnd u → (if (Text.trimEnd u).contains '\n' then none
      else some (Text.trim u)) = some (Text.trim u) := by
    intro u hu
    rw [if_neg (by simpa using hu)]
  unfold headerValue?
  cases t with
  | nil => rfl
  | cons c r =>
      by_cases hblank : Text.isBlank c = true
      · have htrim : Text.trim (c :: r) = Text.trim r :=
          Text.trim_append_left (u := [c]) (by simp [Text.allBlank, hblank])
        have hr : '\n' ∉ Text.trimEnd r := fun hmem => ht (Text.mem_dropEndWhile_cons c hmem)
        simp only [List.head?_cons, Option.any_some, hblank, if_true, List.tail_cons, hread r hr,
          htrim]
      · have hfalse : Text.isBlank c = false := by simpa using hblank
        simp only [List.head?_cons, Option.any_some, hfalse, Bool.false_eq_true, if_false,
          hread _ ht]

/-- A name and a colon make a header of the text behind them, if it can be a value. -/
theorem header?_append {name : Text} (t : Text) (hne : name ≠ [])
    (hname : ∀ c ∈ name, isHeaderName c = true) :
    header? (name ++ ':' :: t) = (headerValue? t).map fun value => (name, value) := by
  have hcolon : isHeaderName ':' = false := by decide
  unfold header?
  rw [List.takeWhile_append_of_pos hname, List.dropWhile_append_of_pos hname,
    List.takeWhile_cons_of_neg (by simp [hcolon]), List.dropWhile_cons_of_neg (by simp [hcolon])]
  simp only [List.append_nil, hne, if_false]

/-- A header line reads as its name and its trimmed value, whatever blanks end it. -/
theorem header?_colon_append {name value ending : Text} (hne : name ≠ [])
    (hname : ∀ c ∈ name, isHeaderName c = true) (hvalue : '\n' ∉ value)
    (hending : Text.allBlank ending = true) :
    header? (name ++ ':' :: (value ++ ending)) = some (name, Text.trim value) := by
  have hsingle : '\n' ∉ Text.trimEnd (value ++ ending) := by
    have htrim : Text.trimEnd (value ++ ending) = Text.trimEnd value :=
      Text.dropEndWhile_append hending
    rw [htrim]
    exact fun hmem => hvalue (Text.mem_of_mem_dropEndWhile hmem)
  rw [header?_append _ hne hname, headerValue?_of_notMem hsingle, Option.map_some,
    Text.trim_append_right hending]

theorem header?_colon_endLine {name value : Text} (hne : name ≠ [])
    (hname : ∀ c ∈ name, isHeaderName c = true) (hvalue : '\n' ∉ value) :
    header? (Batch.endLine (name ++ ':' :: value)) = some (name, Text.trim value) := by
  rw [Batch.endLine, List.append_assoc, List.cons_append]
  exact header?_colon_append hne hname hvalue Batch.allBlank_lineEnding

/-- A header line that was written reads as its name and its trimmed value. -/
theorem header?_endLine {name value : Text} (hne : name ≠ [])
    (hname : ∀ c ∈ name, isHeaderName c = true) (hvalue : '\n' ∉ value) :
    header? (Batch.endLine (name ++ ": ".toList ++ value)) = some (name, Text.trim value) := by
  have hline : name ++ ": ".toList ++ value = name ++ ':' :: ' ' :: value := by simp
  have htrim : Text.trim (' ' :: value) = Text.trim value :=
    Text.trim_append_left (u := [' ']) (by decide)
  rw [hline, header?_colon_endLine hne hname (by simpa using hvalue), htrim]

theorem headerValue?_eq_some {t value : Text} (h : headerValue? t = some value) :
    value = Text.trim t := by
  dsimp only [headerValue?] at h
  obtain ⟨-, htrim⟩ := Option.ite_none_left_eq_some.mp h
  rw [← Option.some.inj htrim]
  cases t with
  | nil => rfl
  | cons c r =>
      by_cases hblank : Text.isBlank c = true
      · have hdropped : Text.trim (c :: r) = Text.trim r :=
          Text.trim_append_left (u := [c]) (by simp [Text.allBlank, hblank])
        simp [hblank, hdropped]
      · simp [hblank]

/-- A header stands before a colon and its value behind it. -/
theorem header?_eq_some {t name value : Text} (h : header? t = some (name, value)) :
    name ≠ [] ∧ (∀ c ∈ name, isHeaderName c = true) ∧
      ∃ rest, t = name ++ ':' :: rest ∧ value = Text.trim rest := by
  have hcut := List.takeWhile_append_dropWhile (p := isHeaderName) (l := t)
  have hname : ∀ c ∈ t.takeWhile isHeaderName, isHeaderName c = true :=
    List.all_eq_true.mp List.all_takeWhile
  dsimp only [header?] at h
  split at h
  · rename_i rest hdrop
    rw [hdrop] at hcut
    obtain ⟨hne, h⟩ := Option.ite_none_left_eq_some.mp h
    obtain ⟨value', hvalue, heq⟩ := Option.map_eq_some_iff.mp h
    obtain ⟨rfl, rfl⟩ := Prod.mk.inj heq
    exact ⟨hne, hname, rest, hcut.symm, headerValue?_eq_some hvalue⟩
  · cases h

theorem holds_iff {inner t : Text} : holds inner t = true ↔ inner <:+: t := by
  induction t with
  | nil => simp [holds]
  | cons c t ih =>
      have hprefix : (Text.dropStart? inner (c :: t)).isSome = true ↔ inner <+: c :: t := by
        rw [Option.isSome_iff_exists]
        simp only [Text.dropStart?_eq_some_iff]
        exact exists_congr fun rest => eq_comm
      rw [holds, Bool.or_eq_true, ih, List.infix_cons_iff, hprefix]

theorem afterHeaders_suffix (texts : List Text) : afterHeaders texts <:+ texts :=
  List.dropWhile_suffix _

theorem afterBlank_suffix (texts : List Text) : afterBlank texts <:+ texts := by
  fun_cases afterBlank texts with
  | case1 => exact List.suffix_refl []
  | case2 line others hblank => exact List.suffix_cons line others
  | case3 line others hblank => exact List.suffix_refl _

theorem start?_suffix (texts : List Text) : (start? texts).2 <:+ texts := by
  fun_cases start? texts with
  | case1 => exact List.suffix_refl []
  | case2 line others hholds => exact List.suffix_cons line others
  | case3 line others hholds => exact List.suffix_refl _

/-- Header lines, and lines after them of which the first is none. -/
theorem headers_append {texts after : List Text} (htexts : ∀ t ∈ texts, (header? t).isSome = true)
    (hafter : ∀ t ∈ after.head?, header? t = none) :
    headers (texts ++ after) = texts.filterMap header? ∧ afterHeaders (texts ++ after) = after := by
  unfold headers afterHeaders
  rw [List.takeWhile_append_of_pos htexts, List.dropWhile_append_of_pos htexts]
  cases after with
  | nil => simp
  | cons t after => simp [hafter t rfl]

/-- A first line that is blank or a header does not stay with the content. -/
theorem content_suffix_of_cons {line : Text} (others : List Text)
    (hline : Text.allBlank line = true ∨ header? line ≠ none) :
    afterBlank (afterHeaders (line :: others)) <:+ others := by
  by_cases hheader : header? line = none
  · have hblank := hline.resolve_right (not_not_intro hheader)
    have hstays : afterHeaders (line :: others) = line :: others := by
      simp [afterHeaders, hheader]
    have hdropped : afterBlank (afterHeaders (line :: others)) = others := by
      rw [hstays, afterBlank, if_pos hblank]
    exact hdropped.symm ▸ List.suffix_refl others
  · have hdrops : afterHeaders (line :: others) = afterHeaders others := by
      simp [afterHeaders, Option.isSome_iff_ne_none.mpr hheader]
    rw [hdrops]
    exact (afterBlank_suffix _).trans (afterHeaders_suffix others)

/-- A first line that is blank or a header is lost. -/
theorem flatten_content_ne {line : Text} {others : List Text} (hne : line ≠ [])
    (hline : Text.allBlank line = true ∨ header? line ≠ none) :
    (afterBlank (afterHeaders (line :: others))).flatten ≠ line ++ others.flatten := by
  intro heq
  obtain ⟨before, hbefore⟩ := content_suffix_of_cons others hline
  have hothers : others.flatten.length = before.flatten.length +
      (afterBlank (afterHeaders (line :: others))).flatten.length := by
    rw [← List.length_append, ← List.flatten_append, hbefore]
  have hpositive := List.length_pos_iff.mpr hne
  rw [heq, List.length_append] at hothers
  omega

/-- A first line that is neither blank nor a header is content. -/
theorem content_of_cons {line : Text} (others : List Text)
    (hblank : Text.allBlank line = false) (hnone : header? line = none) :
    headers (line :: others) = [] ∧
      afterBlank (afterHeaders (line :: others)) = line :: others := by
  have hfirst : ∀ t ∈ (line :: others).head?, header? t = none := by
    simpa using hnone
  obtain ⟨hheaders, hafter⟩ := headers_append (List.forall_mem_nil _) hfirst
  rw [List.nil_append] at hheaders hafter
  rw [hheaders, hafter, afterBlank, if_neg (by simp [hblank])]
  exact ⟨rfl, rfl⟩

variable {σ : Type}

theorem foldl_addHeader (item : Item σ) (fields : List (Text × Text)) :
    fields.foldl (fun item field => Item.addHeader item field.1 field.2) item =
      { item with
        headers := fields.foldl (fun h field => Headers.appendElements h field.1 field.2)
          item.headers } := by
  induction fields generalizing item with
  | nil => rfl
  | cons field fields ih => rw [List.foldl_cons, ih, List.foldl_cons, Item.addHeader]

theorem header?_of_allBlank {t : Text} (ht : Text.allBlank t = true) : header? t = none := by
  unfold header?
  cases hrest : t.dropWhile isHeaderName with
  | nil => rfl
  | cons c r =>
      have hmem : c ∈ t := (List.dropWhile_suffix isHeaderName).subset (by simp [hrest])
      have hcolon : c ≠ ':' := by
        rintro rfl
        exact absurd (List.all_eq_true.mp ht ':' hmem) (by decide)
      split
      · rename_i heq
        exact absurd (List.cons.inj heq).1 hcolon
      · rfl

/-- Header lines and the blank line after them, in front of other lines. -/
theorem headers_append_blank {texts : List Text} {blank : Text} (after : List Text)
    (htexts : ∀ t ∈ texts, (header? t).isSome = true) (hblank : Text.allBlank blank = true) :
    headers (texts ++ blank :: after) = texts.filterMap header? ∧
      afterBlank (afterHeaders (texts ++ blank :: after)) = after := by
  have hfirst : ∀ t ∈ (blank :: after).head?, header? t = none := by
    intro t ht
    obtain rfl := Option.some.inj ht
    exact header?_of_allBlank hblank
  obtain ⟨hheaders, hafter⟩ := headers_append htexts hfirst
  rw [hheaders, hafter, afterBlank, if_pos hblank]
  exact ⟨rfl, rfl⟩

/-- What a part reads as that consists of headers, a blank line, a start line, headers of
the message, a blank line and content. -/
theorem read_decomposed [StartLine σ] (template : Item σ) {outer inner body : List Text}
    {blank line separator : Text} (houter : ∀ t ∈ outer, (header? t).isSome = true)
    (hblank : Text.allBlank blank = true) (hline : protocol <:+: line)
    (hinner : ∀ t ∈ inner, (header? t).isSome = true)
    (hseparator : Text.allBlank separator = true) :
    read template (outer ++ blank :: line :: (inner ++ separator :: body)) =
      { start := StartLine.read template.start line
        headers := (inner.filterMap header?).foldl
          (fun h field => Headers.appendElements h field.1 field.2) template.headers
        content := body.flatten } := by
  obtain ⟨-, hmessage⟩ := headers_append_blank (line :: (inner ++ separator :: body))
    houter hblank
  obtain ⟨hheaders, hbody⟩ := headers_append_blank body hinner hseparator
  have hstart : start? (line :: (inner ++ separator :: body)) =
      (some line, inner ++ separator :: body) := by
    rw [start?, if_pos (holds_iff.mpr hline)]
  unfold read
  simp only [hmessage, hstart, hheaders, hbody, Option.map_some, Option.getD_some,
    foldl_addHeader]
  rfl

/-- The headers of a written part, and the blank line after them, leave no trace. -/
theorem afterBlank_afterHeaders_partHeaderTexts (texts : List Text) :
    afterBlank (afterHeaders (Batch.partHeaderTexts.map Batch.endLine ++ texts)) = texts := by
  have hheaders : ∀ t ∈ (Batch.partHeaderTexts.dropLast.map Batch.endLine),
      (header? t).isSome = true := by
    decide
  have hblank : Text.allBlank (Batch.endLine []) = true := by decide
  exact (headers_append_blank texts hheaders hblank).2

/-- What a part reads as, behind its own headers and the start line. -/
theorem read_append [StartLine σ] {line : Text} {message : List Text} (hline : protocol <:+: line) :
    read (Item.empty : Item σ) (Batch.partHeaderTexts.map Batch.endLine ++ line :: message) =
      { start := StartLine.read StartLine.unknown line
        headers := (headers message).foldl
          (fun h field => Headers.appendElements h field.1 field.2) {}
        content := (afterBlank (afterHeaders message)).flatten } := by
  have hstart : start? (line :: message) = (some line, message) := by
    rw [start?, if_pos (holds_iff.mpr hline)]
  unfold read
  simp only [afterBlank_afterHeaders_partHeaderTexts, hstart, Option.map_some, Option.getD_some,
    foldl_addHeader]
  rfl

end Part

namespace Multipart

open Lines (lines)

/-- The ending behind a text does not stay with the lines of the text. -/
theorem flatten_withoutLastEnding_lines (t : Text) :
    (withoutLastEnding (lines '\r' '\n' (Batch.endLine t))).flatten = t := by
  have hending : Batch.endLine t = t ++ ['\r', '\n'] := rfl
  rw [hending]
  rcases Lines.lines_append_ending (by decide : '\r' ≠ '\n') t with
    heq | ⟨before, last, hlines, heq⟩
  · rw [heq, withoutLastEnding_concat]
    simp [dropLineEnding]
  · rw [heq, withoutLastEnding_concat, dropLineEnding_append, ← hlines,
      Lines.flatten_lines]

end Multipart

namespace Batch

open Multipart (withoutLastEnding)

variable {σ : Type} [StartLine σ] {media : Multipart}

/-- The lines of a payload, read, become what its bodies become. -/
theorem ofLines_numbered (template : Item σ) {bodies : List (List Text)}
    (hbodies : ∀ body ∈ bodies, ∀ t ∈ body, media.Inner t) :
    ofLines media template (ReadState.numbered
        (bodies.flatMap (endLine media.delimiter :: ·) ++ [endLine media.closeDelimiter])) =
      .ok (bodies.map fun body => Part.read template (withoutLastEnding body)) := by
  obtain ⟨parts, hgroups, hparts⟩ := Multipart.exists_groups? (opensPart_delimiter media)
    (endsParts_delimiter media) (endsParts_closeDelimiter media) hbodies
    (ReadState.map_content_numbered _)
  have hread : parts.map (fun part => Part.read template (part.map Line.content)) =
      (parts.map (List.map Line.content)).map (Part.read template) := by
    rw [List.map_map]
    rfl
  unfold ofLines
  rw [Multipart.split, hgroups]
  simp only [Except.map, hread, hparts, List.map_map]
  rfl

end Batch

end QueryBatch
