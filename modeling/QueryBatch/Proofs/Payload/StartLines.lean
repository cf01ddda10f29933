/-
Start lines that survive being written and read.
-/
import QueryBatch.Payload.Part
import QueryBatch.Proofs.Text.Cutting
import QueryBatch.Proofs.Text.Lines

namespace QueryBatch

/-- A start line with the line that it is written as: the line reads as the start line,
with or without an ending, and starts like no other line of a part. -/
structure StartLine.Restored {σ : Type} [StartLine σ] (start : σ) (line : Text) : Prop where
  written : StartLine.write? start = some line
  restored : ∀ ending, Text.allBlank ending = true →
    StartLine.read StartLine.unknown (line ++ ending) = start
  protocolled : protocol <:+: line
  unbroken : Lines.Unbroken '\r' '\n' line
  initial : ∃ c r, line = c :: r ∧ (c = 'D' ∨ c = 'P' ∨ c = 'H')

/-- A start line that can be written and is read as it was. -/
def StartLine.Restorable {σ : Type} [StartLine σ] (start : σ) : Prop :=
  ∃ line, StartLine.Restored start line

/-- A kind of start line of which whatever is read and can be written is read again. -/
structure StartLine.Faithful (σ : Type) [StartLine σ] : Prop where
  unknown : StartLine.write? (StartLine.unknown : σ) = none
  restorable : ∀ line : Text,
    (StartLine.write? (StartLine.read (StartLine.unknown : σ) line)).isSome = true →
      StartLine.Restorable (StartLine.read (StartLine.unknown : σ) line)

namespace RequestLine

/-- A request line that a payload can carry: a supported method, a path without `?` and
blanks, and a query, if any, without blanks. -/
structure Complete (r : RequestLine) : Prop where
  method : ∃ method, r.method? = some method ∧ method.token ∈ Method.supported
  path : ∃ uri, r.uri? = some uri ∧ uri ≠ [] ∧ '?' ∉ uri ∧ ∀ c ∈ uri, Text.isBlank c = false
  query : ∀ query, r.query? = some query → ∀ c ∈ query, Text.isBlank c = false

/-- The request line that a method and a target tell. -/
def ofTarget (method? : Option Method) (target : Text) : RequestLine :=
  match Text.splitAt? '?' target with
  | some (path, query) => ⟨method?, some path, some query⟩
  | none => ⟨method?, some target, none⟩

theorem read?_eq (line : Text) :
    read? line =
      (split? line).map fun (method, target) => ofTarget (Method.ofText? method) target :=
  rfl

theorem method?_ofTarget (method? : Option Method) (target : Text) :
    (ofTarget method? target).method? = method? := by
  unfold ofTarget
  split <;> rfl

theorem target_ofTarget (method? : Option Method) (t : Text) :
    (ofTarget method? t).target = t := by
  unfold ofTarget
  cases hcut : Text.splitAt? '?' t with
  | none => rfl
  | some cut =>
      obtain ⟨path, query⟩ := cut
      exact (Text.splitAt?_eq_some_iff.mp hcut).1.symm

/-- A request line that tells what a line of text can tell: a supported method and a target
that is a run without blanks. -/
def Legible (r : RequestLine) : Prop :=
  ∃ method target, method.token ∈ Method.supported ∧ target ≠ [] ∧
    (∀ c ∈ target, Text.isBlank c = false) ∧ r = ofTarget (some method) target

/-- The first `?` of a target parts path and query. -/
theorem legible_of_complete {r : RequestLine} (h : r.Complete) : r.Legible := by
  obtain ⟨method, hmethod, hsupported⟩ := h.method
  obtain ⟨uri, huri, hne, hmark, hblank⟩ := h.path
  obtain ⟨method?, uri?, query?⟩ := r
  obtain rfl : method? = some method := hmethod
  obtain rfl : uri? = some uri := huri
  cases query? with
  | none =>
      refine ⟨method, uri, hsupported, hne, hblank, ?_⟩
      rw [ofTarget, Text.splitAt?_eq_none hmark]
  | some query =>
      have hcut : Text.splitAt? '?' (uri ++ '?' :: query) = some (uri, query) :=
        Text.splitAt?_eq_some_iff.mpr ⟨rfl, hmark⟩
      refine ⟨method, uri ++ '?' :: query, hsupported, by simp, ?_, ?_⟩
      · rw [List.forall_mem_append, List.forall_mem_cons]
        exact ⟨hblank, by decide, h.query query rfl⟩
      · rw [ofTarget, hcut]

theorem readTarget?_append {target ending : Text} (hne : target ≠ [])
    (hblank : ∀ c ∈ target, Text.isBlank c = false) (hending : Text.allBlank ending = true) :
    readTarget? (target ++ ' ' :: protocol ++ ending) = some target := by
  obtain ⟨htake, hdrop⟩ := Text.takeWhile_not_isBlank (u := ' ' :: protocol ++ ending) hblank
    (by simp [Text.isBlank])
  have hprotocol : Text.dropStart? (' ' :: protocol) (' ' :: protocol ++ ending) = some ending :=
    Text.dropStart?_eq_some_iff.mpr rfl
  rw [List.append_assoc]
  simp only [readTarget?, htake, hdrop, hne, if_false, hprotocol, Option.bind_some, hending,
    if_true]

theorem split?_append {method target ending : Text} (hmethod : method ∈ Method.supported)
    (hne : target ≠ []) (hblank : ∀ c ∈ target, Text.isBlank c = false)
    (hending : Text.allBlank ending = true) :
    split? (method ++ ' ' :: target ++ ' ' :: protocol ++ ending) = some (method, target) := by
  have htarget := readTarget?_append hne hblank hending
  simp only [List.append_assoc, List.cons_append] at htarget ⊢
  simp only [Method.supported, List.mem_cons, List.not_mem_nil, or_false] at hmethod
  rcases hmethod with rfl | rfl | rfl | rfl <;>
    simp [split?, Method.supported, Text.dropStart?, htarget]

theorem readTarget?_eq_some_iff {t target : Text} :
    readTarget? t = some target ↔
      target ≠ [] ∧ (∀ c ∈ target, Text.isBlank c = false) ∧
        ∃ ending, Text.allBlank ending = true ∧ t = target ++ ' ' :: protocol ++ ending := by
  constructor
  · intro h
    dsimp only [readTarget?] at h
    obtain ⟨hne, h⟩ := Option.ite_none_left_eq_some.mp h
    obtain ⟨ending, hending, hrest⟩ := Option.bind_eq_some_iff.mp h
    obtain ⟨hblank, htake⟩ := Option.ite_none_right_eq_some.mp hrest
    have hjoined : t = t.takeWhile (fun c => !Text.isBlank c) ++ (' ' :: protocol ++ ending) := by
      rw [← Text.dropStart?_eq_some_iff.mp hending, List.takeWhile_append_dropWhile]
    obtain rfl := Option.some.inj htake
    refine ⟨hne, fun c hc => ?_, ending, hblank, hjoined.trans (List.append_assoc _ _ _).symm⟩
    simpa using List.all_eq_true.mp List.all_takeWhile c hc
  · rintro ⟨hne, hblank, ending, hending, rfl⟩
    exact readTarget?_append hne hblank hending

/-- A line that can begin a request: a supported method, a target without blanks and the
protocol, with one space between them, and nothing but blanks behind. -/
structure Spells (method target ending line : Text) : Prop where
  supported : method ∈ Method.supported
  ne_nil : target ≠ []
  notBlank : ∀ c ∈ target, Text.isBlank c = false
  blank : Text.allBlank ending = true
  joined : line = method ++ ' ' :: target ++ ' ' :: protocol ++ ending

theorem split?_eq_some_iff {line method target : Text} :
    split? line = some (method, target) ↔ ∃ ending, Spells method target ending line := by
  constructor
  · intro h
    obtain ⟨name, hname, hrest⟩ := List.exists_of_findSome?_eq_some h
    obtain ⟨rest, hstart, hread⟩ := Option.bind_eq_some_iff.mp hrest
    obtain ⟨target', htarget, heq⟩ := Option.map_eq_some_iff.mp hread
    obtain ⟨rfl, rfl⟩ := Prod.mk.inj heq
    obtain ⟨hne, hblank, ending, hending, rfl⟩ := readTarget?_eq_some_iff.mp htarget
    refine ⟨ending, hname, hne, hblank, hending, ?_⟩
    rw [Text.dropStart?_eq_some_iff.mp hstart]
    simp
  · rintro ⟨ending, hname, hne, hblank, hending, rfl⟩
    exact split?_append hname hne hblank hending

theorem isMethod_of_supported : ∀ name ∈ Method.supported,
    name ≠ [] ∧ name.all MediaType.isToken = true := by
  decide

/-- Lines that can begin a request are read, and no others. -/
theorem read?_eq_some_iff {line : Text} {r : RequestLine} :
    read? line = some r ↔ ∃ method : Method, ∃ target ending,
      Spells method.token target ending line ∧ r = ofTarget (some method) target := by
  rw [read?_eq, Option.map_eq_some_iff]
  constructor
  · rintro ⟨⟨name, target⟩, hsplit, rfl⟩
    obtain ⟨ending, hspells⟩ := split?_eq_some_iff.mp hsplit
    have hmethod := isMethod_of_supported name hspells.supported
    exact ⟨⟨name, hmethod⟩, target, ending, hspells, by simp [Method.ofText?, hmethod]⟩
  · rintro ⟨method, target, ending, hspells, rfl⟩
    refine ⟨(method.token, target), split?_eq_some_iff.mpr ⟨ending, hspells⟩, ?_⟩
    simp [Method.ofText?, method.isToken]

/-- Whatever line a request line is read from, it could be written. -/
theorem legible_of_read? {line : Text} {r : RequestLine} (h : read? line = some r) :
    r.Legible := by
  obtain ⟨method, target, ending, hspells, rfl⟩ := read?_eq_some_iff.mp h
  exact ⟨method, target, hspells.supported, hspells.ne_nil, hspells.notBlank, rfl⟩

/-- The name of a supported method breaks no line and starts like no delimiter. -/
theorem token_spec {token : Text} (h : token ∈ Method.supported) :
    Lines.Unbroken '\r' '\n' token ∧
      ∃ c rest, token = c :: rest ∧ (c = 'D' ∨ c = 'P' ∨ c = 'H') := by
  simp only [Method.supported, List.mem_cons, List.not_mem_nil, or_false] at h
  rcases h with rfl | rfl | rfl | rfl
  · exact ⟨Lines.unbroken_of_all (by decide), 'D', "ELETE".toList, rfl, by decide⟩
  · exact ⟨Lines.unbroken_of_all (by decide), 'P', "ATCH".toList, rfl, by decide⟩
  · exact ⟨Lines.unbroken_of_all (by decide), 'P', "OST".toList, rfl, by decide⟩
  · exact ⟨Lines.unbroken_of_all (by decide), 'P', "UT".toList, rfl, by decide⟩

theorem restorable_of_legible {r : RequestLine} (h : r.Legible) : StartLine.Restorable r := by
  obtain ⟨method, target, hsupported, hne, hblank, rfl⟩ := h
  obtain ⟨htoken, c, rest, hinitial, hc⟩ := token_spec hsupported
  refine ⟨method.token ++ ' ' :: target ++ ' ' :: protocol, ?_, ?_, ?_, ?_, ?_⟩
  · show write? _ = _
    rw [write?, method?_ofTarget, target_ofTarget]
    simp
  · intro ending hending
    show (read? _).getD _ = _
    have hspells : Spells method.token target ending
        (method.token ++ ' ' :: target ++ ' ' :: protocol ++ ending) :=
      ⟨hsupported, hne, hblank, hending, rfl⟩
    rw [read?_eq_some_iff.mpr ⟨method, target, ending, hspells, rfl⟩, Option.getD_some]
  · exact ⟨method.token ++ ' ' :: target ++ [' '], [], by simp⟩
  · have hprotocol : Lines.Unbroken '\r' '\n' (' ' :: protocol) :=
      Lines.unbroken_of_all (by decide)
    rw [Lines.unbroken_append, Lines.unbroken_append, Lines.unbroken_cons]
    exact ⟨⟨htoken, by decide, Lines.unbroken_of_not_isBlank hblank⟩, hprotocol⟩
  · exact ⟨c, rest ++ ' ' :: target ++ ' ' :: protocol, by simp [hinitial], hc⟩

theorem restorable_of_complete {r : RequestLine} (h : r.Complete) :
    StartLine.Restorable r :=
  restorable_of_legible (legible_of_complete h)

theorem faithful : StartLine.Faithful RequestLine where
  unknown := rfl
  restorable := by
    intro line hsome
    have hread : StartLine.read (StartLine.unknown : RequestLine) line = (read? line).getD {} := rfl
    rw [hread] at hsome ⊢
    cases hline : read? line with
    | none =>
        rw [hline] at hsome
        cases hsome
    | some r => exact restorable_of_legible (legible_of_read? hline)

end RequestLine

namespace StatusLine

/-- A status line that a payload can carry: any status. -/
def Complete (s : StatusLine) : Prop :=
  ∃ status, s.status? = some status

theorem numeral_ofNat (n : Nat) : numeral (Text.ofNat n) = n :=
  Nat.ofDigitChars_ten_toDigits

theorem isDigit_of_mem_ofNat {n : Nat} {c : Char} (h : c ∈ Text.ofNat n) : c.isDigit = true :=
  Nat.isDigit_of_mem_toDigits (by decide) (by decide) h

theorem not_isBlank_of_isDigit {c : Char} (h : c.isDigit = true) : Text.isBlank c = false := by
  have hbounds : 48 ≤ c.toNat ∧ c.toNat ≤ 57 := by
    simpa [Char.isDigit, UInt32.le_iff_toNat_le] using h
  simp [Text.isBlank]
  omega

theorem readStatus?_ofNat (status : UInt16) :
    readStatus? (Text.ofNat status.toNat) = some status := by
  have hne : Text.ofNat status.toNat ≠ [] := Nat.toDigits_ne_nil
  have hplus : (Text.ofNat status.toNat).head? ≠ some '+' := by
    intro hhead
    have := isDigit_of_mem_ofNat (List.mem_of_head? hhead)
    revert this
    decide
  have hall : (Text.ofNat status.toNat).all Char.isDigit = true :=
    List.all_eq_true.mpr fun c hc => isDigit_of_mem_ofNat hc
  have hlt : status.toNat < 65536 := status.toNat_lt
  simp only [readStatus?, hplus, if_false, numeral_ofNat]
  rw [if_pos ⟨hne, hall, hlt⟩, UInt16.ofNat_toNat]

theorem reasons_unbroken :
    ∀ entry ∈ reasons, entry.2.toList.all (fun c => c != '\r' && c != '\n') = true := by
  decide +kernel

/-- A phrase is set off by a space and does not end the line. -/
theorem reason_spec (status : Nat) :
    (∀ c ∈ (reason status).head?, Text.isBlank c = true) ∧
      Lines.Unbroken '\r' '\n' (reason status) := by
  unfold reason
  cases hphrase : reasons.lookup status with
  | none => simp [Lines.Unbroken]
  | some phrase =>
      refine ⟨by simp [Text.isBlank], Lines.unbroken_cons.mpr ⟨by decide, ?_⟩⟩
      obtain ⟨before, after, hreasons, -⟩ := List.lookup_eq_some_iff.mp hphrase
      exact Lines.unbroken_of_all (reasons_unbroken (status, phrase) (by simp [hreasons]))

theorem not_isBlank_of_mem_ofNat {n : Nat} {c : Char} (h : c ∈ Text.ofNat n) :
    Text.isBlank c = false :=
  not_isBlank_of_isDigit (isDigit_of_mem_ofNat h)

/-- A written status line reads as its status, with or without an ending. -/
theorem read?_ofNat_append (status : UInt16) {ending : Text}
    (hending : Text.allBlank ending = true) :
    read? (protocol ++ ' ' :: Text.ofNat status.toNat ++ reason status.toNat ++ ending) =
      some ⟨some status⟩ := by
  obtain ⟨hhead, -⟩ := reason_spec status.toNat
  have hstart : Text.dropStart? (protocol ++ [' '])
      (protocol ++ ' ' :: Text.ofNat status.toNat ++ reason status.toNat ++ ending) =
        some (Text.ofNat status.toNat ++ (reason status.toNat ++ ending)) :=
    Text.dropStart?_eq_some_iff.mpr (by simp)
  have hnext : ∀ c ∈ (reason status.toNat ++ ending).head?, Text.isBlank c = true := by
    cases hcase : reason status.toNat with
    | nil => exact fun c hc => List.all_eq_true.mp hending c (List.mem_of_head? hc)
    | cons d rest =>
        rw [hcase] at hhead
        exact hhead
  have hdigits : ∀ c ∈ Text.ofNat status.toNat, Text.isBlank c = false :=
    fun c hc => not_isBlank_of_mem_ofNat hc
  rw [read?, hstart, Option.bind_some, (Text.takeWhile_not_isBlank hdigits hnext).1,
    readStatus?_ofNat, Option.map_some]

theorem restorable_of_complete {s : StatusLine} (h : s.Complete) :
    StartLine.Restorable s := by
  obtain ⟨status, hstatus⟩ := h
  refine ⟨protocol ++ ' ' :: Text.ofNat status.toNat ++ reason status.toNat, ?_, ?_, ?_, ?_, ?_⟩
  · show write? s = _
    simp [write?, hstatus]
  · intro ending hending
    show (read? _).getD _ = s
    rw [read?_ofNat_append status hending, Option.getD_some, ← hstatus]
  · exact ⟨[], ' ' :: Text.ofNat status.toNat ++ reason status.toNat, by simp⟩
  · have hprotocol : Lines.Unbroken '\r' '\n' protocol := Lines.unbroken_of_all (by decide)
    have hdigits : Lines.Unbroken '\r' '\n' (Text.ofNat status.toNat) :=
      Lines.unbroken_of_not_isBlank fun c hc => not_isBlank_of_mem_ofNat hc
    rw [Lines.unbroken_append, Lines.unbroken_append, Lines.unbroken_cons]
    exact ⟨⟨hprotocol, by decide, hdigits⟩, (reason_spec status.toNat).2⟩
  · exact ⟨'H', _, rfl, Or.inr (Or.inr rfl)⟩

theorem faithful : StartLine.Faithful StatusLine where
  unknown := rfl
  restorable := by
    intro line hsome
    obtain ⟨status, hstatus⟩ :=
      Option.isSome_iff_exists.mp ((Option.isSome_map ..).symm.trans hsome)
    exact restorable_of_complete ⟨status, hstatus⟩

end StatusLine

end QueryBatch
