/-
Sources that do not fail.  Such a source gives the raw lines of its bytes, wherever
the pieces are cut, however many bytes are asked for at a time and however often it
is interrupted.
-/
import QueryBatch.Payload.Source
import QueryBatch.Proofs.Text.Lines

namespace QueryBatch

namespace Delivery

/-- All the bytes that are delivered. -/
def joined : List Delivery → Bytes
  | [] => []
  | .bytes piece :: rest => piece ++ joined rest
  | _ :: rest => joined rest

/-- Deliveries that bring all their bytes: none fails, and no piece is empty before
the last byte has come. -/
def Steady : List Delivery → Prop
  | [] => True
  | .bytes piece :: rest => (piece = [] → joined rest = []) ∧ Steady rest
  | .interrupted :: rest => Steady rest
  | .failed _ :: _ => False

theorem steady_of_forall {deliveries : List Delivery}
    (h : ∀ d ∈ deliveries, d = .interrupted ∨ ∃ piece, piece ≠ [] ∧ d = .bytes piece) :
    Steady deliveries := by
  induction deliveries with
  | nil => trivial
  | cons d rest ih =>
      have hrest := ih fun e he => h e (List.mem_cons_of_mem d he)
      rcases h d List.mem_cons_self with rfl | ⟨piece, hpiece, rfl⟩
      · exact hrest
      · exact ⟨fun hnil => absurd hnil hpiece, hrest⟩

theorem steady_singleton (piece : Bytes) : Steady [.bytes piece] :=
  ⟨fun _ => rfl, trivial⟩

@[simp] theorem joined_push (piece : Bytes) (rest : List Delivery) :
    joined (push piece rest) = piece ++ joined rest := by
  unfold push
  split <;> simp_all [joined]

theorem steady_push {piece : Bytes} {rest : List Delivery} (h : Steady rest) :
    Steady (push piece rest) := by
  unfold push
  split
  · exact h
  · exact ⟨fun hnil => by contradiction, h⟩

/-- Asking steady deliveries gives bytes as long as some are to come. -/
theorem take_of_steady {size : Nat} (hsize : 0 < size) {deliveries : List Delivery}
    (h : Steady deliveries) :
    ∃ piece rest, take size deliveries = (.ok piece, rest) ∧ Steady rest ∧
      piece ++ joined rest = joined deliveries ∧ (piece = [] → joined deliveries = []) := by
  induction deliveries with
  | nil => exact ⟨[], [], rfl, trivial, rfl, fun _ => rfl⟩
  | cons d ds ih =>
      cases d with
      | bytes first =>
          refine ⟨first.take size, push (first.drop size) ds, rfl, steady_push h.2, ?_, ?_⟩
          · rw [joined_push, joined, ← List.append_assoc, List.take_append_drop]
          · intro hnil
            have hfirst : first = [] := by
              rcases List.take_eq_nil_iff.mp hnil with hzero | hfirst
              · omega
              · exact hfirst
            rw [joined, hfirst, h.1 hfirst, List.append_nil]
      | interrupted => exact ih h
      | failed reason => exact h.elim

end Delivery

namespace Source

/-- The bytes to come. -/
def ahead (s : Source) : Bytes :=
  s.buffer ++ Delivery.joined s.deliveries

/-- A source that gives all its bytes before it is exhausted. -/
structure Steady (s : Source) : Prop where
  size_pos : 0 < s.size
  deliveries : Delivery.Steady s.deliveries
  exhausted : s.exhausted = true → s.ahead = []

theorem cr_ne_lf : cr ≠ lf := by decide

theorem fill_of_steady {s : Source} (h : s.Steady) :
    ∃ s', s.fill = (.ok s'.buffer, s') ∧ s'.Steady ∧ s'.ahead = s.ahead ∧
      (s'.buffer = [] → s.ahead = []) := by
  unfold fill
  split
  · rename_i hready
    refine ⟨s, rfl, h, rfl, fun hnil => ?_⟩
    exact h.exhausted (hready.resolve_left fun hne => hne hnil)
  · rename_i hready
    have hbuffer : s.buffer = [] := by
      cases hs : s.buffer <;> simp_all
    have hahead : s.ahead = Delivery.joined s.deliveries := by rw [ahead, hbuffer, List.nil_append]
    obtain ⟨piece, rest, htake, hrest, hjoined, hnil⟩ :=
      Delivery.take_of_steady h.size_pos h.deliveries
    rw [htake]
    refine ⟨{ s with buffer := piece, deliveries := rest, exhausted := piece.isEmpty }, rfl,
      ⟨h.size_pos, hrest, ?_⟩, hjoined.trans hahead.symm, ?_⟩
    · intro hexhausted
      have hpiece : piece = [] := List.isEmpty_iff.mp hexhausted
      exact hjoined.trans (hnil hpiece)
    · intro hpiece
      rw [hahead]
      exact hnil hpiece

/-- Using up a byte takes it from the bytes to come. -/
theorem advance_of_steady {s : Source} {b : UInt8} {rest : Bytes} (h : s.Steady)
    (hbuffer : s.buffer = b :: rest) : s.advance.Steady ∧ b :: s.advance.ahead = s.ahead := by
  have hahead : b :: s.advance.ahead = s.ahead := by simp [ahead, advance, hbuffer]
  refine ⟨⟨h.size_pos, h.deliveries, fun hexhausted => ?_⟩, hahead⟩
  have := h.exhausted hexhausted
  simp [ahead, hbuffer] at this

theorem takeFeed_of_steady {s : Source} (h : s.Steady) :
    ∃ s', s.takeFeed = (.ok (if s.ahead.head? = some lf then [lf] else []), s') ∧ s'.Steady ∧
      (if s.ahead.head? = some lf then [lf] else []) ++ s'.ahead = s.ahead := by
  obtain ⟨s₁, hfill, hsteady, hahead, hnil⟩ := fill_of_steady h
  have hhead : s₁.buffer.head? = s.ahead.head? := by
    cases hbuffer : s₁.buffer with
    | nil => rw [hnil hbuffer]
    | cons b rest => rw [← hahead, ahead, hbuffer]; rfl
  unfold takeFeed
  simp only [hfill, hhead]
  by_cases hlf : s.ahead.head? = some lf
  · obtain ⟨rest, hbuffer⟩ := List.head?_eq_some_iff.mp (hhead.trans hlf)
    obtain ⟨hadvance, hcons⟩ := advance_of_steady hsteady hbuffer
    exact ⟨s₁.advance, by simp [hlf], hadvance, by simpa [hlf] using hcons.trans hahead⟩
  · exact ⟨s₁, by simp [hlf], hsteady, by simpa [hlf] using hahead⟩

theorem takeLine_of_fill_nil {s s' : Source} (h : s.fill = (.ok [], s')) :
    s.takeLine = (.ok [], s') := by
  rw [takeLine]
  split <;> simp_all

theorem takeLine_of_fill_cons {s s' : Source} {b : UInt8} {rest : Bytes}
    (h : s.fill = (.ok (b :: rest), s')) :
    s.takeLine =
      if b = lf then (.ok [b], s'.advance)
      else
        let (rest, s'') := if b = cr then s'.advance.takeFeed else s'.advance.takeLine
        (rest.map (b :: ·), s'') := by
  rw [takeLine]
  split <;> simp_all

/-- A steady source gives the first line of the bytes to come; no bytes at the end. -/
theorem takeLine_of_steady {s : Source} {t : Bytes} (h : s.Steady) (ht : s.ahead = t) :
    ∃ s', s.takeLine = (.ok ((Lines.lines cr lf t).headD []), s') ∧ s'.Steady ∧
      s'.ahead = (Lines.lines cr lf t).tail.flatten := by
  induction t generalizing s with
  | nil =>
      obtain ⟨s₁, hfill, hsteady, hahead, -⟩ := fill_of_steady h
      rw [ht] at hahead
      rw [(List.append_eq_nil_iff.mp hahead).1] at hfill
      exact ⟨s₁, takeLine_of_fill_nil hfill, hsteady, hahead⟩
  | cons b r ih =>
      obtain ⟨s₁, hfill, hsteady, hahead, hnil⟩ := fill_of_steady h
      obtain ⟨c, rest, hbuffer⟩ : ∃ c rest, s₁.buffer = c :: rest :=
        List.exists_cons_of_ne_nil fun hempty => by simp [hnil hempty] at ht
      obtain ⟨hadvance, hcons⟩ := advance_of_steady hsteady hbuffer
      rw [hahead, ht, List.cons.injEq] at hcons
      obtain ⟨rfl, hr⟩ := hcons
      rw [hbuffer] at hfill
      rw [takeLine_of_fill_cons hfill]
      by_cases hlf : c = lf
      · rw [Lines.lines_cons_of_end (Or.inl hlf)]
        exact ⟨s₁.advance, by simp [hlf], hadvance, by simp [hr]⟩
      · by_cases hcr : c = cr
        · obtain ⟨s₂, hfeed, hsteady₂, hahead₂⟩ := takeFeed_of_steady hadvance
          rw [hr] at hfeed hahead₂
          by_cases hnext : r.head? = some lf
          · obtain ⟨r, rfl⟩ := List.head?_eq_some_iff.mp hnext
            rw [hcr, Lines.lines_cr_lf_cons cr_ne_lf]
            exact ⟨s₂, by simp [cr_ne_lf, hfeed, Except.map], hsteady₂, by simpa using hahead₂⟩
          · rw [Lines.lines_cons_of_end (Or.inr ⟨hcr, hnext⟩)]
            exact ⟨s₂, by simp [hcr, hnext, hfeed, Except.map, cr_ne_lf], hsteady₂,
              by simpa [hnext] using hahead₂⟩
        · obtain ⟨s₂, hline, hsteady₂, hahead₂⟩ := ih hadvance hr
          rw [Lines.lines_cons_of_not_end (by simp [hlf, hcr])]
          exact ⟨s₂, by simp [hlf, hcr, hline, Except.map], hsteady₂, hahead₂⟩

set_option linter.unusedVariables false in
/-- All the raw lines that a source gives, up to its end or its first failure. -/
def rawLines (s : Source) : Except Error (List Bytes) :=
  match hline : s.takeLine with
  | (.error e, _) => .error e
  | (.ok [], _) => .ok []
  | (.ok (b :: raw), s') => (rawLines s').map ((b :: raw) :: ·)
termination_by s.weight
decreasing_by
  have := weight_of_takeLine_eq_ok hline
  simp only [List.length_cons] at this
  omega

/-- A steady source gives the lines of the bytes to come. -/
theorem rawLines_of_steady {s : Source} (h : s.Steady) :
    s.rawLines = .ok (Lines.lines cr lf s.ahead) := by
  induction hlines : Lines.lines cr lf s.ahead generalizing s with
  | nil =>
      obtain ⟨s', hline, -, -⟩ := takeLine_of_steady h rfl
      rw [hlines] at hline
      rw [rawLines]
      split <;> simp_all
  | cons l ls ih =>
      obtain ⟨s', hline, hsteady, hahead⟩ := takeLine_of_steady h rfl
      rw [hlines] at hline hahead
      have hrest := ih hsteady (hahead ▸ Lines.lines_flatten_tail cr_ne_lf hlines)
      obtain ⟨b, raw, rfl⟩ := List.exists_cons_of_ne_nil (Lines.ne_nil_of_lines_eq_cons hlines)
      rw [rawLines]
      split <;> simp_all [Except.map]

end Source

end QueryBatch
