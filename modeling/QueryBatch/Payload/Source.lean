/-
Sources of bytes and the raw lines in them.  A source delivers its bytes in pieces
of any size, and may be interrupted or fail on the way.  A raw line ends after a
line feed, a carriage return, or both in that order, wherever the pieces are cut.
-/
import QueryBatch.Error

namespace QueryBatch

/-- What a source gives when it is asked for bytes.  A delivery without bytes is
the end. -/
inductive Delivery where
  | bytes (bytes : Bytes)
  /-- Nothing this time; the source is to be asked again. -/
  | interrupted
  | failed (reason : Text)
deriving DecidableEq, Repr

namespace Delivery

/-- The number of bytes in deliveries. -/
def weight : List Delivery → Nat
  | [] => 0
  | .bytes piece :: rest => piece.length + weight rest
  | _ :: rest => weight rest

/-- Deliveries whose first holds the given bytes, if there are any. -/
def push (piece : Bytes) (rest : List Delivery) : List Delivery :=
  if piece = [] then rest else .bytes piece :: rest

@[simp] theorem weight_push (piece : Bytes) (rest : List Delivery) :
    weight (push piece rest) = piece.length + weight rest := by
  unfold push
  split <;> simp_all [weight]

/-- Asks for at most `size` bytes, again after each interruption.  No bytes at all
is the end. -/
def take (size : Nat) : List Delivery → Except Error Bytes × List Delivery
  | [] => (.ok [], [])
  | .bytes piece :: rest => (.ok (piece.take size), push (piece.drop size) rest)
  | .interrupted :: rest => take size rest
  | .failed reason :: rest => (.error (.source reason), rest)

/-- What is delivered is taken from what is ahead. -/
theorem weight_of_take_eq_ok {size : Nat} {deliveries rest : List Delivery} {piece : Bytes}
    (h : take size deliveries = (.ok piece, rest)) :
    piece.length + weight rest = weight deliveries := by
  induction deliveries with
  | nil =>
      simp only [take, Prod.mk.injEq, Except.ok.injEq] at h
      simp [← h.1, ← h.2, weight]
  | cons d ds ih =>
      cases d with
      | bytes first =>
          simp only [take, Prod.mk.injEq, Except.ok.injEq] at h
          rw [← h.1, ← h.2, weight_push, weight, List.length_take, List.length_drop]
          omega
      | interrupted => simpa [weight] using ih h
      | failed reason => simp [take] at h

end Delivery

/-- Bytes to come: those delivered and not used yet, and the deliveries ahead. -/
structure Source where
  /-- The most bytes that are asked for at a time. -/
  size : Nat
  deliveries : List Delivery
  buffer : Bytes := []
  /-- The end was met; nothing is asked for again. -/
  exhausted : Bool := false
deriving DecidableEq, Repr

namespace Source

/-- The line feed. -/
def lf : UInt8 := 0x0A

/-- The carriage return. -/
def cr : UInt8 := 0x0D

/-- The number of bytes to come. -/
def weight (s : Source) : Nat :=
  s.buffer.length + Delivery.weight s.deliveries

/-- The bytes at hand, after asking for some if there are none; no bytes at all is
the end. -/
def fill (s : Source) : Except Error Bytes × Source :=
  if s.buffer ≠ [] ∨ s.exhausted then (.ok s.buffer, s)
  else
    match Delivery.take s.size s.deliveries with
    | (.ok piece, rest) =>
        (.ok piece, { s with buffer := piece, deliveries := rest, exhausted := piece.isEmpty })
    | (.error e, rest) => (.error e, { s with deliveries := rest })

/-- The bytes at hand are the buffer, and filling it loses and adds nothing. -/
theorem weight_of_fill_eq_ok {s s' : Source} {buffer : Bytes} (h : s.fill = (.ok buffer, s')) :
    s'.buffer = buffer ∧ s'.weight = s.weight := by
  unfold fill at h
  split at h
  · simp only [Prod.mk.injEq, Except.ok.injEq] at h
    simp [← h.1, ← h.2]
  · rename_i hempty
    have hbuffer : s.buffer = [] := by
      cases hs : s.buffer <;> simp_all
    split at h
    · rename_i piece rest htake
      simp only [Prod.mk.injEq, Except.ok.injEq] at h
      have := Delivery.weight_of_take_eq_ok htake
      simp only [← h.2, h.1, weight, hbuffer, List.length_nil, true_and] at this ⊢
      omega
    · simp at h

/-- Uses up the first byte at hand. -/
def advance (s : Source) : Source :=
  { s with buffer := s.buffer.tail }

/-- The line feed that follows at once, if one does. -/
def takeFeed (s : Source) : Except Error Bytes × Source :=
  match s.fill with
  | (.error e, s') => (.error e, s')
  | (.ok buffer, s') => if buffer.head? = some lf then (.ok [lf], s'.advance) else (.ok [], s')

set_option linter.unusedVariables false in
/-- The next raw line with its ending; no bytes at the end.  A failure takes the
line in progress with it. -/
def takeLine (s : Source) : Except Error Bytes × Source :=
  match hfill : s.fill with
  | (.error e, s') => (.error e, s')
  | (.ok [], s') => (.ok [], s')
  | (.ok (b :: _), s') =>
      if b = lf then (.ok [b], s'.advance)
      else
        let (rest, s'') := if b = cr then s'.advance.takeFeed else s'.advance.takeLine
        (rest.map (b :: ·), s'')
termination_by s.weight
decreasing_by
  obtain ⟨hbuffer, hweight⟩ := weight_of_fill_eq_ok hfill
  simp only [weight, advance, hbuffer, List.tail_cons, List.length_cons] at hweight ⊢
  omega

theorem weight_advance {s : Source} {b : UInt8} {rest : Bytes} (h : s.buffer = b :: rest) :
    s.advance.weight + 1 = s.weight := by
  simp only [weight, advance, h, List.tail_cons, List.length_cons]
  omega

theorem weight_of_takeFeed_eq_ok {s s' : Source} {feed : Bytes} (h : s.takeFeed = (.ok feed, s')) :
    feed.length + s'.weight = s.weight := by
  unfold takeFeed at h
  split at h
  · simp at h
  · rename_i buffer s₁ hfill
    obtain ⟨hbuffer, hweight⟩ := weight_of_fill_eq_ok hfill
    split at h
    · rename_i hhead
      simp only [Prod.mk.injEq, Except.ok.injEq] at h
      obtain ⟨rest, hrest⟩ := List.head?_eq_some_iff.mp hhead
      have := weight_advance (hbuffer.trans hrest)
      simp only [← h.1, ← h.2, List.length_singleton]
      omega
    · simp only [Prod.mk.injEq, Except.ok.injEq] at h
      simp [← h.1, ← h.2, hweight]

/-- The bytes of a line are those that the source lost. -/
theorem weight_of_takeLine_eq_ok {s s' : Source} {line : Bytes} (h : s.takeLine = (.ok line, s')) :
    line.length + s'.weight = s.weight := by
  fun_induction takeLine s generalizing line s' with
  | case1 s e s₁ hfill => simp at h
  | case2 s s₁ hfill =>
      simp only [Prod.mk.injEq, Except.ok.injEq] at h
      simp [← h.1, ← h.2, (weight_of_fill_eq_ok hfill).2]
  | case3 s rest s₁ hfill =>
      obtain ⟨hbuffer, hweight⟩ := weight_of_fill_eq_ok hfill
      have := weight_advance hbuffer
      simp only [Prod.mk.injEq, Except.ok.injEq] at h
      simp only [← h.1, ← h.2, List.length_singleton]
      omega
  | case4 s b rest s₁ hfill hb r s₂ htail ih =>
      obtain ⟨hbuffer, hweight⟩ := weight_of_fill_eq_ok hfill
      have := weight_advance hbuffer
      have htail' : ∀ tail, (r, s₂) = (.ok tail, s₂) →
          tail.length + s₂.weight = s₁.advance.weight := by
        intro tail hr
        rw [← htail] at hr
        split at htail
        · exact weight_of_takeFeed_eq_ok (by simp_all)
        · exact ih (by simp_all)
      cases r with
      | error e => simp [Except.map] at h
      | ok tail =>
          have := htail' tail rfl
          simp only [Except.map, Prod.mk.injEq, Except.ok.injEq] at h
          simp only [← h.1, ← h.2, List.length_cons]
          omega

end Source

end QueryBatch
