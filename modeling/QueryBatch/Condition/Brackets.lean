/-
Brackets and the separators outside them.  Splitting cuts a text at the separators
of one kind that stand outside all brackets; the pieces rejoin to the text.
-/
import QueryBatch.Text.Basic

namespace QueryBatch.Brackets

/-- The number of open brackets after one more character; a bracket that closes
nothing leaves none open. -/
def next (depth : Nat) (c : Char) : Nat :=
  if c = '(' then depth + 1 else if c = ')' then depth - 1 else depth

/-- The number of brackets left open at the end of a text, or the byte position of
the first bracket that closes nothing.  The text starts at the given position,
inside the given number of brackets. -/
def depthAfter (depth position : Nat) : Text → Except Nat Nat
  | [] => .ok depth
  | c :: r =>
      if c = ')' ∧ depth = 0 then .error position
      else depthAfter (next depth c) (position + c.utf8Size) r

/-- A text whose brackets match. -/
def Balanced (t : Text) : Prop :=
  depthAfter 0 0 t = .ok 0

/-- The pieces of a text between the separators outside brackets; the text starts
inside the given number of brackets. -/
def splitFrom (separator : Char) (depth : Nat) : Text → List Text
  | [] => [[]]
  | c :: r =>
      if c = separator ∧ depth = 0 then [] :: splitFrom separator depth r
      else
        match splitFrom separator (next depth c) r with
        | [] => [[c]]
        | piece :: pieces => (c :: piece) :: pieces

/-- The pieces of a text between the separators outside brackets. -/
def split (separator : Char) (t : Text) : List Text :=
  splitFrom separator 0 t

theorem splitFrom_ne_nil (separator : Char) (depth : Nat) (t : Text) :
    splitFrom separator depth t ≠ [] := by
  fun_induction splitFrom separator depth t <;> simp

theorem intercalate_splitFrom (separator : Char) (depth : Nat) (t : Text) :
    [separator].intercalate (splitFrom separator depth t) = t := by
  fun_induction splitFrom separator depth t with
  | case1 => rfl
  | case2 depth c r h ih =>
      obtain ⟨rfl, rfl⟩ := h
      cases hs : splitFrom c 0 r with
      | nil => exact absurd hs (splitFrom_ne_nil c 0 r)
      | cons piece pieces =>
          rw [hs] at ih
          simp only [List.intercalate, List.intersperse_cons_cons, List.flatten_cons] at ih ⊢
          simp [ih]
  | case3 depth c r _ hs => exact absurd hs (splitFrom_ne_nil _ _ _)
  | case4 depth c r _ piece pieces hs ih =>
      rw [hs] at ih
      cases pieces with
      | nil => simpa [List.intercalate] using ih
      | cons p ps =>
          simp only [List.intercalate, List.intersperse_cons_cons, List.flatten_cons] at ih ⊢
          simp [← ih]

/-- Rejoined, the pieces are the text: nothing is lost and nothing added. -/
theorem intercalate_split (separator : Char) (t : Text) :
    [separator].intercalate (split separator t) = t :=
  intercalate_splitFrom separator 0 t

theorem length_le_of_mem_splitFrom {separator : Char} {depth : Nat} {t piece : Text}
    (h : piece ∈ splitFrom separator depth t) : piece.length ≤ t.length := by
  fun_induction splitFrom separator depth t generalizing piece with
  | case1 => simp_all
  | case2 depth c r _ ih =>
      rcases List.mem_cons.mp h with rfl | h
      · simp
      · have := ih h
        simp only [List.length_cons]
        omega
  | case3 depth c r _ hs => exact absurd hs (splitFrom_ne_nil _ _ _)
  | case4 depth c r _ first pieces hs ih =>
      rw [hs] at ih
      rcases List.mem_cons.mp h with rfl | h
      · have := ih List.mem_cons_self
        simp only [List.length_cons]
        omega
      · have := ih (List.mem_cons_of_mem first h)
        simp only [List.length_cons]
        omega

theorem length_le_of_mem_split {separator : Char} {t piece : Text}
    (h : piece ∈ split separator t) : piece.length ≤ t.length :=
  length_le_of_mem_splitFrom h

end QueryBatch.Brackets
