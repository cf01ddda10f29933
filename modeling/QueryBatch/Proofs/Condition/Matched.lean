/-
Texts whose brackets match, and the separators outside their brackets.  Splitting at
these separators gives the only pieces that hold none of them.
-/
import Mathlib.Logic.Basic
import QueryBatch.Condition.Brackets

namespace QueryBatch.Brackets

/-- A text whose brackets match: each that opens closes later, around a text of the
same kind. -/
inductive Matched : Text → Prop
  | nil : Matched []
  | cons {c : Char} {t : Text} (hc : c ≠ '(' ∧ c ≠ ')') (ht : Matched t) : Matched (c :: t)
  | group {t u : Text} (ht : Matched t) (hu : Matched u) : Matched ('(' :: t ++ ')' :: u)

/-- A text that has no such separator outside its brackets. -/
def Undivided (separator : Char) (t : Text) : Prop :=
  ∀ before after, t = before ++ separator :: after → ¬ Matched before

/-- The pieces of a text between the separators outside its brackets. -/
inductive Pieces (separator : Char) : Text → List Text → Prop
  | last {t : Text} (ht : Matched t) (hdiv : Undivided separator t) : Pieces separator t [t]
  | more {t u : Text} {ps : List Text} (ht : Matched t) (hdiv : Undivided separator t)
      (hu : Pieces separator u ps) : Pieces separator (t ++ separator :: u) (t :: ps)

/-- The brackets open at the end of a text that starts inside some; none if a bracket
closes nothing. -/
def depth? (depth : Nat) : Text → Option Nat
  | [] => some depth
  | c :: r => if c = ')' ∧ depth = 0 then none else depth? (next depth c) r

theorem depthAfter_eq_ok_iff {depth position n : Nat} {t : Text} :
    depthAfter depth position t = .ok n ↔ depth? depth t = some n := by
  fun_induction depthAfter depth position t with
  | case1 => simp [depth?]
  | case2 depth position c r h => simp [depth?, h]
  | case3 depth position c r h ih => rw [depth?, if_neg h, ih]

theorem depth?_append (depth : Nat) (s t : Text) :
    depth? depth (s ++ t) = (depth? depth s).bind fun n => depth? n t := by
  induction s generalizing depth with
  | nil => rfl
  | cons c s ih =>
      by_cases hclose : c = ')' ∧ depth = 0
      · simp [depth?, hclose]
      · rw [List.cons_append, depth?, depth?, if_neg hclose, if_neg hclose, ih]

theorem next_add {depth : Nat} {c : Char} (k : Nat) (h : ¬ (c = ')' ∧ depth = 0)) :
    next (depth + k) c = next depth c + k := by
  unfold next
  split
  · omega
  · split
    · have : depth ≠ 0 := fun hzero => h ⟨by assumption, hzero⟩
      omega
    · rfl

/-- More brackets open at the start are open at the end too. -/
theorem depth?_add {depth n : Nat} {t : Text} (k : Nat) (h : depth? depth t = some n) :
    depth? (depth + k) t = some (n + k) := by
  induction t generalizing depth with
  | nil => simpa [depth?] using h
  | cons c t ih =>
      rw [depth?] at h ⊢
      split at h
      · simp at h
      · rename_i hclose
        rw [if_neg fun hzero => hclose ⟨hzero.1, by omega⟩, next_add k hclose]
        exact ih h

theorem Matched.depth?_eq {t : Text} (h : Matched t) (depth : Nat) :
    depth? depth t = some depth := by
  induction h generalizing depth with
  | nil => rfl
  | cons hc _ ih => simp [depth?, next, hc, ih]
  | group _ _ iht ihu =>
      rw [depth?_append, depth?, if_neg (by simp), next, if_pos rfl, iht]
      simp [depth?, next, ihu]

/-- What stands before the bracket that closes an open one. -/
theorem exists_close {depth : Nat} {t : Text} (h : depth? (depth + 1) t = some 0) :
    ∃ s u, t = s ++ ')' :: u ∧ depth? 0 s = some 0 ∧ depth? depth u = some 0 := by
  induction hn : t.length using Nat.strongRecOn generalizing t depth with
  | ind n ih =>
      cases t with
      | nil => simp [depth?] at h
      | cons c r =>
          have hlen : r.length < n := by simp at hn; omega
          rw [depth?, if_neg (by omega)] at h
          by_cases hopen : c = '('
          · -- the bracket that closes `c` comes first, then the one that is sought
            obtain ⟨s, u, rfl, hs, hu⟩ := ih _ hlen (by simpa [next, hopen] using h) rfl
            obtain ⟨s', u', rfl, hs', hu'⟩ := ih u.length (by simp at hlen; omega) hu rfl
            refine ⟨'(' :: s ++ ')' :: s', u', by simp [hopen], ?_, hu'⟩
            rw [depth?_append, depth?, if_neg (by simp), next, if_pos rfl]
            simp [depth?_add 1 hs, depth?, next, hs']
          · by_cases hclose : c = ')'
            · exact ⟨[], r, by simp [hclose], rfl, by simpa [next, hclose] using h⟩
            · obtain ⟨s, u, rfl, hs, hu⟩ := ih _ hlen (by simpa [next, hopen, hclose] using h) rfl
              exact ⟨c :: s, u, rfl, by simpa [depth?, next, hopen, hclose] using hs, hu⟩

theorem matched_of_depth?_eq {t : Text} (h : depth? 0 t = some 0) : Matched t := by
  induction hn : t.length using Nat.strongRecOn generalizing t with
  | ind n ih =>
      cases t with
      | nil => exact .nil
      | cons c r =>
          have hlen : r.length < n := by simp at hn; omega
          rw [depth?] at h
          split at h
          · simp at h
          · rename_i hclose
            by_cases hopen : c = '('
            · have hinside : depth? (0 + 1) r = some 0 := by simpa [next, hopen] using h
              obtain ⟨s, u, rfl, hs, hu⟩ := exists_close hinside
              rw [hopen]
              simp only [List.length_append, List.length_cons] at hlen
              exact .group (ih _ (by omega) hs rfl) (ih _ (by omega) hu rfl)
            · have hne : c ≠ ')' := fun hc => hclose ⟨hc, rfl⟩
              exact .cons ⟨hopen, hne⟩ (ih _ hlen (by simpa [next, hopen, hne] using h) rfl)

theorem matched_iff_depth? {t : Text} : Matched t ↔ depth? 0 t = some 0 :=
  ⟨fun h => h.depth?_eq 0, matched_of_depth?_eq⟩

theorem balanced_iff_matched {t : Text} : Balanced t ↔ Matched t := by
  rw [Balanced, depthAfter_eq_ok_iff, matched_iff_depth?]

theorem Matched.append {s t : Text} (hs : Matched s) (ht : Matched t) : Matched (s ++ t) := by
  rw [matched_iff_depth?, depth?_append, hs.depth?_eq 0]
  exact ht.depth?_eq 0

theorem Matched.of_append {s t : Text} (h : Matched (s ++ t)) (hs : Matched s) : Matched t := by
  rw [matched_iff_depth?, depth?_append, hs.depth?_eq 0] at h
  exact matched_of_depth?_eq h

theorem Matched.append_cons {c : Char} {s t : Text} (hc : c ≠ '(' ∧ c ≠ ')') (hs : Matched s)
    (ht : Matched t) : Matched (s ++ c :: t) :=
  hs.append (.cons hc ht)

theorem Matched.of_append_cons {c : Char} {s t : Text} (hc : c ≠ '(' ∧ c ≠ ')')
    (h : Matched (s ++ c :: t)) (hs : Matched s) : Matched t := by
  rw [List.append_cons] at h
  exact h.of_append (hs.append_cons hc .nil)

theorem Matched.of_concat {c : Char} {s : Text} (hc : c ≠ '(' ∧ c ≠ ')') (h : Matched (s ++ [c])) :
    Matched s := by
  rw [matched_iff_depth?, depth?_append] at h
  obtain ⟨n, hn, hlast⟩ := Option.bind_eq_some_iff.mp h
  obtain rfl : n = 0 := by simpa [depth?, next, hc] using hlast
  exact matched_of_depth?_eq hn

theorem Undivided.append_cons {separator other : Char} {t u : Text}
    (hsep : separator ≠ '(' ∧ separator ≠ ')') (hne : other ≠ separator) (ht : Matched t)
    (htdiv : Undivided other t) (hudiv : Undivided other u) :
    Undivided other (t ++ separator :: u) := by
  intro before after heq hbefore
  rcases List.append_eq_append_iff.mp heq with ⟨rest, rfl, hrest⟩ | ⟨rest, rfl, hrest⟩
  · cases rest with
    | nil => exact hne (List.cons.inj hrest).1.symm
    | cons c rest =>
        obtain ⟨rfl, rfl⟩ := List.cons.inj hrest
        exact hudiv rest after rfl (hbefore.of_append_cons hsep ht)
  · cases rest with
    | nil => exact hne (List.cons.inj hrest).1
    | cons c rest =>
        obtain ⟨rfl, -⟩ := List.cons.inj hrest
        exact htdiv before rest rfl hbefore

/-- A bracket before the start of a matched text is not closed within it. -/
theorem not_matched_open {s t : Text} (h : Matched (s ++ t)) : ¬ Matched ('(' :: s) := by
  intro hs
  rw [matched_iff_depth?, depth?_append] at h
  obtain ⟨n, hn, -⟩ := Option.bind_eq_some_iff.mp h
  have hopen := hs.depth?_eq 0
  rw [depth?, if_neg (by simp), next, if_pos rfl, depth?_add 1 hn] at hopen
  simp at hopen

section

variable {separator : Char} {depth : Nat} {t u : Text}

/-- No separator of a text that starts inside some brackets stands outside all of them. -/
private theorem ne_separator_of_undivided {c : Char}
    (hdiv : ∀ before after, c :: t = before ++ separator :: after →
      depth? depth before ≠ some 0) : ¬ (c = separator ∧ depth = 0) := by
  rintro ⟨rfl, rfl⟩
  exact hdiv [] t rfl rfl

private theorem undivided_tail {c : Char} (hclose : ¬ (c = ')' ∧ depth = 0))
    (hdiv : ∀ before after, c :: t = before ++ separator :: after →
      depth? depth before ≠ some 0) :
    ∀ before after, t = before ++ separator :: after →
      depth? (next depth c) before ≠ some 0 := by
  rintro before after rfl h
  exact hdiv (c :: before) after rfl (by rwa [depth?, if_neg hclose])

theorem splitFrom_of_undivided (h : depth? depth t = some 0)
    (hdiv : ∀ before after, t = before ++ separator :: after → depth? depth before ≠ some 0) :
    splitFrom separator depth t = [t] := by
  induction t generalizing depth with
  | nil => rfl
  | cons c t ih =>
      rw [depth?] at h
      split at h
      · simp at h
      · rename_i hclose
        rw [splitFrom, if_neg (ne_separator_of_undivided hdiv),
          ih h (undivided_tail hclose hdiv)]

theorem splitFrom_append (h : depth? depth t = some 0)
    (hdiv : ∀ before after, t = before ++ separator :: after → depth? depth before ≠ some 0) :
    splitFrom separator depth (t ++ separator :: u) = t :: splitFrom separator 0 u := by
  induction t generalizing depth with
  | nil =>
      obtain rfl : depth = 0 := by simpa [depth?] using h
      simp [splitFrom]
  | cons c t ih =>
      rw [depth?] at h
      split at h
      · simp at h
      · rename_i hclose
        rw [List.cons_append, splitFrom, if_neg (ne_separator_of_undivided hdiv),
          ih h (undivided_tail hclose hdiv)]

end

namespace Pieces

variable {separator : Char} {t : Text} {ps : List Text}

/-- Splitting gives the pieces of a text. -/
theorem split_eq (h : Pieces separator t ps) : split separator t = ps := by
  induction h with
  | last ht hdiv =>
      exact splitFrom_of_undivided (ht.depth?_eq 0)
        fun before after heq hzero => hdiv before after heq (matched_of_depth?_eq hzero)
  | more ht hdiv _ ih =>
      rw [split, splitFrom_append (ht.depth?_eq 0)
        fun before after heq hzero => hdiv before after heq (matched_of_depth?_eq hzero)]
      exact congrArg _ ih

theorem matched (h : Pieces separator t ps) : ∀ p ∈ ps, Matched p := by
  induction h with
  | last ht _ => simpa using ht
  | more ht _ _ ih => exact List.forall_mem_cons.mpr ⟨ht, ih⟩

theorem undivided (h : Pieces separator t ps) : ∀ p ∈ ps, Undivided separator p := by
  induction h with
  | last _ hdiv => simpa using hdiv
  | more _ hdiv _ ih => exact List.forall_mem_cons.mpr ⟨hdiv, ih⟩

/-- The brackets of a text match if those of its pieces do. -/
theorem matched_text (hsep : separator ≠ '(' ∧ separator ≠ ')') (h : Pieces separator t ps) :
    Matched t := by
  induction h with
  | last ht _ => exact ht
  | more ht _ _ ih => exact ht.append_cons hsep ih

/-- A text is free of another separator if its pieces are. -/
theorem undivided_text {other : Char} (hsep : separator ≠ '(' ∧ separator ≠ ')')
    (hne : other ≠ separator) (h : Pieces separator t ps)
    (hother : ∀ p ∈ ps, Undivided other p) : Undivided other t := by
  induction h with
  | last _ _ => exact hother _ List.mem_cons_self
  | more ht _ _ ih =>
      rw [List.forall_mem_cons] at hother
      exact hother.1.append_cons hsep hne ht (ih hother.2)

/-- Pieces keep being free of another separator. -/
theorem undivided_of_undivided {other : Char} (hsep : separator ≠ '(' ∧ separator ≠ ')')
    (h : Pieces separator t ps) (hother : Undivided other t) : ∀ p ∈ ps, Undivided other p := by
  induction h with
  | last _ _ => simpa using hother
  | @more t u ps ht _ _ ih =>
      refine List.forall_mem_cons.mpr ⟨?_, ih ?_⟩
      · rintro before after rfl
        exact hother before (after ++ separator :: u) (by simp)
      · rintro before after rfl hbefore
        exact hother (t ++ separator :: before) after (by simp) (ht.append_cons hsep hbefore)

end Pieces

theorem exists_of_not_undivided {separator : Char} {t : Text} (h : ¬ Undivided separator t) :
    ∃ before after, t = before ++ separator :: after ∧ Matched before := by
  simpa only [Undivided, not_forall, not_not, exists_prop] using h

/-- The first separator outside brackets, if there is any. -/
theorem exists_first {separator : Char} {t before after : Text}
    (heq : t = before ++ separator :: after) (h : Matched before) :
    ∃ first rest, t = first ++ separator :: rest ∧ Matched first ∧ Undivided separator first := by
  induction hn : before.length using Nat.strongRecOn generalizing before after with
  | ind n ih =>
      by_cases hdiv : Undivided separator before
      · exact ⟨before, after, heq, h, hdiv⟩
      · obtain ⟨shorter, rest, hbefore, hshorter⟩ := exists_of_not_undivided hdiv
        have hlen : shorter.length < n := by
          rw [← hn, hbefore]
          simp
        have hcut : t = shorter ++ separator :: (rest ++ separator :: after) := by
          rw [heq, hbefore]
          simp
        exact ih shorter.length hlen hcut hshorter rfl

theorem pieces_split {separator : Char} {t : Text} (hsep : separator ≠ '(' ∧ separator ≠ ')')
    (h : Matched t) : Pieces separator t (split separator t) := by
  suffices hex : ∃ ps, Pieces separator t ps by
    obtain ⟨ps, hps⟩ := hex
    rwa [hps.split_eq]
  induction hn : t.length using Nat.strongRecOn generalizing t with
  | ind n ih =>
      by_cases hdiv : Undivided separator t
      · exact ⟨[t], .last h hdiv⟩
      · obtain ⟨before, after, heq, hbefore⟩ := exists_of_not_undivided hdiv
        obtain ⟨first, rest, rfl, hfirst, hdiv⟩ := exists_first heq hbefore
        have hrest : Matched rest := h.of_append_cons hsep hfirst
        obtain ⟨ps, hps⟩ := ih rest.length (by rw [← hn]; simp; omega) hrest rfl
        exact ⟨first :: ps, .more hfirst hdiv hps⟩

end QueryBatch.Brackets
