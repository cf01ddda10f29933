/-
Lines of a sequence of bytes or characters.  A line ends after a line feed, a
carriage return, or both in that order; a sequence has exactly one decomposition
into such lines.
-/
import Mathlib.Data.List.Chain
import QueryBatch.Text.Basic

namespace QueryBatch.Lines

variable {α : Type}

/-- Neither of the two symbols that end lines occurs. -/
def Unbroken (cr lf : α) (l : List α) : Prop :=
  ∀ x ∈ l, x ≠ cr ∧ x ≠ lf

instance [DecidableEq α] (cr lf : α) (l : List α) : Decidable (Unbroken cr lf l) :=
  inferInstanceAs (Decidable (∀ x ∈ l, x ≠ cr ∧ x ≠ lf))

/-- A line with its ending: both symbols, or one of them. -/
def Ended (cr lf : α) (l : List α) : Prop :=
  ∃ body ending, l = body ++ ending ∧ Unbroken cr lf body ∧
    (ending = [cr, lf] ∨ ending = [lf] ∨ ending = [cr])

/-- A line that has no ending, because the sequence stops in it. -/
def Open (cr lf : α) (l : List α) : Prop :=
  l ≠ [] ∧ Unbroken cr lf l

/-- Two lines between which no ending is cut in two. -/
def Apart (cr lf : α) (l m : List α) : Prop :=
  ¬ (l.getLast? = some cr ∧ m.head? = some lf)

/-- Lines that make up a sequence: each but the last one has an ending. -/
structure Decomposes (cr lf : α) (t : List α) (ls : List (List α)) : Prop where
  flatten_eq : ls.flatten = t
  ended : ∀ l ∈ ls.dropLast, Ended cr lf l
  last : ∀ l ∈ ls.getLast?, Ended cr lf l ∨ Open cr lf l
  apart : ls.IsChain (Apart cr lf)

variable {cr lf : α}

theorem unbroken_cons {x : α} {l : List α} :
    Unbroken cr lf (x :: l) ↔ (x ≠ cr ∧ x ≠ lf) ∧ Unbroken cr lf l := by
  simp [Unbroken]

theorem unbroken_append {l m : List α} :
    Unbroken cr lf (l ++ m) ↔ Unbroken cr lf l ∧ Unbroken cr lf m :=
  List.forall_mem_append

theorem unbroken_iff {l : List α} : Unbroken cr lf l ↔ cr ∉ l ∧ lf ∉ l := by
  constructor
  · intro h
    exact ⟨fun hmem => (h cr hmem).1 rfl, fun hmem => (h lf hmem).2 rfl⟩
  · rintro ⟨hcr, hlf⟩ x hx
    exact ⟨fun heq => hcr (heq ▸ hx), fun heq => hlf (heq ▸ hx)⟩

/-- A sequence without line endings, or what stands before its first one. -/
theorem unbroken_or_exists (cr lf : α) (l : List α) :
    Unbroken cr lf l ∨
      ∃ body x rest, l = body ++ x :: rest ∧ Unbroken cr lf body ∧ (x = cr ∨ x = lf) := by
  induction l with
  | nil => exact Or.inl (by simp [Unbroken])
  | cons y l ih =>
      by_cases hy : y = cr ∨ y = lf
      · exact Or.inr ⟨[], y, l, rfl, by simp [Unbroken], hy⟩
      · rw [not_or] at hy
        rcases ih with hunbroken | ⟨body, x, rest, rfl, hbody, hx⟩
        · exact Or.inl (unbroken_cons.mpr ⟨hy, hunbroken⟩)
        · exact Or.inr ⟨y :: body, x, rest, rfl, unbroken_cons.mpr ⟨hy, hbody⟩, hx⟩

theorem unbroken_of_not_isBlank {t : Text} (ht : ∀ c ∈ t, Text.isBlank c = false) :
    Unbroken '\r' '\n' t :=
  unbroken_iff.mpr ⟨fun hmem => absurd (ht _ hmem) (by decide),
    fun hmem => absurd (ht _ hmem) (by decide)⟩

theorem unbroken_of_all {t : Text} (ht : t.all (fun c => c != '\r' && c != '\n') = true) :
    Unbroken '\r' '\n' t := by
  intro c hc
  simpa using List.all_eq_true.mp ht c hc

theorem Ended.ne_nil {l : List α} (h : Ended cr lf l) : l ≠ [] := by
  obtain ⟨body, ending, rfl, -, rfl | rfl | rfl⟩ := h <;> simp

theorem Ended.cons {x : α} {l : List α} (hx : x ≠ cr ∧ x ≠ lf) (h : Ended cr lf l) :
    Ended cr lf (x :: l) := by
  obtain ⟨body, ending, rfl, hbody, hending⟩ := h
  exact ⟨x :: body, ending, rfl, unbroken_cons.mpr ⟨hx, hbody⟩, hending⟩

theorem Open.cons {x : α} {l : List α} (hx : x ≠ cr ∧ x ≠ lf) (h : Open cr lf l) :
    Open cr lf (x :: l) :=
  ⟨by simp, unbroken_cons.mpr ⟨hx, h.2⟩⟩

/-- A line that starts with a line feed is nothing else. -/
theorem eq_of_head?_eq_lf {l : List α} (hne : cr ≠ lf) (h : Ended cr lf l ∨ Open cr lf l)
    (hhead : l.head? = some lf) : l = [lf] := by
  rcases h with ⟨body, ending, rfl, hbody, hending⟩ | ⟨-, hbody⟩
  · cases body with
    | nil => rcases hending with rfl | rfl | rfl <;> simp_all
    | cons x body =>
        rw [unbroken_cons] at hbody
        exact absurd (Option.some.inj hhead) hbody.1.2
  · cases l with
    | nil => simp at hhead
    | cons x l =>
        rw [unbroken_cons] at hbody
        exact absurd (Option.some.inj hhead) hbody.1.2

theorem apart_cons_iff {x y : α} {l m : List α} :
    Apart cr lf (x :: y :: l) m ↔ Apart cr lf (y :: l) m := by
  simp [Apart]

namespace Decomposes

theorem nil : Decomposes cr lf [] [] :=
  ⟨rfl, by simp, by simp, .nil⟩

/-- The first symbol of a sequence is that of its first line. -/
theorem head?_eq {t l : List α} {ls : List (List α)} (h : Decomposes cr lf t (l :: ls)) :
    t.head? = l.head? := by
  rw [← h.flatten_eq]
  cases l with
  | cons x l => rfl
  | nil =>
      -- an empty line could only be the last one, and it is neither ended nor open
      cases ls with
      | nil =>
          rcases h.last [] (by simp) with hended | hopen
          · exact absurd rfl hended.ne_nil
          · exact absurd rfl hopen.1
      | cons m ls => exact absurd rfl (h.ended [] (by simp)).ne_nil

theorem cons {l u : List α} {ls : List (List α)} (hl : Ended cr lf l)
    (hapart : Apart cr lf l u) (h : Decomposes cr lf u ls) :
    Decomposes cr lf (l ++ u) (l :: ls) := by
  cases ls with
  | nil =>
      have hu : u = [] := by simpa using h.flatten_eq.symm
      exact ⟨by simp [hu], by simp, fun m hm => by simp_all, .singleton l⟩
  | cons m ls =>
      refine ⟨by rw [List.flatten_cons, h.flatten_eq], ?_, ?_, .cons_cons ?_ h.apart⟩
      · intro n hn
        rcases List.mem_cons.mp hn with rfl | hn
        · exact hl
        · exact h.ended n hn
      · exact fun n hn => h.last n (by simpa using hn)
      · rwa [Apart, ← h.head?_eq]

theorem tail {t l : List α} {ls : List (List α)} (h : Decomposes cr lf t (l :: ls)) :
    Decomposes cr lf ls.flatten ls := by
  cases ls with
  | nil => exact .nil
  | cons m ls =>
      refine ⟨rfl, fun n hn => h.ended n (List.mem_cons_of_mem l hn), ?_, ?_⟩
      · exact fun n hn => h.last n (by simpa using hn)
      · exact (List.isChain_cons_cons.mp h.apart).2

theorem append_left {t : List α} {ls ms : List (List α)} (h : Decomposes cr lf t (ls ++ ms)) :
    Decomposes cr lf ls.flatten ls := by
  by_cases hms : ms = []
  · rw [hms, List.append_nil] at h
    exact h.flatten_eq ▸ h
  · have hdrop : (ls ++ ms).dropLast = ls ++ ms.dropLast := List.dropLast_append_of_ne_nil hms
    have hended : ∀ l ∈ ls, Ended cr lf l :=
      fun l hl => h.ended l (hdrop ▸ List.mem_append_left _ hl)
    refine ⟨rfl, ?_, ?_, h.apart.left_of_append⟩
    · exact fun l hl => hended l (List.dropLast_subset ls hl)
    · exact fun l hl => Or.inl (hended l (List.mem_of_getLast? hl))

theorem append_right {t : List α} {ls ms : List (List α)} (h : Decomposes cr lf t (ls ++ ms)) :
    Decomposes cr lf ms.flatten ms := by
  induction ls generalizing t with
  | nil => exact h.flatten_eq ▸ h
  | cons l ls ih => exact ih h.tail

/-- Lines next to each other are the lines of what they make up. -/
theorem of_infix {t : List α} {ls block : List (List α)} (h : Decomposes cr lf t ls)
    (hblock : block <:+: ls) : Decomposes cr lf block.flatten block := by
  obtain ⟨before, after, rfl⟩ := hblock
  exact h.append_left.append_right

theorem ended_or_open {t : List α} {ls : List (List α)} (h : Decomposes cr lf t ls) :
    ∀ l ∈ ls, Ended cr lf l ∨ Open cr lf l := by
  rcases List.eq_nil_or_concat ls with rfl | ⟨before, last, rfl⟩
  · exact List.forall_mem_nil _
  · rw [List.concat_eq_append] at h ⊢
    rw [List.forall_mem_append, List.forall_mem_singleton]
    exact ⟨fun l hl => Or.inl (h.ended l (by simpa using hl)), h.last last (by simp)⟩

/-- A line that others follow ends, and its ending does not go on in them. -/
theorem first {t l : List α} {ls : List (List α)} (h : Decomposes cr lf t (l :: ls))
    (hls : ls ≠ []) : Ended cr lf l ∧ Apart cr lf l ls.flatten := by
  cases ls with
  | nil => exact absurd rfl hls
  | cons m ls =>
      refine ⟨h.ended l (by simp), ?_⟩
      rw [Apart, h.tail.head?_eq]
      exact (List.isChain_cons_cons.mp h.apart).1

theorem singleton {l : List α} (h : Ended cr lf l ∨ Open cr lf l) : Decomposes cr lf l [l] :=
  ⟨by simp, by simp, fun m hm => by simp_all, .singleton l⟩

/-- One more symbol at the start belongs to the first line, if it ends no line. -/
theorem cons_head {x : α} {t l : List α} {ls : List (List α)} (hne : cr ≠ lf)
    (hx : x ≠ lf ∧ (x = cr → t.head? = some lf)) (h : Decomposes cr lf t (l :: ls)) :
    Decomposes cr lf (x :: t) ((x :: l) :: ls) := by
  have hhead := h.head?_eq
  have hended : Ended cr lf l → Ended cr lf (x :: l) := by
    intro hl
    by_cases hcr : x = cr
    · have := eq_of_head?_eq_lf hne (Or.inl hl) (hhead ▸ hx.2 hcr)
      exact ⟨[], [cr, lf], by simp [this, hcr], by simp [Unbroken], Or.inl rfl⟩
    · exact hl.cons ⟨hcr, hx.1⟩
  have hopen : Open cr lf l → Open cr lf (x :: l) := by
    intro hl
    by_cases hcr : x = cr
    · have := eq_of_head?_eq_lf hne (Or.inr hl) (hhead ▸ hx.2 hcr)
      exact absurd rfl (hl.2 lf (by simp [this])).2
    · exact hl.cons ⟨hcr, hx.1⟩
  cases ls with
  | nil =>
      obtain rfl : l = t := by simpa using h.flatten_eq
      exact singleton ((h.last l (by simp)).imp hended hopen)
  | cons m ls =>
      obtain ⟨hapart, hrest⟩ := List.isChain_cons_cons.mp h.apart
      have hl := h.ended l (by simp)
      refine ⟨by rw [← h.flatten_eq]; simp, ?_, ?_, .cons_cons ?_ hrest⟩
      · intro n hn
        rcases List.mem_cons.mp hn with rfl | hn
        · exact hended hl
        · exact h.ended n (List.mem_cons_of_mem l hn)
      · exact fun n hn => h.last n (by simpa using hn)
      · obtain ⟨y, l, rfl⟩ := List.exists_cons_of_ne_nil hl.ne_nil
        exact apart_cons_iff.mpr hapart

end Decomposes

variable [DecidableEq α]

/-- The lines of a sequence, each with its ending. -/
def lines (cr lf : α) : List α → List (List α)
  | [] => []
  | x :: r =>
      if x = lf ∨ (x = cr ∧ r.head? ≠ some lf) then [x] :: lines cr lf r
      else
        match lines cr lf r with
        | [] => [[x]]
        | l :: ls => (x :: l) :: ls

@[simp] theorem lines_nil : lines cr lf [] = [] := rfl

theorem lines_cons_of_end {x : α} {r : List α} (h : x = lf ∨ (x = cr ∧ r.head? ≠ some lf)) :
    lines cr lf (x :: r) = [x] :: lines cr lf r := by
  rw [lines, if_pos h]

theorem lines_cons_of_not_end {x : α} {r : List α}
    (h : ¬ (x = lf ∨ (x = cr ∧ r.head? ≠ some lf))) :
    lines cr lf (x :: r) = (x :: (lines cr lf r).headD []) :: (lines cr lf r).tail := by
  rw [lines, if_neg h]
  cases lines cr lf r <;> rfl

theorem lines_cr_lf_cons {r : List α} (hne : cr ≠ lf) :
    lines cr lf (cr :: lf :: r) = [cr, lf] :: lines cr lf r := by
  rw [lines_cons_of_not_end (by simp [hne]), lines_cons_of_end (Or.inl rfl)]
  rfl

@[simp] theorem flatten_lines (t : List α) : (lines cr lf t).flatten = t := by
  fun_induction lines cr lf t <;> simp_all

theorem lines_eq_nil_iff {t : List α} : lines cr lf t = [] ↔ t = [] := by
  fun_cases lines cr lf t <;> simp_all

theorem nil_notMem_lines (t : List α) : [] ∉ lines cr lf t := by
  fun_induction lines cr lf t <;> simp_all

theorem ne_nil_of_mem_lines {t l : List α} (h : l ∈ lines cr lf t) : l ≠ [] := by
  rintro rfl
  exact nil_notMem_lines t h

theorem ne_nil_of_lines_eq_cons {t l : List α} {ls : List (List α)}
    (h : lines cr lf t = l :: ls) : l ≠ [] :=
  ne_nil_of_mem_lines (h ▸ List.mem_cons_self)

theorem lines_of_open {l : List α} (h : Open cr lf l) : lines cr lf l = [l] := by
  obtain ⟨hne, hbody⟩ := h
  induction l with
  | nil => exact absurd rfl hne
  | cons x l ih =>
      rw [unbroken_cons] at hbody
      cases l with
      | nil => simp [lines, hbody.1]
      | cons y l =>
          rw [lines, ih (by simp) hbody.2]
          simp [hbody.1]

/-- An ended line is cut off, whatever follows, unless its ending goes on there. -/
theorem lines_append_of_ended {l u : List α} (hne : cr ≠ lf) (h : Ended cr lf l)
    (hapart : Apart cr lf l u) : lines cr lf (l ++ u) = l :: lines cr lf u := by
  obtain ⟨body, ending, rfl, hbody, hending⟩ := h
  induction body with
  | nil =>
      rcases hending with rfl | rfl | rfl
      · simp [lines, hne]
      · simp [lines]
      · have hhead : u.head? ≠ some lf := by simpa [Apart] using hapart
        simp [lines, hhead]
  | cons x body ih =>
      rw [unbroken_cons] at hbody
      have hrest : Apart cr lf (body ++ ending) u := by
        rcases hending with rfl | rfl | rfl <;> cases body <;> simp_all [Apart]
      rw [List.cons_append, List.cons_append, lines, ih hrest hbody.2]
      simp [hbody.1]

theorem lines_of_ended {l : List α} (hne : cr ≠ lf) (h : Ended cr lf l) :
    lines cr lf l = [l] := by
  simpa using lines_append_of_ended (u := []) hne h (by simp [Apart])

theorem decomposes_lines (hne : cr ≠ lf) (t : List α) : Decomposes cr lf t (lines cr lf t) := by
  fun_induction lines cr lf t with
  | case1 => exact .nil
  | case2 x r hx ih =>
      refine ih.cons (l := [x]) ?_ ?_
      · rcases hx with rfl | ⟨rfl, -⟩
        · exact ⟨[], [x], rfl, by simp [Unbroken], by simp⟩
        · exact ⟨[], [x], rfl, by simp [Unbroken], by simp⟩
      · rcases hx with rfl | ⟨rfl, hhead⟩
        · simp [Apart, Ne.symm hne]
        · simp [Apart, hhead]
  | case3 x r hx hnil ih =>
      obtain rfl := lines_eq_nil_iff.mp hnil
      refine .singleton (Or.inr ⟨by simp, ?_⟩)
      simpa [Unbroken, and_comm] using hx
  | case4 x r hx l ls hls ih =>
      rw [hls] at ih
      refine ih.cons_head hne ⟨?_, ?_⟩
      · exact fun h => hx (Or.inl h)
      · exact fun h => by_contra fun hhead => hx (Or.inr ⟨h, hhead⟩)

/-- A sequence decomposes in one way only. -/
theorem Decomposes.eq_lines {t : List α} {ls : List (List α)} (hne : cr ≠ lf)
    (h : Decomposes cr lf t ls) : ls = lines cr lf t := by
  induction ls generalizing t with
  | nil => simp [← h.flatten_eq]
  | cons l ls ih =>
      cases ls with
      | nil =>
          obtain rfl : l = t := by simpa using h.flatten_eq
          rcases h.last l (by simp) with hended | hopen
          · exact (lines_of_ended hne hended).symm
          · exact (lines_of_open hopen).symm
      | cons m ls =>
          obtain ⟨hended, hapart⟩ := h.first (by simp)
          rw [← h.flatten_eq, List.flatten_cons, lines_append_of_ended hne hended hapart,
            ← ih h.tail]

/-- What follows the first line has the other lines. -/
theorem lines_flatten_tail {t l : List α} {ls : List (List α)} (hne : cr ≠ lf)
    (h : lines cr lf t = l :: ls) : lines cr lf ls.flatten = ls :=
  ((h ▸ decomposes_lines hne t).tail.eq_lines hne).symm

/-- What is put behind a sequence goes on in its last line. -/
theorem lines_append_of_last {t u last : List α} {before : List (List α)} (hne : cr ≠ lf)
    (h : lines cr lf t = before ++ [last]) :
    lines cr lf (t ++ u) = before ++ lines cr lf (last ++ u) := by
  induction before generalizing t with
  | nil =>
      have hflatten : (lines cr lf t).flatten = t := flatten_lines t
      obtain rfl : last = t := by simpa [h] using hflatten
      rfl
  | cons l before ih =>
      rw [List.cons_append] at h
      have hdecomposes := decomposes_lines hne t
      rw [h] at hdecomposes
      obtain ⟨hended, hapart⟩ := hdecomposes.first (by simp)
      have htail := lines_flatten_tail hne h
      have hrest : (before ++ [last]).flatten ≠ [] := by
        intro hnil
        simp [hnil] at htail
      have hapart' : Apart cr lf l ((before ++ [last]).flatten ++ u) := by
        rwa [Apart, List.head?_append_of_ne_nil _ hrest]
      rw [← hdecomposes.flatten_eq, List.flatten_cons, List.append_assoc,
        lines_append_of_ended hne hended hapart', ih htail, List.cons_append]

/-- A line behind which more is put is the start of the first line of both. -/
theorem prefix_of_lines_append {l u m : List α} {ms : List (List α)} (hne : cr ≠ lf)
    (hl : lines cr lf l = [l]) (h : lines cr lf (l ++ u) = m :: ms) : l <+: m := by
  have hdecomposes := decomposes_lines hne (l ++ u)
  rw [h] at hdecomposes
  have hjoined : m ++ ms.flatten = l ++ u := hdecomposes.flatten_eq
  rcases Nat.le_total l.length m.length with hle | hle
  · exact List.prefix_of_prefix_length_le ⟨u, rfl⟩ ⟨ms.flatten, hjoined⟩ hle
  · obtain ⟨rest, rfl⟩ := List.prefix_of_prefix_length_le ⟨ms.flatten, hjoined⟩ ⟨u, rfl⟩ hle
    by_cases hrest : rest = []
    · simp [hrest]
    -- the shorter line would be a line of its own
    rw [List.append_assoc] at hjoined
    have hms : ms.flatten = rest ++ u := List.append_cancel_left hjoined
    have hnonempty : ms ≠ [] := by
      rintro rfl
      simp [hrest] at hms
    obtain ⟨hended, hapart⟩ := hdecomposes.first hnonempty
    rw [hms, Apart, List.head?_append_of_ne_nil _ hrest] at hapart
    rw [lines_append_of_ended hne hended hapart, List.cons.injEq] at hl
    exact absurd (lines_eq_nil_iff.mp hl.2) hrest

/-- A line of a sequence behind which more is put is the start of a line of both, and that
line starts where it does. -/
theorem exists_line_of_mem_lines {t l : List α} (hne : cr ≠ lf) (h : l ∈ lines cr lf t)
    (u : List α) :
    ∃ before m after, lines cr lf (t ++ u) = before ++ m :: after ∧ l <+: m ∧
      before.flatten ++ l <+: t := by
  obtain ⟨before, after, hls⟩ := List.append_of_mem h
  have hjoined : (lines cr lf t).flatten = t := flatten_lines t
  rw [hls] at hjoined
  have hstart : before.flatten ++ l <+: t := ⟨after.flatten, by rw [← hjoined]; simp⟩
  rcases List.eq_nil_or_concat after with rfl | ⟨others, last, rfl⟩
  · have hrest : lines cr lf (l ++ u) ≠ [] := by
      rw [Ne, lines_eq_nil_iff, List.append_eq_nil_iff]
      exact fun hnil => ne_nil_of_mem_lines h hnil.1
    obtain ⟨m, ms, hm⟩ := List.exists_cons_of_ne_nil hrest
    have hl : lines cr lf l = [l] := by
      have hdecomposes := (hls ▸ decomposes_lines hne t).append_right
      rw [List.flatten_singleton] at hdecomposes
      exact (hdecomposes.eq_lines hne).symm
    refine ⟨before, m, ms, ?_, prefix_of_lines_append hne hl hm, hstart⟩
    rw [lines_append_of_last hne hls, hm]
  · rw [List.concat_eq_append, ← List.cons_append, ← List.append_assoc] at hls
    refine ⟨before, l, others ++ lines cr lf (last ++ u), ?_, List.prefix_rfl, hstart⟩
    rw [lines_append_of_last hne hls, List.append_assoc, List.cons_append]

/-- After a line feed everything starts afresh. -/
theorem lines_append_of_getLast? {t u : List α} (hne : cr ≠ lf) (h : t.getLast? = some lf) :
    lines cr lf (t ++ u) = lines cr lf t ++ lines cr lf u := by
  rcases List.eq_nil_or_concat (lines cr lf t) with hnil | ⟨before, last, hls⟩
  · simp [lines_eq_nil_iff.mp hnil] at h
  · rw [List.concat_eq_append] at hls
    have hlast : last ≠ [] := by
      rintro rfl
      exact nil_notMem_lines t (by rw [hls]; simp)
    have hfeed : last.getLast? = some lf := by
      have hflatten : (lines cr lf t).flatten = t := flatten_lines t
      rw [hls, List.flatten_append, List.flatten_singleton] at hflatten
      rwa [← hflatten, List.getLast?_append_of_ne_nil _ hlast] at h
    have hended : Ended cr lf last := by
      rcases (decomposes_lines hne t).last last (by simp [hls]) with hended | hopen
      · exact hended
      · exact absurd rfl (hopen.2 lf (List.mem_of_getLast? hfeed)).2
    have hapart : Apart cr lf last u := by
      simp [Apart, hfeed, Ne.symm hne]
    rw [lines_append_of_last hne hls, lines_append_of_ended hne hended hapart, hls,
      List.append_assoc, List.singleton_append]

/-- An ending behind a sequence is a line of its own or ends the line left open. -/
theorem lines_append_ending (hne : cr ≠ lf) (t : List α) :
    lines cr lf (t ++ [cr, lf]) = lines cr lf t ++ [[cr, lf]] ∨
      ∃ before last, lines cr lf t = before ++ [last] ∧
        lines cr lf (t ++ [cr, lf]) = before ++ [last ++ [cr, lf]] := by
  have hending : lines cr lf [cr, lf] = [[cr, lf]] := lines_cr_lf_cons hne
  rcases List.eq_nil_or_concat (lines cr lf t) with hnil | ⟨before, last, hls⟩
  · left
    rw [lines_eq_nil_iff.mp hnil, List.nil_append, hending]
    rfl
  · rw [List.concat_eq_append] at hls
    rw [lines_append_of_last hne hls]
    rcases (decomposes_lines hne t).last last (by simp [hls]) with hended | hopen
    · left
      have hapart : Apart cr lf last [cr, lf] := by
        simp [Apart, hne]
      rw [lines_append_of_ended hne hended hapart, hending, hls, List.append_assoc,
        List.singleton_append]
    · right
      have hended : Ended cr lf (last ++ [cr, lf]) := ⟨last, [cr, lf], rfl, hopen.2, Or.inl rfl⟩
      exact ⟨before, last, hls, by rw [lines_of_ended hne hended]⟩

/-- What holds of an ending alone and of a line behind which an ending is put holds of the
lines of a sequence behind which one is put. -/
theorem forall_mem_lines_append_ending {P : List α → Prop} (hne : cr ≠ lf) (hending : P [cr, lf])
    (happend : ∀ l, P l → P (l ++ [cr, lf])) {t : List α} (ht : ∀ l ∈ lines cr lf t, P l) :
    ∀ l ∈ lines cr lf (t ++ [cr, lf]), P l := by
  rcases lines_append_ending hne t with heq | ⟨before, last, hls, heq⟩
  · rw [heq, List.forall_mem_append]
    exact ⟨ht, List.forall_mem_singleton.mpr hending⟩
  · rw [hls, List.forall_mem_append] at ht
    rw [heq, List.forall_mem_append]
    exact ⟨ht.1, List.forall_mem_singleton.mpr (happend last (ht.2 last List.mem_cons_self))⟩

/-- What holds of the lines of a sequence behind which an ending is put holds of the lines
without it, if it holds of a line whenever it does with the ending. -/
theorem forall_mem_lines_of_append_ending {P : List α → Prop} (hne : cr ≠ lf)
    (hcut : ∀ l, P (l ++ [cr, lf]) → P l) {t : List α}
    (ht : ∀ l ∈ lines cr lf (t ++ [cr, lf]), P l) : ∀ l ∈ lines cr lf t, P l := by
  rcases lines_append_ending hne t with heq | ⟨before, last, hls, heq⟩
  · rw [heq, List.forall_mem_append] at ht
    exact ht.1
  · rw [heq, List.forall_mem_append, List.forall_mem_singleton] at ht
    rw [hls, List.forall_mem_append, List.forall_mem_singleton]
    exact ⟨ht.1, hcut last ht.2⟩

theorem decomposes_iff {t : List α} {ls : List (List α)} (hne : cr ≠ lf) :
    Decomposes cr lf t ls ↔ ls = lines cr lf t :=
  ⟨Decomposes.eq_lines hne, fun h => h ▸ decomposes_lines hne t⟩

end QueryBatch.Lines
