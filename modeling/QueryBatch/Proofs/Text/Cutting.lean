/-
Cutting text: blanks off its ends, and pieces at its separators.  Blanks around a text
change neither what trimming leaves of it nor what it leaves of the pieces.
-/
import Mathlib.Data.Bool.AllAny
import QueryBatch.Text.Basic

namespace QueryBatch.Text

theorem dropEndWhile_append {p : Char → Bool} {t u : Text} (hu : u.all p = true) :
    dropEndWhile p (t ++ u) = dropEndWhile p t := by
  have hall : ∀ c ∈ u.reverse, p c = true :=
    fun c hc => List.all_eq_true.mp hu c (List.mem_reverse.mp hc)
  rw [dropEndWhile, List.reverse_append, List.dropWhile_append_of_pos hall, dropEndWhile]

theorem exists_dropEndWhile (p : Char → Bool) (t : Text) :
    ∃ u, u.all p = true ∧ t = dropEndWhile p t ++ u := by
  refine ⟨(t.reverse.takeWhile p).reverse, ?_, ?_⟩
  · rw [List.all_reverse]
    exact List.all_takeWhile
  · rw [dropEndWhile, ← List.reverse_append, List.takeWhile_append_dropWhile,
      List.reverse_reverse]

theorem mem_of_mem_dropEndWhile {p : Char → Bool} {t : Text} {c : Char}
    (h : c ∈ dropEndWhile p t) : c ∈ t := by
  obtain ⟨u, -, heq⟩ := exists_dropEndWhile p t
  rw [heq]
  exact List.mem_append_left u h

theorem mem_dropEndWhile_cons {p : Char → Bool} {t : Text} {c : Char} (d : Char)
    (h : c ∈ dropEndWhile p t) : c ∈ dropEndWhile p (d :: t) := by
  have hrest : t.reverse.dropWhile p ≠ [] := by
    intro hnil
    simp [dropEndWhile, hnil] at h
  rw [dropEndWhile, List.reverse_cons, List.dropWhile_append,
    if_neg (by simpa using hrest), List.reverse_append]
  exact List.mem_append_right _ h

theorem dropEndWhile_eq_self {p : Char → Bool} {t : Text} (ht : ∀ c ∈ t.getLast?, p c = false) :
    dropEndWhile p t = t := by
  rcases List.eq_nil_or_concat t with rfl | ⟨u, c, rfl⟩
  · rfl
  · rw [List.concat_eq_append] at ht ⊢
    have hc : p c = false := ht c (by simp)
    simp [dropEndWhile, hc]

theorem trim_append_left {t u : Text} (hu : allBlank u = true) : trim (u ++ t) = trim t := by
  rw [trim, trimWhile, List.dropWhile_append_of_pos (List.all_eq_true.mp hu), trim, trimWhile]

theorem trim_append_right {t u : Text} (hu : allBlank u = true) : trim (t ++ u) = trim t := by
  have hnil : u.dropWhile isBlank = [] := by
    rw [← List.append_nil u, List.dropWhile_append_of_pos (List.all_eq_true.mp hu)]
    rfl
  unfold trim trimWhile
  rw [List.dropWhile_append]
  cases hdrop : t.dropWhile isBlank with
  | nil => simp [hnil]
  | cons c r => simpa using dropEndWhile_append (t := c :: r) hu

theorem not_of_mem_getLast?_dropEndWhile {p : Char → Bool} {t : Text} {c : Char}
    (hc : c ∈ (dropEndWhile p t).getLast?) : p c = false := by
  rw [dropEndWhile, List.getLast?_reverse] at hc
  have hfirst := List.head?_dropWhile_not p t.reverse
  rw [hc] at hfirst
  exact hfirst

/-- What is left is what stands before the longest such ending. -/
theorem dropEndWhile_eq_iff {p : Char → Bool} {t s : Text} :
    dropEndWhile p t = s ↔
      ∃ u, t = s ++ u ∧ u.all p = true ∧ ∀ c ∈ s.getLast?, p c = false := by
  constructor
  · rintro rfl
    obtain ⟨u, hu, heq⟩ := exists_dropEndWhile p t
    exact ⟨u, heq, hu, fun c hc => not_of_mem_getLast?_dropEndWhile hc⟩
  · rintro ⟨u, rfl, hu, hlast⟩
    rw [dropEndWhile_append hu, dropEndWhile_eq_self hlast]

/-- What is trimmed does not start with what was taken off. -/
theorem not_of_mem_head?_trimWhile {p : Char → Bool} {t : Text} {c : Char}
    (hc : c ∈ (trimWhile p t).head?) : p c = false := by
  obtain ⟨u, -, heq⟩ := exists_dropEndWhile p (t.dropWhile p)
  have hstart : (t.dropWhile p).head? = some c := by
    rw [heq, List.head?_append, ← trimWhile, hc, Option.some_or]
  have hfirst := List.head?_dropWhile_not p t
  rw [hstart] at hfirst
  exact hfirst

theorem mem_of_mem_trimWhile {p : Char → Bool} {t : Text} {c : Char} (h : c ∈ trimWhile p t) :
    c ∈ t :=
  (List.dropWhile_sublist p).mem (mem_of_mem_dropEndWhile h)

/-- Nothing is trimmed off a text that neither starts nor ends with what is to be trimmed. -/
theorem trimWhile_eq_self {p : Char → Bool} {t : Text} (hstart : ∀ c ∈ t.head?, p c = false)
    (hend : ∀ c ∈ t.getLast?, p c = false) : trimWhile p t = t := by
  have hsame : t.dropWhile p = t := by
    cases t with
    | nil => rfl
    | cons c r => rw [List.dropWhile_cons_of_neg (by simp [hstart c rfl])]
  rw [trimWhile, hsame, dropEndWhile_eq_self hend]

theorem trim_eq_self {t : Text} (ht : ∀ c ∈ t, isBlank c = false) : trim t = t :=
  trimWhile_eq_self (fun c hc => ht c (List.mem_of_head? hc))
    fun c hc => ht c (List.mem_of_getLast? hc)

/-- Behind a text without blanks at its ends, trimming takes blanks off the end only. -/
theorem exists_trim_append {t : Text} (u : Text) (hne : t ≠ [])
    (hstart : ∀ c ∈ t.head?, isBlank c = false) (hend : ∀ c ∈ t.getLast?, isBlank c = false) :
    ∃ v after, u = v ++ after ∧ trim (t ++ u) = t ++ v := by
  obtain ⟨after, hafter, heq⟩ := exists_dropEndWhile isBlank u
  refine ⟨dropEndWhile isBlank u, after, heq, ?_⟩
  have htrim := trim_append_right (t := t ++ dropEndWhile isBlank u) hafter
  rw [List.append_assoc, ← heq] at htrim
  rw [htrim]
  apply trimWhile_eq_self
  · intro c hc
    obtain ⟨d, r, rfl⟩ := List.exists_cons_of_ne_nil hne
    exact hstart c hc
  · intro c hc
    rw [List.getLast?_append, Option.mem_def, Option.or_eq_some_iff] at hc
    rcases hc with hc | ⟨-, hc⟩
    · exact not_of_mem_getLast?_dropEndWhile hc
    · exact hend c hc

theorem not_isBlank_of_all {t : Text} (ht : t.all (fun c => !isBlank c) = true) :
    ∀ c ∈ t, isBlank c = false := by
  intro c hc
  simpa using List.all_eq_true.mp ht c hc

/-- A run of characters ends where another one or nothing follows. -/
theorem takeWhile_append_of_head? {p : Char → Bool} {t u : Text} (ht : ∀ c ∈ t, p c = true)
    (hu : ∀ c ∈ u.head?, p c = false) :
    (t ++ u).takeWhile p = t ∧ (t ++ u).dropWhile p = u := by
  rw [List.takeWhile_append_of_pos ht, List.dropWhile_append_of_pos ht]
  cases u with
  | nil => simp
  | cons d u => simp [hu d rfl]

theorem takeWhile_append_cons {p : Char → Bool} {t : Text} {d : Char} (ht : ∀ c ∈ t, p c = true)
    (hd : p d = false) (u : Text) :
    (t ++ d :: u).takeWhile p = t ∧ (t ++ d :: u).dropWhile p = d :: u :=
  takeWhile_append_of_head? ht (by simpa using hd)

/-- A run without blanks ends where a blank or nothing follows. -/
theorem takeWhile_not_isBlank {t u : Text} (ht : ∀ c ∈ t, isBlank c = false)
    (hu : ∀ c ∈ u.head?, isBlank c = true) :
    (t ++ u).takeWhile (fun c => !isBlank c) = t ∧
      (t ++ u).dropWhile (fun c => !isBlank c) = u :=
  takeWhile_append_of_head? (fun c hc => by simp [ht c hc]) fun c hc => by simp [hu c hc]

/-- Where the first blank of a text stands is told by the text. -/
theorem append_inj_of_blank {t u s v : Text} (ht : ∀ c ∈ t, isBlank c = false)
    (hu : ∀ c ∈ u.head?, isBlank c = true) (hs : ∀ c ∈ s, isBlank c = false)
    (hv : ∀ c ∈ v.head?, isBlank c = true) (h : t ++ u = s ++ v) : t = s ∧ u = v := by
  obtain ⟨htake, hdrop⟩ := takeWhile_not_isBlank ht hu
  obtain ⟨htake', hdrop'⟩ := takeWhile_not_isBlank hs hv
  rw [h] at htake hdrop
  exact ⟨htake.symm.trans htake', hdrop.symm.trans hdrop'⟩

/-- A text is what trimming leaves of it, between blanks. -/
theorem exists_trim (t : Text) :
    ∃ before after, allBlank before = true ∧ allBlank after = true ∧
      t = before ++ trim t ++ after := by
  obtain ⟨after, hafter, heq⟩ := exists_dropEndWhile isBlank (t.dropWhile isBlank)
  refine ⟨t.takeWhile isBlank, after, List.all_takeWhile, hafter, ?_⟩
  rw [List.append_assoc, trim, trimWhile, ← heq, List.takeWhile_append_dropWhile]

theorem mem_of_mem_trim {t : Text} {c : Char} (h : c ∈ trim t) : c ∈ t := by
  obtain ⟨before, after, -, -, heq⟩ := exists_trim t
  rw [heq]
  exact List.mem_append_left after (List.mem_append_right before h)

theorem trim_trim (t : Text) : trim (trim t) = trim t := by
  obtain ⟨before, after, hbefore, hafter, heq⟩ := exists_trim t
  have htrim := congrArg trim heq
  rw [trim_append_right hafter, trim_append_left hbefore] at htrim
  exact htrim.symm

/-- A text stands between blanks in another one, and neither starts nor ends with one. -/
structure Trimmed (t s : Text) : Prop where
  between : ∃ before after, allBlank before = true ∧ allBlank after = true ∧
    t = before ++ s ++ after
  start : ∀ c ∈ s.head?, isBlank c = false
  ending : ∀ c ∈ s.getLast?, isBlank c = false

/-- Trimming leaves the only text that stands so. -/
theorem trim_eq_iff {t s : Text} : trim t = s ↔ Trimmed t s := by
  constructor
  · rintro rfl
    exact ⟨exists_trim t, fun c hc => not_of_mem_head?_trimWhile hc,
      fun c hc => not_of_mem_getLast?_dropEndWhile hc⟩
  · rintro ⟨⟨before, after, hbefore, hafter, rfl⟩, hstart, hending⟩
    rw [trim_append_right hafter, trim_append_left hbefore]
    exact trimWhile_eq_self hstart hending

/-- Off a text that starts with something else than a blank, trimming takes the end only. -/
theorem exists_trim_cons {c : Char} (t : Text) (hc : isBlank c = false) :
    ∃ after, allBlank after = true ∧ c :: t = trim (c :: t) ++ after := by
  have htrim : trim (c :: t) = dropEndWhile isBlank (c :: t) := by
    rw [trim, trimWhile, List.dropWhile_cons_of_neg (by simp [hc])]
  rw [htrim]
  exact exists_dropEndWhile isBlank (c :: t)

/-- Trimming does not touch a text that starts with something else than a blank there. -/
theorem head?_trim_cons {c : Char} {t : Text} (hc : isBlank c = false) :
    (trim (c :: t)).head? = some c := by
  obtain ⟨after, hafter, heq⟩ := exists_trim_cons t hc
  cases htrim : trim (c :: t) with
  | nil =>
      rw [htrim, List.nil_append] at heq
      have hblank := List.all_eq_true.mp hafter c (by simp [← heq])
      rw [hc] at hblank
      cases hblank
  | cons d rest =>
      rw [htrim, List.cons_append, List.cons.injEq] at heq
      rw [List.head?_cons, heq.1]

/-- A text without the separator lies before it with the character that follows. -/
theorem exists_of_append_cons_eq {t u key value : Text} {c d : Char} (ht : d ∉ t) (hcd : c ≠ d)
    (h : t ++ c :: u = key ++ d :: value) : ∃ r, key = t ++ c :: r := by
  rcases List.append_eq_append_iff.mp h with ⟨more, hkey, hmore⟩ | ⟨more, hmore, hvalue⟩
  · cases more with
    | nil => exact absurd (List.cons.inj hmore).1 hcd
    | cons e r =>
        obtain rfl := (List.cons.inj hmore).1
        exact ⟨r, hkey⟩
  · cases more with
    | nil => exact absurd (List.cons.inj hvalue).1.symm hcd
    | cons e r =>
        obtain rfl := (List.cons.inj hvalue).1
        exact absurd (by simp [hmore]) ht

theorem splitAt?_eq_none {c : Char} {t : Text} (ht : c ∉ t) : splitAt? c t = none := by
  rcases hcut : splitAt? c t with _ | ⟨a, b⟩
  · rfl
  · have heq := (splitAt?_eq_some_iff.mp hcut).1
    exact absurd (by simp [heq]) ht

/-- Text without the separator belongs to what follows the first one. -/
theorem splitAt?_append {c : Char} {t u : Text} (hu : c ∉ u) :
    splitAt? c (t ++ u) = (splitAt? c t).map fun (a, b) => (a, b ++ u) := by
  induction t with
  | nil => simp [splitAt?, splitAt?_eq_none hu]
  | cons d t ih =>
      by_cases hd : d = c
      · simp [splitAt?, hd]
      · rw [List.cons_append, splitAt?, splitAt?, if_neg hd, if_neg hd, ih, Option.map_map,
          Option.map_map]
        rfl

theorem splitOn_ne_nil (c : Char) (t : Text) : splitOn c t ≠ [] := by
  fun_cases splitOn c t <;> simp_all

/-- Text before the first separator belongs to the first piece. -/
theorem exists_splitOn_append_left {c : Char} {t u : Text} (hu : c ∉ u) :
    ∃ first others, splitOn c t = first :: others ∧
      splitOn c (u ++ t) = (u ++ first) :: others := by
  obtain ⟨first, others, hsplit⟩ := List.exists_cons_of_ne_nil (splitOn_ne_nil c t)
  refine ⟨first, others, hsplit, ?_⟩
  induction u with
  | nil => simpa using hsplit
  | cons d u ih =>
      rw [List.mem_cons, not_or] at hu
      simp [splitOn, Ne.symm hu.1, ih hu.2]

/-- Text without the separator is one piece. -/
theorem splitOn_of_notMem {c : Char} {t : Text} (ht : c ∉ t) : splitOn c t = [t] := by
  obtain ⟨first, others, hnil, hsplit⟩ := exists_splitOn_append_left (t := []) ht
  obtain ⟨rfl, rfl⟩ := List.cons.inj hnil
  rwa [List.append_nil] at hsplit

/-- A piece holds nothing but characters of the text, and not the separator. -/
theorem of_mem_splitOn {c : Char} {t piece : Text} (h : piece ∈ splitOn c t) :
    c ∉ piece ∧ ∀ d ∈ piece, d ∈ t := by
  induction t generalizing piece with
  | nil =>
      obtain rfl := List.mem_singleton.mp h
      simp
  | cons e t ih =>
      by_cases he : e = c
      · rw [splitOn, if_pos he, List.mem_cons] at h
        rcases h with rfl | h
        · simp
        · exact ⟨(ih h).1, fun d hd => List.mem_cons_of_mem e ((ih h).2 d hd)⟩
      · obtain ⟨first, others, hsplit⟩ := List.exists_cons_of_ne_nil (splitOn_ne_nil c t)
        have hcons : splitOn c (e :: t) = (e :: first) :: others := by
          rw [splitOn, if_neg he, hsplit]
        rw [hcons, List.mem_cons] at h
        rcases h with rfl | h
        · obtain ⟨hnot, hmem⟩ := ih (hsplit ▸ List.mem_cons_self : first ∈ splitOn c t)
          refine ⟨by simp [Ne.symm he, hnot], List.forall_mem_cons.mpr ⟨List.mem_cons_self, ?_⟩⟩
          exact fun d hd => List.mem_cons_of_mem e (hmem d hd)
        · obtain ⟨hnot, hmem⟩ := ih (hsplit ▸ List.mem_cons_of_mem first h : piece ∈ splitOn c t)
          exact ⟨hnot, fun d hd => List.mem_cons_of_mem e (hmem d hd)⟩

theorem splitOn_eq_list_splitOn (c : Char) (t : Text) : splitOn c t = List.splitOn c t := by
  induction t with
  | nil => rfl
  | cons d t ih =>
      rw [splitOn, List.splitOn_cons_eq_if_modifyHead, ih]
      simp only [beq_iff_eq]
      split
      · rfl
      · obtain ⟨piece, pieces, hsplit⟩ := List.exists_cons_of_ne_nil (List.splitOn_ne_nil c t)
        rw [hsplit, List.modifyHead_cons]

/-- The pieces of a text are texts without the separator that it joins again. -/
theorem splitOn_eq_iff {c : Char} {t : Text} {pieces : List Text} :
    splitOn c t = pieces ↔
      pieces ≠ [] ∧ (∀ piece ∈ pieces, c ∉ piece) ∧ [c].intercalate pieces = t := by
  constructor
  · rintro rfl
    refine ⟨splitOn_ne_nil c t, fun piece hpiece => (of_mem_splitOn hpiece).1, ?_⟩
    rw [splitOn_eq_list_splitOn, List.intercalate_splitOn]
  · rintro ⟨hne, hpieces, rfl⟩
    rw [splitOn_eq_list_splitOn, List.splitOn_intercalate c hpieces hne]

/-- Text behind the last separator belongs to the last piece. -/
theorem exists_splitOn_append_right {c : Char} {t u : Text} (hu : c ∉ u) :
    ∃ others last, splitOn c t = others ++ [last] ∧
      splitOn c (t ++ u) = others ++ [last ++ u] := by
  induction t with
  | nil =>
      obtain ⟨first, others, hnil, hsplit⟩ := exists_splitOn_append_left (t := []) hu
      cases hnil
      exact ⟨[], [], rfl, by simpa using hsplit⟩
  | cons d t ih =>
      obtain ⟨others, last, ht, htu⟩ := ih
      by_cases hd : d = c
      · exact ⟨[] :: others, last, by simp [splitOn, hd, ht], by simp [splitOn, hd, htu]⟩
      · cases others with
        | nil => exact ⟨[], d :: last, by simp [splitOn, hd, ht], by simp [splitOn, hd, htu]⟩
        | cons first others =>
            exact ⟨(d :: first) :: others, last, by simp [splitOn, hd, ht],
              by simp [splitOn, hd, htu]⟩

/-- Blanks around a text do not show in its trimmed pieces. -/
theorem map_trim_splitOn_trim {c : Char} (hc : isBlank c = false) (t : Text) :
    (splitOn c (trim t)).map trim = (splitOn c t).map trim := by
  obtain ⟨before, after, hbefore, hafter, heq⟩ := exists_trim t
  have hnot : ∀ u : Text, allBlank u = true → c ∉ u := by
    intro u hu hmem
    rw [List.all_eq_true.mp hu c hmem] at hc
    cases hc
  obtain ⟨first, others, hsplit, hleft⟩ :=
    exists_splitOn_append_left (t := trim t) (hnot before hbefore)
  obtain ⟨others', last, hsplit', hright⟩ :=
    exists_splitOn_append_right (t := before ++ trim t) (hnot after hafter)
  have hmapRight : (splitOn c (before ++ trim t ++ after)).map trim =
      (splitOn c (before ++ trim t)).map trim := by
    rw [hright, hsplit']
    simp [trim_append_right hafter]
  have hmapLeft : (splitOn c (before ++ trim t)).map trim = (splitOn c (trim t)).map trim := by
    rw [hleft, hsplit]
    simp [trim_append_left hbefore]
  rw [← hmapLeft, ← hmapRight, ← heq]

end QueryBatch.Text
