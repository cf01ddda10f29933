/-
What values with wildcards stand for.  The place of the wildcards tells whether a
value stands for the texts that start with it, that end in it or that contain it.
-/
import QueryBatch.Wildcard

namespace QueryBatch.Wildcard

/-- The texts that a value stands for: a wildcard stands for any sequence of characters
and every other character for itself. -/
inductive Stands : Text → Text → Prop
  | nil : Stands [] []
  | sequence {value t : Text} (between : Text) (h : Stands value t) :
      Stands (sign :: value) (between ++ t)
  | char {c : Char} {value t : Text} (hc : c ≠ sign) (h : Stands value t) :
      Stands (c :: value) (c :: t)

theorem stands_iff_eq {value t : Text} (hplain : sign ∉ value) : Stands value t ↔ t = value := by
  constructor
  · intro h
    induction h with
    | nil => rfl
    | sequence between h ih => exact absurd List.mem_cons_self hplain
    | char hc h ih => rw [ih (fun hmem => hplain (List.mem_cons_of_mem _ hmem))]
  · rintro rfl
    induction t with
    | nil => exact .nil
    | cons c t ih =>
        have hc : c ≠ sign := fun hc => hplain (hc ▸ List.mem_cons_self)
        exact .char hc (ih fun hmem => hplain (List.mem_cons_of_mem _ hmem))

theorem stands_cons_sign_iff {value t : Text} :
    Stands (sign :: value) t ↔ ∃ between rest, t = between ++ rest ∧ Stands value rest := by
  constructor
  · intro h
    cases h with
    | sequence between h => exact ⟨between, _, rfl, h⟩
    | char hc _ => exact absurd rfl hc
  · rintro ⟨between, rest, rfl, h⟩
    exact .sequence between h

theorem stands_append_iff {value value' t : Text} :
    Stands (value ++ value') t ↔ ∃ a b, t = a ++ b ∧ Stands value a ∧ Stands value' b := by
  constructor
  · intro h
    induction value generalizing t with
    | nil => exact ⟨[], t, rfl, .nil, h⟩
    | cons c value ih =>
        cases h with
        | sequence between h =>
            obtain ⟨a, b, rfl, ha, hb⟩ := ih h
            exact ⟨between ++ a, b, by simp, .sequence between ha, hb⟩
        | char hc h =>
            obtain ⟨a, b, rfl, ha, hb⟩ := ih h
            exact ⟨c :: a, b, rfl, .char hc ha, hb⟩
  · rintro ⟨a, b, rfl, ha, hb⟩
    induction ha with
    | nil => exact hb
    | sequence between _ ih =>
        rw [List.append_assoc]
        exact .sequence between ih
    | char hc _ ih => exact .char hc ih

theorem stands_sign {t : Text} : Stands [sign] t :=
  stands_cons_sign_iff.mpr ⟨t, [], by simp, .nil⟩

theorem stands_leading_iff {rest t : Text} (hplain : sign ∉ rest) :
    Stands (sign :: rest) t ↔ rest <:+ t := by
  simp only [stands_cons_sign_iff, stands_iff_eq hplain]
  constructor
  · rintro ⟨between, _, rfl, rfl⟩
    exact ⟨between, rfl⟩
  · rintro ⟨between, rfl⟩
    exact ⟨between, rest, rfl, rfl⟩

theorem stands_trailing_iff {rest t : Text} (hplain : sign ∉ rest) :
    Stands (rest ++ [sign]) t ↔ rest <+: t := by
  simp only [stands_append_iff, stands_iff_eq hplain]
  constructor
  · rintro ⟨_, after, rfl, rfl, -⟩
    exact ⟨after, rfl⟩
  · rintro ⟨after, rfl⟩
    exact ⟨rest, after, rfl, rfl, stands_sign⟩

theorem stands_both_iff {inner t : Text} (hplain : sign ∉ inner) :
    Stands (sign :: inner ++ [sign]) t ↔ inner <:+: t := by
  rw [List.cons_append]
  simp only [stands_cons_sign_iff, stands_trailing_iff hplain]
  constructor
  · rintro ⟨before, _, rfl, after, rfl⟩
    exact ⟨before, after, by simp⟩
  · rintro ⟨before, after, rfl⟩
    exact ⟨before, inner ++ after, by simp, after, rfl⟩

/-- What a place of wildcards says about a value. -/
def Describes : Wildcard → Text → Prop
  | .exact, value => sign ∉ value
  | .leading rest, value => value = sign :: rest ∧ sign ∉ rest
  | .trailing rest, value => value = rest ++ [sign] ∧ sign ∉ rest
  | .both inner, value => value = sign :: inner ++ [sign] ∧ sign ∉ inner
  | .interior, value => sign ∈ value

theorem afterSign?_eq_some_iff {t rest : Text} : afterSign? t = some rest ↔ t = sign :: rest := by
  cases t with
  | nil => simp [afterSign?]
  | cons c r =>
      by_cases hc : c = sign <;> simp [afterSign?, hc]

theorem plain?_eq_some_iff {t? : Option Text} {t : Text} :
    plain? t? = some t ↔ t? = some t ∧ sign ∉ t := by
  simp [plain?, Option.filter_eq_some_iff]

theorem classify_describes (value : Text) : (classify value).Describes value := by
  unfold classify
  by_cases hsign : sign ∈ value
  · simp only [List.contains_iff_mem.mpr hsign, Bool.not_true, Bool.false_eq_true, if_false]
    split
    · rename_i rest _ _ h
      obtain ⟨h, hplain⟩ := plain?_eq_some_iff.mp h
      exact ⟨afterSign?_eq_some_iff.mp h, hplain⟩
    · rename_i rest _ _ h
      obtain ⟨h, hplain⟩ := plain?_eq_some_iff.mp h
      exact ⟨Text.dropLast?_eq_some_iff.mp h, hplain⟩
    · rename_i inner _ _ h
      obtain ⟨h, hplain⟩ := plain?_eq_some_iff.mp h
      obtain ⟨rest, hrest, h⟩ := Option.bind_eq_some_iff.mp h
      rw [afterSign?_eq_some_iff.mp hrest, Text.dropLast?_eq_some_iff.mp h]
      exact ⟨rfl, hplain⟩
    · exact hsign
  · simp [hsign, Describes]

theorem plain?_eq_none_iff {t? : Option Text} :
    plain? t? = none ↔ ∀ t, t? = some t → sign ∈ t := by
  cases t? <;> simp [plain?, Option.filter]

theorem classify_eq_exact_iff {value : Text} : classify value = .exact ↔ sign ∉ value := by
  constructor
  · intro h
    have hdescribes := classify_describes value
    rwa [h] at hdescribes
  · intro h
    simp [classify, h]

/-- A lone wildcard counts as leading, so something stands before a trailing one. -/
theorem ne_nil_of_trailing {value rest : Text} (h : classify value = .trailing rest) :
    rest ≠ [] := by
  have hdescribes := classify_describes value
  rw [h] at hdescribes
  rintro rfl
  rw [hdescribes.1] at h
  exact absurd h (by decide)

/-- A wildcard stands strictly between the first and the last character. -/
def Inside (value : Text) : Prop :=
  ∃ first before after last, value = first :: before ++ sign :: after ++ [last]

/-- A value has wildcards in any other place if none of the places can be cut off. -/
theorem classify_eq_interior_iff_forall {value : Text} :
    classify value = .interior ↔ sign ∈ value ∧ (∀ rest, value = sign :: rest → sign ∈ rest) ∧
      (∀ rest, value = rest ++ [sign] → sign ∈ rest) ∧
      ∀ inner, value = sign :: inner ++ [sign] → sign ∈ inner := by
  have hboth : ∀ inner, (afterSign? value).bind (Text.dropLast? sign) = some inner ↔
      value = sign :: inner ++ [sign] := by
    intro inner
    simp only [Option.bind_eq_some_iff, afterSign?_eq_some_iff, Text.dropLast?_eq_some_iff]
    constructor
    · rintro ⟨rest, rfl, rfl⟩
      rfl
    · rintro rfl
      exact ⟨_, rfl, rfl⟩
  simp only [← afterSign?_eq_some_iff, ← Text.dropLast?_eq_some_iff, ← hboth,
    ← plain?_eq_none_iff]
  unfold classify
  by_cases hsign : sign ∈ value
  · simp only [List.contains_iff_mem.mpr hsign, Bool.not_true, Bool.false_eq_true, if_false,
      hsign, true_and]
    split <;> simp_all
  · simp [hsign]

theorem classify_eq_interior_iff {value : Text} : classify value = .interior ↔ Inside value := by
  rw [classify_eq_interior_iff_forall]
  constructor
  · rintro ⟨hsign, hleading, htrailing, hboth⟩
    obtain ⟨first, others, rfl⟩ := List.exists_cons_of_ne_nil (List.ne_nil_of_mem hsign)
    rcases List.eq_nil_or_concat others with rfl | ⟨middle, last, rfl⟩
    · obtain rfl := List.mem_singleton.mp hsign
      cases hleading [] rfl
    rw [List.concat_eq_append] at *
    by_cases hmiddle : sign ∈ middle
    · obtain ⟨before, after, rfl⟩ := List.append_of_mem hmiddle
      exact ⟨first, before, after, last, by simp⟩
    · -- a wildcard at one end only, or at both, could be cut off
      exfalso
      by_cases hfirst : first = sign
      · have hlast := hleading _ (by rw [hfirst])
        obtain rfl : sign = last := by simpa [hmiddle] using hlast
        exact hmiddle (hboth middle (by rw [hfirst]; rfl))
      · obtain rfl : sign = last := by simpa [hmiddle, Ne.symm hfirst] using hsign
        have hmem := htrailing (first :: middle) rfl
        simp [hmiddle, Ne.symm hfirst] at hmem
  · rintro ⟨first, before, after, last, rfl⟩
    refine ⟨by simp, fun rest heq => ?_, fun rest heq => ?_, fun inner heq => ?_⟩
    · obtain ⟨-, rfl⟩ := List.cons.inj heq
      simp
    · obtain ⟨rfl, -⟩ := List.append_inj' heq rfl
      simp
    · obtain ⟨hinner, -⟩ := List.append_inj' heq rfl
      obtain ⟨-, rfl⟩ := List.cons.inj hinner
      simp

end QueryBatch.Wildcard
