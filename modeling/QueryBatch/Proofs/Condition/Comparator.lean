/-
The comparator of a statement: the leftmost one in the text, and the longest of those
that start there.
-/
import QueryBatch.Condition.Parser

namespace QueryBatch

/-- A text that a query may write between a property and a value. -/
def IsComparator (c : Text) : Prop :=
  ∃ operator, (c, operator) ∈ comparators

theorem comparators_pairwise : comparators.Pairwise fun a b => ¬ a.1 <+: b.1 := by
  decide

theorem operator_unique : ∀ a ∈ comparators, ∀ b ∈ comparators, a.1 = b.1 → a.2 = b.2 := by
  decide

theorem ne_nil_of_isComparator {c : Text} (h : IsComparator c) : c ≠ [] := by
  obtain ⟨operator, hmem⟩ := h
  have hall : ∀ a ∈ comparators, a.1 ≠ [] := by decide
  exact hall _ hmem

namespace Comparison

/-- A cut of a text at a comparator, none being further left and none longer there. -/
structure Leftmost (t : Text) (found : Comparison) : Prop where
  joined : t = found.property ++ found.comparator ++ found.raw
  known : (found.comparator, found.operator) ∈ comparators
  leftmost : ∀ before c after, t = before ++ c ++ after → IsComparator c →
    found.property.length ≤ before.length
  longest : ∀ c after, t = found.property ++ c ++ after → IsComparator c →
    c.length ≤ found.comparator.length

theorem leftmost_of_atStart? {t : Text} {found : Comparison} (h : atStart? t = some found) :
    found.property = [] ∧ Leftmost t found := by
  obtain ⟨earlier, ⟨c, operator⟩, later, hlist, hfound, hearlier⟩ :=
    List.findSome?_eq_some_iff.mp h
  obtain ⟨raw, hraw, rfl⟩ := Option.map_eq_some_iff.mp hfound
  have hjoined := Text.dropStart?_eq_some_iff.mp hraw
  refine ⟨rfl, hjoined, by simp [hlist], fun _ _ _ _ _ => Nat.zero_le _, ?_⟩
  rintro c' after heq ⟨operator', hmem⟩
  replace heq : t = c' ++ after := heq
  have hstart : c' <+: t := ⟨after, heq.symm⟩
  rw [hlist] at hmem
  rcases List.mem_append.mp hmem with hbefore | hafter
  · have hnone := hearlier _ hbefore
    rw [Option.map_eq_none_iff] at hnone
    rw [Text.dropStart?_eq_some_iff.mpr heq] at hnone
    simp at hnone
  · rcases List.mem_cons.mp hafter with hsame | hlater
    · exact Nat.le_of_eq (congrArg List.length (Prod.mk.inj hsame).1)
    · -- a longer comparator would start with `c`, and none in the list does
      have hpair := comparators_pairwise
      rw [hlist, List.pairwise_append, List.pairwise_cons] at hpair
      have hnot := hpair.2.1.1 _ hlater
      refine Nat.le_of_not_lt fun hlong => hnot ?_
      exact List.prefix_of_prefix_length_le ⟨raw, hjoined.symm⟩ hstart (Nat.le_of_lt hlong)

theorem not_isComparator_of_atStart?_eq_none {t c after : Text} (h : atStart? t = none)
    (heq : t = c ++ after) : ¬ IsComparator c := by
  rintro ⟨operator, hmem⟩
  have hnone := List.findSome?_eq_none_iff.mp h _ hmem
  rw [Option.map_eq_none_iff, Text.dropStart?_eq_some_iff.mpr heq] at hnone
  simp at hnone

theorem leftmost_of_cut? {t : Text} {found : Comparison} (h : cut? t = some found) :
    Leftmost t found := by
  induction t generalizing found with
  | nil => simp [cut?] at h
  | cons x r ih =>
      rw [cut?] at h
      split at h
      · rename_i first hfirst
        cases h
        exact (leftmost_of_atStart? hfirst).2
      · rename_i hnone
        obtain ⟨later, hlater, rfl⟩ := Option.map_eq_some_iff.mp h
        have hrest := ih hlater
        refine ⟨congrArg (x :: ·) hrest.joined, hrest.known, ?_, ?_⟩
        · intro before c after heq hc
          cases before with
          | nil => exact absurd hc (not_isComparator_of_atStart?_eq_none hnone heq)
          | cons y before =>
              have := hrest.leftmost before c after (List.cons.inj heq).2 hc
              simpa using this
        · exact fun c after heq hc => hrest.longest c after (List.cons.inj heq).2 hc

theorem not_isComparator_of_cut?_eq_none {t : Text} (h : cut? t = none) :
    ∀ before c after, t = before ++ c ++ after → ¬ IsComparator c := by
  induction t with
  | nil =>
      intro before c after heq hc
      have hnil := List.append_eq_nil_iff.mp heq.symm
      exact ne_nil_of_isComparator hc (List.append_eq_nil_iff.mp hnil.1).2
  | cons x r ih =>
      rw [cut?] at h
      split at h
      · simp at h
      · rename_i hnone
        intro before c after heq
        cases before with
        | nil => exact not_isComparator_of_atStart?_eq_none hnone heq
        | cons y before =>
            exact ih (Option.map_eq_none_iff.mp h) before c after (List.cons.inj heq).2

theorem Leftmost.isComparator {t : Text} {found : Comparison} (h : Leftmost t found) :
    IsComparator found.comparator :=
  ⟨found.operator, h.known⟩

theorem Leftmost.unique {t : Text} {found other : Comparison} (h : Leftmost t found)
    (h' : Leftmost t other) : found = other := by
  have hlen : found.property.length = other.property.length :=
    Nat.le_antisymm (h.leftmost _ _ _ h'.joined h'.isComparator)
      (h'.leftmost _ _ _ h.joined h.isComparator)
  have hjoined := h.joined.symm.trans h'.joined
  rw [List.append_assoc, List.append_assoc] at hjoined
  obtain ⟨hproperty, hrest⟩ := List.append_inj hjoined hlen
  have hcomparatorLength : found.comparator.length = other.comparator.length :=
    Nat.le_antisymm (h'.longest _ _ (hproperty ▸ h.joined) h.isComparator)
      (h.longest _ _ (hproperty ▸ h'.joined) h'.isComparator)
  obtain ⟨hcomparator, hraw⟩ := List.append_inj hrest hcomparatorLength
  have hoperator := operator_unique _ h.known _ h'.known hcomparator
  cases found
  cases other
  simp_all

/-- Cutting finds the comparator at which a text is to be cut. -/
theorem cut?_eq_some_iff {t : Text} {found : Comparison} :
    cut? t = some found ↔ Leftmost t found := by
  refine ⟨leftmost_of_cut?, fun h => ?_⟩
  cases hcut : cut? t with
  | none => exact absurd h.isComparator (not_isComparator_of_cut?_eq_none hcut _ _ _ h.joined)
  | some other => rw [(leftmost_of_cut? hcut).unique h]

end Comparison

end QueryBatch
