/-
What filters say about an entity.  A condition that can be made a filter says the same
as its filter.
-/
import QueryBatch.Proofs.Filter.Names

namespace QueryBatch

/-- How a value that is present matches. -/
def MatchKind.Holds (w : World) : MatchKind → Text → Text → Prop
  | .equals, value, t => w.Same false value t
  | .equalsIgnoreCase, value, t => w.Same true value t
  | .startsWith, value, t => value <+: t
  | .endsWith, value, t => value <:+ t
  | .contains, value, t => value <:+: t
  | .greaterThan, value, t => w.Ordered .greater t value
  | .greaterThanOrEqual, value, t => w.Ordered .greaterEquals t value
  | .lessThan, value, t => w.Ordered .less t value
  | .lessThanOrEqual, value, t => w.Ordered .lessEquals t value

namespace Filter

mutual

/-- What a filter says. -/
def Holds (w : World) : Filter → Prop
  | .leaf kind target => w.Present target.name (kind.Holds w target.value)
  | .compound k children => k.Joins (holdsEach w children)
  | .not f => ¬ f.Holds w

/-- What each of the filters says. -/
def holdsEach (w : World) : List Filter → List Prop
  | [] => []
  | f :: fs => f.Holds w :: holdsEach w fs

end

theorem holdsEach_eq_map (w : World) (fs : List Filter) : holdsEach w fs = fs.map (Holds w) := by
  induction fs with
  | nil => rfl
  | cons f fs ih => rw [holdsEach, ih, List.map_cons]

theorem holds_compound_iff (w : World) (k : Connective) (fs : List Filter) :
    (compound k fs).Holds w ↔ k.Joins (fs.map (Holds w)) := by
  rw [Holds, holdsEach_eq_map]

theorem holds_negatedIf_iff {w : World} {negated : Bool} {f : Filter} :
    (negatedIf negated f).Holds w ↔ Statement.negatedIf negated (f.Holds w) := by
  cases negated <;> simp [negatedIf, Statement.negatedIf, Holds]

/-- The leaf for a value matches what the value stands for. -/
theorem holds_ofValue?_iff {w : World} {property value : Text} {ignoringCase : Bool} {f : Filter}
    (h : ofValue? property value ignoringCase = some f) :
    f.Holds w ↔ w.Present property (w.Matches ignoringCase value) := by
  have hdescribes := Wildcard.classify_describes value
  unfold ofValue? at h
  cases hclass : Wildcard.classify value with
  | exact =>
      rw [hclass] at h hdescribes
      cases ignoringCase <;> cases h <;>
        exact World.present_congr fun t => (World.matches_plain_iff hdescribes).symm
  | leading rest =>
      rw [hclass] at h hdescribes
      obtain ⟨rfl, hplain⟩ := hdescribes
      cases ignoringCase <;> cases h
      exact World.present_congr fun t =>
        (World.matches_exactly_iff.trans (Wildcard.stands_leading_iff hplain)).symm
  | trailing rest =>
      rw [hclass] at h hdescribes
      obtain ⟨rfl, hplain⟩ := hdescribes
      cases ignoringCase <;> cases h
      exact World.present_congr fun t =>
        (World.matches_exactly_iff.trans (Wildcard.stands_trailing_iff hplain)).symm
  | both inner =>
      rw [hclass] at h hdescribes
      obtain ⟨rfl, hplain⟩ := hdescribes
      cases ignoringCase <;> cases h
      exact World.present_congr fun t =>
        (World.matches_exactly_iff.trans (Wildcard.stands_both_iff hplain)).symm
  | interior => cases ignoringCase <;> simp [hclass] at h

/-- "Has a value" is a match with the empty start. -/
theorem holds_hasValue_iff {w : World} {property : Text} :
    (leaf .startsWith ⟨property, []⟩).Holds w ↔ ∃ t, w.value? property = some t := by
  simp [Holds, World.Present, MatchKind.Holds]

theorem holds_ofEquality_iff {s : Statement} {negated ignoringCase : Bool} {f : Filter}
    {names : List Text} (h : ofEquality s negated ignoringCase = .ok (f, names)) :
    SpecialAttr.ofText? s.property = none ∧
      ∀ w, f.Holds w ↔ Statement.negatedIf negated (s.Matches w ignoringCase) := by
  unfold ofEquality at h
  unfold Statement.Matches
  cases hspecial : SpecialAttr.ofText? s.property with
  | some special => simp [hspecial] at h
  | none =>
      refine ⟨rfl, fun w => ?_⟩
      by_cases hnull : SpecialAttr.isNull s.value = true
      · simp only [hspecial, hnull, if_true] at h ⊢
        cases negated with
        | true =>
            cases h
            exact holds_hasValue_iff.trans World.not_absent_iff.symm
        | false =>
            cases h
            rw [Holds, holds_hasValue_iff, ← World.not_absent_iff, Classical.not_not]
            rfl
      · simp only [hspecial, hnull] at h ⊢
        cases hvalue : ofValue? s.property s.value ignoringCase with
        | none => simp [hvalue] at h
        | some leaf =>
            simp only [hvalue, Bool.false_eq_true, if_false, Except.ok.injEq, Prod.mk.injEq] at h
            obtain ⟨rfl, -⟩ := h
            rw [holds_negatedIf_iff, holds_ofValue?_iff hvalue]
            rfl

/-- Only plain statements have filters, and a filter says what its statement says. -/
theorem holds_ofStatement_iff {s : Statement} {f : Filter} {names : List Text}
    (h : ofStatement s = .ok (f, names)) : s.Plain ∧ ∀ w, f.Holds w ↔ s.Holds w := by
  unfold ofStatement at h
  split at h
  · cases h
  · rename_i negated ignoringCase htest
    obtain ⟨hspecial, hholds⟩ := holds_ofEquality_iff h
    refine ⟨Or.inr ⟨negated, ignoringCase, htest, hspecial⟩, fun w => ?_⟩
    rw [hholds w, Statement.holds_equality_iff htest]
  · rename_i test htest
    cases h
    refine ⟨Or.inl ⟨test, htest⟩, fun w => ?_⟩
    rw [Statement.holds_order_iff htest]
    cases test <;> rfl

/-- A condition that can be made a filter has plain statements only, and says what the
filter says. -/
theorem holds_collect_iff {c : Condition} {f : Filter} {names : List Text}
    (h : (collect c names).1 = .ok f) :
    (∀ s ∈ c.statements, s.Plain) ∧ ∀ w, f.Holds w ↔ c.Holds w := by
  rw [collect_eq] at h
  have hleaf : ∀ s b, (ofStatement s).map Prod.fst = .ok b →
      s.Plain ∧ ∀ w, b.Holds w ↔ s.Holds w := by
    intro s b hb
    obtain ⟨⟨_, more⟩, hstatement, rfl⟩ := map_eq_ok_iff.mp hb
    exact holds_ofStatement_iff hstatement
  refine ⟨fun s hs => ?_, fun w => ?_⟩
  · obtain ⟨b, hb⟩ := Condition.exists_foldM_iff.mp ⟨f, h⟩ s hs
    exact (hleaf s b hb).1
  · exact Condition.holds_foldM_iff (holds_compound_iff w) h fun s _ b hb => (hleaf s b hb).2 w

end Filter

end QueryBatch
