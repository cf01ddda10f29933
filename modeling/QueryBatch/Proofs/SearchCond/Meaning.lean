/-
What search conditions say about an entity.  A condition of plain statements, its
timestamps in order, has a search condition that says the same; so the filter of a
condition and its search condition agree.
-/
import QueryBatch.Proofs.Filter.Meaning
import QueryBatch.SearchCond.OfCondition

namespace QueryBatch

/-- How a value that is present compares with an expression. -/
def AttrTest.Holds (w : World) : AttrTest → Text → Text → Prop
  | .eq, expression, t => w.Same false expression t
  | .ieq, expression, t => w.Same true expression t
  | .like, expression, t => w.Matches false expression t
  | .ilike, expression, t => w.Matches true expression t
  | .isNull, _, _ => False
  | .isNotNull, _, _ => True
  | .ge, expression, t => w.Ordered .greaterEquals t expression
  | .gt, expression, t => w.Ordered .greater t expression
  | .le, expression, t => w.Ordered .lessEquals t expression
  | .lt, expression, t => w.Ordered .less t expression

/-- What the test of an attribute says. -/
def AttrCond.Holds (w : World) (cond : AttrCond) : Prop :=
  match cond.test with
  | .isNull => w.value? cond.schema = none
  | .isNotNull => ¬ w.value? cond.schema = none
  | test => ∃ expression, cond.expression? = some expression ∧
      w.Present cond.schema (test.Holds w expression)

/-- What a leaf says; what is besides the attributes of an entity is given. -/
def Leaf.Holds (special : Leaf → Prop) (w : World) : Leaf → Prop
  | .attr cond | .any cond => cond.Holds w
  | leaf => special leaf

namespace SearchCond

variable {special : Leaf → Prop} {w : World} {target : Target}

mutual

/-- What a search condition says. -/
def Holds (special : Leaf → Prop) (w : World) : SearchCond → Prop
  | .leaf test => test.Holds special w
  | .not c => ¬ c.Holds special w
  | .compound k children => k.Joins (holdsEach special w children)

/-- What each of the search conditions says. -/
def holdsEach (special : Leaf → Prop) (w : World) : List SearchCond → List Prop
  | [] => []
  | c :: cs => c.Holds special w :: holdsEach special w cs

end

theorem holdsEach_eq_map (cs : List SearchCond) :
    holdsEach special w cs = cs.map (Holds special w) := by
  induction cs with
  | nil => rfl
  | cons c cs ih => rw [holdsEach, ih, List.map_cons]

theorem holds_compound_iff (special : Leaf → Prop) (w : World) (k : Connective)
    (cs : List SearchCond) :
    (compound k cs).Holds special w ↔ k.Joins (cs.map (Holds special w)) := by
  rw [Holds, holdsEach_eq_map]

theorem holds_negatedIf_iff {negated : Bool} {c : SearchCond} :
    (negatedIf negated c).Holds special w ↔ Statement.negatedIf negated (c.Holds special w) := by
  cases negated <;> simp [negatedIf, Statement.negatedIf, Holds]

/-- A field of every entity is read like an attribute of a schema. -/
theorem holds_ofAttrCond_iff {settings : SearchSettings} {cond : AttrCond} :
    (ofAttrCond settings cond).Holds special w ↔ cond.Holds w := by
  unfold ofAttrCond
  split <;> rfl

theorem attrCond_holds_iff {schema expression : Text} {test : AttrTest}
    (hnull : test ≠ .isNull) (hnotNull : test ≠ .isNotNull) :
    AttrCond.Holds w ⟨schema, test, some expression⟩ ↔
      w.Present schema (test.Holds w expression) := by
  cases test <;> simp_all [AttrCond.Holds]

/-- The test for a value compares with the value if it has no wildcards, and otherwise
matches what it stands for. -/
theorem holds_equalityTest_iff {schema value : Text} {ignoringCase : Bool} :
    AttrCond.Holds w ⟨schema, equalityTest value ignoringCase, some value⟩ ↔
      w.Present schema (w.Matches ignoringCase value) := by
  unfold equalityTest
  cases hcontains : value.contains '%' with
  | true =>
      cases ignoringCase <;> exact attrCond_holds_iff nofun nofun
  | false =>
      have hplain : Wildcard.sign ∉ value := by simpa [Wildcard.sign] using hcontains
      have hsame : ∀ t, w.Matches ignoringCase value t ↔ w.Same ignoringCase value t :=
        fun t => World.matches_plain_iff hplain
      rw [World.present_congr hsame]
      cases ignoringCase <;> exact attrCond_holds_iff nofun nofun

theorem exists_ofEquality_holds_iff {s : Statement} (negated ignoringCase : Bool)
    (hrestore : Timestamp.restore s.value = s.value)
    (hattribute : SpecialAttr.ofText? s.property = none) :
    ∃ c, ofEquality target s negated ignoringCase = .ok c ∧ ∀ special w,
      c.Holds special w ↔ Statement.negatedIf negated (s.Matches w ignoringCase) := by
  unfold ofEquality Statement.Matches
  simp only [hrestore, hattribute]
  by_cases hnull : SpecialAttr.isNull s.value = true
  · simp only [hnull, if_true]
    refine ⟨_, rfl, fun special w => ?_⟩
    rw [holds_ofAttrCond_iff]
    cases negated <;> rfl
  · simp only [hnull, Bool.false_eq_true, if_false]
    refine ⟨_, rfl, fun special w => ?_⟩
    rw [holds_negatedIf_iff, holds_ofAttrCond_iff, holds_equalityTest_iff]

/-- Every plain statement has a search condition, and it says what the statement says. -/
theorem exists_ofStatement_holds_iff {s : Statement}
    (hrestore : Timestamp.restore s.value = s.value) (hplain : s.Plain) :
    ∃ c, ofStatement target s = .ok c ∧ ∀ special w, c.Holds special w ↔ s.Holds w := by
  unfold ofStatement
  rcases hplain with ⟨test, htest⟩ | ⟨negated, ignoringCase, htest, hattribute⟩
  · simp only [htest, hrestore]
    refine ⟨_, rfl, fun special w => ?_⟩
    rw [holds_ofAttrCond_iff, Statement.holds_order_iff htest]
    cases test <;> exact attrCond_holds_iff nofun nofun
  · simp only [htest]
    obtain ⟨c, hc, hholds⟩ := exists_ofEquality_holds_iff negated ignoringCase hrestore hattribute
    exact ⟨c, hc, fun special w =>
      (hholds special w).trans (Statement.holds_equality_iff htest).symm⟩

/-- Unless a timestamp is mended, a condition that can be made a filter can be made a
search condition for every target, and both say of every entity what the condition says. -/
theorem holds_iff_filter_holds {c : Condition} {f : Filter} {names : List Text}
    (hrestore : ∀ s ∈ c.statements, Timestamp.restore s.value = s.value)
    (hfilter : (Filter.collect c names).1 = .ok f) (target : Target) :
    ∃ sc, ofCondition target c = .ok sc ∧ ∀ special w,
      (f.Holds w ↔ c.Holds w) ∧ (sc.Holds special w ↔ c.Holds w) := by
  obtain ⟨hplain, hholds⟩ := Filter.holds_collect_iff hfilter
  have hleaf : ∀ s ∈ c.statements, ∃ b, ofStatement target s = .ok b ∧
      ∀ special w, b.Holds special w ↔ s.Holds w :=
    fun s hs => exists_ofStatement_holds_iff (hrestore s hs) (hplain s hs)
  obtain ⟨sc, hsc⟩ : ∃ sc, ofCondition target c = .ok sc :=
    Condition.exists_foldM_iff.mpr fun s hs => (hleaf s hs).imp fun _ h => h.1
  refine ⟨sc, hsc, fun special w => ⟨hholds w, ?_⟩⟩
  refine Condition.holds_foldM_iff (holds_compound_iff special w) hsc fun s hs b hb => ?_
  obtain ⟨b', hb', hholds⟩ := hleaf s hs
  rw [hb] at hb'
  cases hb'
  exact hholds special w

/-- `name==*ab*;(nick!=$null,age=gt=5)`. -/
def namedAndReachable : Condition :=
  .compound .and
    [.statement ⟨"name".toList, .equals, "%ab%".toList, none⟩,
      .compound .or
        [.statement ⟨"nick".toList, .notEquals, "$null".toList, none⟩,
          .statement ⟨"age".toList, .greater, "5".toList, none⟩]]

theorem namedAndReachable_agrees :
    (∀ s ∈ namedAndReachable.statements, Timestamp.restore s.value = s.value) ∧
      (Filter.collect namedAndReachable []).1 =
        .ok (.compound .and
          [.leaf .contains ⟨"name".toList, "ab".toList⟩,
            .compound .or
              [.leaf .startsWith ⟨"nick".toList, []⟩,
                .leaf .greaterThan ⟨"age".toList, "5".toList⟩]]) ∧
      ∃ sc, ofCondition ⟨.standard, none⟩ namedAndReachable = .ok sc ∧ ∀ special w,
        sc.Holds special w ↔ namedAndReachable.Holds w := by
  have hrestore : ∀ s ∈ namedAndReachable.statements, Timestamp.restore s.value = s.value := by
    decide
  have hfilter : (Filter.collect namedAndReachable []).1 = .ok _ := rfl
  obtain ⟨sc, hsc, hholds⟩ := holds_iff_filter_holds hrestore hfilter ⟨.standard, none⟩
  exact ⟨hrestore, hfilter, sc, hsc, fun special w => (hholds special w).2⟩

end SearchCond

end QueryBatch
