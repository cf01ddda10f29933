/-
The shape of filters and search conditions.  Both translations keep the connectives of a
condition and make one leaf of each statement; nothing but a leaf is ever negated, and a
search condition never negates a test for null.
-/
import QueryBatch.Proofs.Condition.Shape
import QueryBatch.Proofs.SearchCond.Meaning

namespace QueryBatch

namespace Filter

mutual

/-- What the negations in a filter negate, from left to right. -/
def negations : Filter → List Filter
  | .leaf _ _ => []
  | .compound _ children => negationsOfAll children
  | .not f => f :: f.negations

/-- What the negations in filters negate, from left to right. -/
def negationsOfAll : List Filter → List Filter
  | [] => []
  | f :: fs => f.negations ++ negationsOfAll fs

end

theorem leavesOfAll_eq_flatMap (fs : List Filter) : leavesOfAll fs = fs.flatMap leaves := by
  induction fs with
  | nil => rfl
  | cons f fs ih => rw [leavesOfAll, ih, List.flatMap_cons]

theorem negationsOfAll_eq_flatMap (fs : List Filter) :
    negationsOfAll fs = fs.flatMap negations := by
  induction fs with
  | nil => rfl
  | cons f fs ih => rw [negationsOfAll, ih, List.flatMap_cons]

/-- A leaf for the property of a statement, or the negation of one. -/
def OneLeaf (s : Statement) (f : Filter) : Prop :=
  ∃ negated kind value, f = negatedIf negated (.leaf kind ⟨s.property, value⟩)

/-- What stands for a statement in a filter: the filter of the statement alone, which is one
leaf for its property, possibly negated. -/
def StandsFor (s : Statement) (f : Filter) : Prop :=
  (∃ names, ofStatement s = .ok (f, names)) ∧ OneLeaf s f

/-- The leaf of a statement: that of the statement's own filter, for its property. -/
def LeafOf (s : Statement) (leaf : MatchKind × Attribute) : Prop :=
  leaf.2.name = s.property ∧ ∃ f names, ofStatement s = .ok (f, names) ∧ f.leaves = [leaf]

theorem exists_leaf_of_ofValue? {property value : Text} {ignoringCase : Bool} {f : Filter}
    (h : ofValue? property value ignoringCase = some f) :
    ∃ kind rest, f = .leaf kind ⟨property, rest⟩ := by
  unfold ofValue? at h
  split at h
  case h_6 => cases h
  all_goals
    obtain rfl := Option.some.inj h
    exact ⟨_, _, rfl⟩

theorem oneLeaf_of_ofEquality {s : Statement} {negated ignoringCase : Bool} {f : Filter}
    {names : List Text} (h : ofEquality s negated ignoringCase = .ok (f, names)) :
    OneLeaf s f := by
  unfold ofEquality at h
  cases hspecial : SpecialAttr.ofText? s.property with
  | some special => simp [hspecial] at h
  | none =>
      simp only [hspecial] at h
      split at h
      · -- "has no value" is the negation of "has a value"
        cases negated with
        | true =>
            cases h
            exact ⟨false, .startsWith, [], rfl⟩
        | false =>
            cases h
            exact ⟨true, .startsWith, [], rfl⟩
      · cases hvalue : ofValue? s.property s.value ignoringCase with
        | none => simp [hvalue] at h
        | some leaf =>
            simp only [hvalue, Except.ok.injEq, Prod.mk.injEq] at h
            obtain ⟨rfl, -⟩ := h
            obtain ⟨kind, rest, rfl⟩ := exists_leaf_of_ofValue? hvalue
            exact ⟨negated, kind, rest, rfl⟩

theorem oneLeaf_of_ofStatement {s : Statement} {f : Filter} {names : List Text}
    (h : ofStatement s = .ok (f, names)) : OneLeaf s f := by
  unfold ofStatement at h
  split at h
  · cases h
  · exact oneLeaf_of_ofEquality h
  · rename_i test _
    cases h
    exact ⟨false, test.matchKind, s.value, rfl⟩

/-- How the filter of a condition follows the condition. -/
structure Follows (c : Condition) (f : Filter) : Prop where
  mirrored : c.Mirrored StandsFor .compound f
  size : f.size = c.size
  leaves : List.Forall₂ LeafOf c.statements f.leaves
  negations : ∀ g ∈ f.negations, ∃ kind target, g = .leaf kind target

theorem leaves_negatedIf (negated : Bool) (kind : MatchKind) (target : Attribute) :
    (negatedIf negated (.leaf kind target)).leaves = [(kind, target)] := by
  cases negated <;> rfl

theorem follows_of_mirrored {c : Condition} {f : Filter} (h : c.Mirrored StandsFor .compound f) :
    Follows c f := by
  have hleaves : List.Forall₂ LeafOf c.statements f.leaves := by
    refine h.items (Condition.joinable_forall₂ _) (fun _ => leavesOfAll_eq_flatMap) ?_
    rintro s _ ⟨⟨names, hstatement⟩, negated, kind, value, rfl⟩
    rw [leaves_negatedIf]
    exact .cons ⟨rfl, _, names, hstatement, leaves_negatedIf negated kind _⟩ .nil
  have hnegations : ∀ g ∈ f.negations, ∃ kind target, g = .leaf kind target := by
    refine h.items (Condition.joinable_forall _) (fun _ => negationsOfAll_eq_flatMap) ?_
    rintro s _ ⟨-, negated, kind, value, rfl⟩
    cases negated with
    | true => exact List.forall_mem_singleton.mpr ⟨kind, _, rfl⟩
    | false => exact List.forall_mem_nil _
  exact ⟨h, hleaves.length_eq.symm, hleaves, hnegations⟩

theorem follows_of_collect {c : Condition} {f : Filter} {names : List Text}
    (h : (collect c names).1 = .ok f) : Follows c f := by
  rw [collect_eq] at h
  refine follows_of_mirrored (Condition.mirrored_of_foldM (fun s g hg => ?_) h)
  obtain ⟨⟨_, more⟩, hstatement, rfl⟩ := map_eq_ok_iff.mp hg
  exact ⟨⟨more, hstatement⟩, oneLeaf_of_ofStatement hstatement⟩

end Filter

/-- A test for null, or for a value of any kind. -/
def AttrTest.IsNullTest (test : AttrTest) : Prop :=
  test = .isNull ∨ test = .isNotNull

/-- The special attribute that an equality is about, if it is about one. -/
def Statement.special? (s : Statement) : Option SpecialAttr :=
  match s.test with
  | .ok (.equality _ _) => SpecialAttr.ofText? s.property
  | _ => none

namespace Leaf

/-- The special attribute whose kind of leaf a leaf is. -/
def special? : Leaf → Option SpecialAttr
  | .attr _ | .any _ => none
  | .anyType _ => some .type
  | .auxClass _ => some .auxClasses
  | .resource _ => some .resources
  | .membership _ => some .groups
  | .relationship _ => some .relationships
  | .relationshipType _ => some .relationshipTypes
  | .role _ => some .roles
  | .privilege _ => some .privileges
  | .dynRealm _ => some .dynRealms
  | .assignable _ => some .assignable
  | .member _ => some .member

/-- A leaf about what a statement is about: of the kind of the special attribute that it is
about, and else a test of its property. -/
def IsAbout (s : Statement) (leaf : Leaf) : Prop :=
  match s.special? with
  | some special => leaf.special? = some special
  | none => ∃ cond, leaf.attrCond? = some cond ∧ cond.schema = s.property

/-- A leaf that tests an attribute for null. -/
def IsNullTest (leaf : Leaf) : Prop :=
  ∃ cond, leaf.attrCond? = some cond ∧ cond.test.IsNullTest

/-- A leaf whose attribute test, if it is one, compares with an expression unless it is a test
for null, and is that of a field of every entity if the settings list its name. -/
structure Proper (settings : SearchSettings) (leaf : Leaf) : Prop where
  expression : ∀ cond, leaf.attrCond? = some cond →
    (cond.expression? = none ↔ cond.test.IsNullTest)
  field : ∀ cond, leaf.attrCond? = some cond →
    (leaf = .any cond ↔ cond.schema ∈ settings.anyFields)

end Leaf

namespace SearchCond

mutual

/-- What the negations in a search condition negate, from left to right. -/
def negations : SearchCond → List SearchCond
  | .leaf _ => []
  | .not c => c :: c.negations
  | .compound _ children => negationsOfAll children

/-- What the negations in search conditions negate, from left to right. -/
def negationsOfAll : List SearchCond → List SearchCond
  | [] => []
  | c :: cs => c.negations ++ negationsOfAll cs

end

theorem leavesOfAll_eq_flatMap (cs : List SearchCond) : leavesOfAll cs = cs.flatMap leaves := by
  induction cs with
  | nil => rfl
  | cons c cs ih => rw [leavesOfAll, ih, List.flatMap_cons]

theorem negationsOfAll_eq_flatMap (cs : List SearchCond) :
    negationsOfAll cs = cs.flatMap negations := by
  induction cs with
  | nil => rfl
  | cons c cs ih => rw [negationsOfAll, ih, List.flatMap_cons]

/-- A proper leaf about what a statement is about, or the negation of one that does not test
for null. -/
def OneLeaf (settings : SearchSettings) (s : Statement) (c : SearchCond) : Prop :=
  ∃ negated leaf, c = negatedIf negated (.leaf leaf) ∧ leaf.IsAbout s ∧
    leaf.Proper settings ∧ (negated = true → ¬ leaf.IsNullTest)

/-- What stands for a statement in a search condition: the search condition of the statement
alone, which is one leaf, possibly negated. -/
def StandsFor (target : Target) (s : Statement) (c : SearchCond) : Prop :=
  ofStatement target s = .ok c ∧ OneLeaf target.settings s c

/-- The leaf of a statement: that of the statement's own search condition, about the same. -/
def LeafOf (target : Target) (s : Statement) (leaf : Leaf) : Prop :=
  leaf.IsAbout s ∧ ∃ c, ofStatement target s = .ok c ∧ c.leaves = [leaf]

/-- The leaf of an attribute test. -/
theorem exists_leaf_ofAttrCond (settings : SearchSettings) {cond : AttrCond}
    (hexpression : cond.expression? = none ↔ cond.test.IsNullTest) :
    ∃ leaf, ofAttrCond settings cond = .leaf leaf ∧ leaf.attrCond? = some cond ∧
      leaf.Proper settings := by
  have hfield : settings.isAnyField cond.schema = true ↔ cond.schema ∈ settings.anyFields :=
    List.contains_iff_mem
  unfold ofAttrCond
  split
  · rename_i hany
    refine ⟨.any cond, rfl, rfl, ⟨?_, ?_⟩⟩
    · rintro _ ⟨⟩
      exact hexpression
    · rintro _ ⟨⟩
      exact iff_of_true rfl (hfield.mp hany)
  · rename_i hany
    refine ⟨.attr cond, rfl, rfl, ⟨?_, ?_⟩⟩
    · rintro _ ⟨⟩
      exact hexpression
    · rintro _ ⟨⟩
      exact iff_of_false Leaf.noConfusion fun hmem => hany (hfield.mpr hmem)

/-- An attribute test is a leaf for a statement that is about no special attribute. -/
theorem oneLeaf_ofAttrCond (settings : SearchSettings) {s : Statement} {cond : AttrCond}
    (negated : Bool)
    (hspecial : s.special? = none) (hschema : cond.schema = s.property)
    (hexpression : cond.expression? = none ↔ cond.test.IsNullTest)
    (hnegated : negated = true → ¬ cond.test.IsNullTest) :
    OneLeaf settings s (negatedIf negated (ofAttrCond settings cond)) := by
  obtain ⟨leaf, hleaf, hcond, hproper⟩ := exists_leaf_ofAttrCond settings hexpression
  refine ⟨negated, leaf, by rw [hleaf], ?_, hproper, ?_⟩
  · unfold Leaf.IsAbout
    rw [hspecial]
    exact ⟨cond, hcond, hschema⟩
  · rintro hnot ⟨other, hother, hnull⟩
    rw [hcond] at hother
    cases hother
    exact hnegated hnot hnull

theorem special?_of_ofSpecial {realm? : Option Text} {special : SpecialAttr} {value : Text}
    {leaf : Leaf} (h : ofSpecial realm? special value = .ok leaf) :
    leaf.special? = some special ∧ leaf.attrCond? = none := by
  cases special <;> cases h <;> exact ⟨rfl, rfl⟩

theorem equalityTest_not_isNullTest (value : Text) (ignoringCase : Bool) :
    ¬ (equalityTest value ignoringCase).IsNullTest := by
  unfold equalityTest AttrTest.IsNullTest
  cases value.contains '%' <;> cases ignoringCase <;> simp

theorem oneLeaf_of_ofEquality {target : Target} {s : Statement} {negated ignoringCase : Bool}
    {c : SearchCond} (htest : s.test = .ok (.equality negated ignoringCase))
    (h : ofEquality target s negated ignoringCase = .ok c) :
    OneLeaf target.settings s c := by
  have habout : s.special? = SpecialAttr.ofText? s.property := by
    simp only [Statement.special?, htest]
  unfold ofEquality at h
  cases hspecial : SpecialAttr.ofText? s.property with
  | some special =>
      simp only [hspecial] at h
      obtain ⟨leaf, hleaf, rfl⟩ := map_eq_ok_iff.mp h
      obtain ⟨hkind, hcond⟩ := special?_of_ofSpecial hleaf
      refine ⟨negated, leaf, rfl, ?_, ?_, ?_⟩
      · unfold Leaf.IsAbout
        rw [habout, hspecial]
        exact hkind
      · constructor <;> simp [hcond]
      · simp [Leaf.IsNullTest, hcond]
  | none =>
      rw [hspecial] at habout
      simp only [hspecial] at h
      split at h
      · -- the test for null carries the negation itself
        cases h
        refine oneLeaf_ofAttrCond target.settings false habout rfl ?_ nofun
        cases negated <;> simp [AttrTest.IsNullTest]
      · cases h
        have hvalue := equalityTest_not_isNullTest (Timestamp.restore s.value) ignoringCase
        exact oneLeaf_ofAttrCond target.settings negated habout rfl (iff_of_false nofun hvalue)
          fun _ => hvalue

theorem oneLeaf_of_ofStatement {target : Target} {s : Statement} {c : SearchCond}
    (h : ofStatement target s = .ok c) : OneLeaf target.settings s c := by
  unfold ofStatement at h
  split at h
  · cases h
  · rename_i htest
    exact oneLeaf_of_ofEquality htest h
  · rename_i test htest
    cases h
    have hspecial : s.special? = none := by simp only [Statement.special?, htest]
    have hnull : ¬ test.attrTest.IsNullTest := by
      cases test <;> simp [OrderTest.attrTest, AttrTest.IsNullTest]
    exact oneLeaf_ofAttrCond target.settings false hspecial rfl (iff_of_false nofun hnull) nofun

/-- How the search condition of a condition follows the condition. -/
structure Follows (target : Target) (c : Condition) (sc : SearchCond) : Prop where
  mirrored : c.Mirrored (StandsFor target) .compound sc
  size : sc.leaves.length = c.size
  leaves : List.Forall₂ (LeafOf target) c.statements sc.leaves
  proper : ∀ leaf ∈ sc.leaves, leaf.Proper target.settings
  negations : ∀ n ∈ sc.negations, ∃ leaf, n = .leaf leaf ∧ ¬ leaf.IsNullTest

theorem leaves_negatedIf (negated : Bool) (leaf : Leaf) :
    (negatedIf negated (.leaf leaf)).leaves = [leaf] := by
  cases negated <;> rfl

theorem follows_of_mirrored {target : Target} {c : Condition} {sc : SearchCond}
    (h : c.Mirrored (StandsFor target) .compound sc) : Follows target c sc := by
  have hleaves : List.Forall₂ (LeafOf target) c.statements sc.leaves := by
    refine h.items (Condition.joinable_forall₂ _) (fun _ => leavesOfAll_eq_flatMap) ?_
    rintro s _ ⟨hstatement, negated, leaf, rfl, habout, -, -⟩
    rw [leaves_negatedIf]
    exact .cons ⟨habout, _, hstatement, leaves_negatedIf negated leaf⟩ .nil
  have hproper : ∀ leaf ∈ sc.leaves, leaf.Proper target.settings := by
    refine h.items (Condition.joinable_forall _) (fun _ => leavesOfAll_eq_flatMap) ?_
    rintro s _ ⟨-, negated, leaf, rfl, -, hproper, -⟩
    rw [leaves_negatedIf]
    exact List.forall_mem_singleton.mpr hproper
  have hnegations : ∀ n ∈ sc.negations, ∃ leaf, n = .leaf leaf ∧ ¬ leaf.IsNullTest := by
    refine h.items (Condition.joinable_forall _) (fun _ => negationsOfAll_eq_flatMap) ?_
    rintro s _ ⟨-, negated, leaf, rfl, -, -, hnull⟩
    cases negated with
    | true => exact List.forall_mem_singleton.mpr ⟨leaf, rfl, hnull rfl⟩
    | false => exact List.forall_mem_nil _
  exact ⟨h, hleaves.length_eq.symm, hleaves, hproper, hnegations⟩

theorem follows_of_ofCondition {target : Target} {c : Condition} {sc : SearchCond}
    (h : ofCondition target c = .ok sc) : Follows target c sc := by
  refine follows_of_mirrored (Condition.mirrored_of_foldM (fun s a hstatement => ?_) h)
  exact ⟨hstatement, oneLeaf_of_ofStatement hstatement⟩

end SearchCond

namespace Condition

/-- The filter of a condition and its search condition, where they exist, join their leaves as
the condition joins its statements: the one leaf of each statement stands in the statement's
place, for the same property, and nothing but a leaf is negated. -/
theorem translations_follow (c : Condition) :
    (∀ names f, (Filter.collect c names).1 = .ok f → Filter.Follows c f) ∧
      ∀ target sc, SearchCond.ofCondition target c = .ok sc →
        SearchCond.Follows target c sc :=
  ⟨fun _ _ => Filter.follows_of_collect, fun _ _ => SearchCond.follows_of_ofCondition⟩

/-- `(name==*ab,$type=gt=5);nick==@null$;age!~7`, and a compound without children. -/
def filterable : Condition :=
  .compound .and
    [.compound .or
        [.statement ⟨"name".toList, .equals, "%ab".toList, none⟩,
          .statement ⟨"$type".toList, .greater, "5".toList, none⟩],
      .statement ⟨"nick".toList, .equals, "@null$".toList, none⟩,
      .statement ⟨"age".toList, .custom, "7".toList, some "!~".toList⟩,
      .compound .or []]

/-- `$groups!=root,(nick!=$null;key!~a*)`. -/
def searchable : Condition :=
  .compound .or
    [.statement ⟨"$groups".toList, .notEquals, "root".toList, none⟩,
      .compound .and
        [.statement ⟨"nick".toList, .notEquals, "$null".toList, none⟩,
          .statement ⟨"key".toList, .custom, "a%".toList, some "!~".toList⟩]]

theorem filterable_searchable_follow :
    (∃ f, (Filter.collect filterable []).1 = .ok f ∧ Filter.Follows filterable f ∧
      f.negations =
        [.leaf .startsWith ⟨"nick".toList, []⟩,
          .leaf .equalsIgnoreCase ⟨"age".toList, "7".toList⟩]) ∧
    ∃ sc, SearchCond.ofCondition ⟨.standard, none⟩ searchable = .ok sc ∧
      SearchCond.Follows ⟨.standard, none⟩ searchable sc ∧
      sc.negations =
        [.leaf (.membership "root".toList),
          .leaf (.any ⟨"key".toList, .ilike, some "a%".toList⟩)] := by
  have hfilter : (Filter.collect filterable []).1 = .ok _ := rfl
  have hsearch : SearchCond.ofCondition ⟨.standard, none⟩ searchable = .ok _ := rfl
  exact ⟨⟨_, hfilter, (translations_follow filterable).1 _ _ hfilter, rfl⟩,
    ⟨_, hsearch, (translations_follow searchable).2 _ _ hsearch, rfl⟩⟩

end Condition

end QueryBatch
