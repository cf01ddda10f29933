/-
The attribute names that filters refer to.  Names are collected while conditions are made
filters, and kept when one cannot be; what a filter has added to them can be read off the
filter.
-/
import Mathlib.Data.List.Induction
import Mathlib.Data.List.TakeWhile
import QueryBatch.Filter.OfCondition
import QueryBatch.Proofs.Condition.Meaning
import QueryBatch.Proofs.Condition.Shape

namespace QueryBatch

/-- A statement that asks whether its property has no value. -/
def Statement.asksForNone (s : Statement) : Bool :=
  match s.test with
  | .ok (.equality false _) => SpecialAttr.isNull s.value
  | _ => false

namespace Filter

/-- The names that a statement adds: its property, unless it asks whether there is no value. -/
def namesOf (s : Statement) : List Text :=
  if s.asksForNone then [] else [s.property]

/-- A statement adds no other names than its own. -/
theorem names_of_ofStatement {s : Statement} {f : Filter} {names : List Text}
    (h : ofStatement s = .ok (f, names)) : names = namesOf s := by
  unfold ofStatement at h
  unfold namesOf Statement.asksForNone
  split at h
  · cases h
  · rename_i negated ignoringCase htest
    unfold ofEquality at h
    rw [htest]
    cases hspecial : SpecialAttr.ofText? s.property with
    | some special => simp [hspecial] at h
    | none =>
        simp only [hspecial] at h
        split at h
        · rename_i hnull
          cases negated with
          | true =>
              cases h
              rfl
          | false =>
              cases h
              simp [hnull]
        · rename_i hnull
          have hnot : SpecialAttr.isNull s.value = false := by simpa using hnull
          cases hvalue : ofValue? s.property s.value ignoringCase with
          | none => simp [hvalue] at h
          | some leaf =>
              simp only [hvalue, Except.ok.injEq, Prod.mk.injEq] at h
              cases negated <;> simp [hnot, ← h.2]
  · rename_i test htest
    cases h
    simp [htest]

/-- Whether a statement has a filter. -/
def expresses (s : Statement) : Bool :=
  (ofStatement s).isOk

/-- The statements before the first one that has no filter. -/
def reached (ss : List Statement) : List Statement :=
  ss.takeWhile expresses

/-- The names that statements add, one after the other, up to the first one that has no
filter. -/
def mentioned (ss : List Statement) : List Text :=
  ((reached ss).filter fun s => !s.asksForNone).map Statement.property

theorem mem_mentioned_iff {name : Text} {ss : List Statement} :
    name ∈ mentioned ss ↔
      ∃ s ∈ ss.takeWhile expresses, s.asksForNone = false ∧ s.property = name := by
  simp [mentioned, reached, and_assoc]

theorem expresses_iff {s : Statement} :
    expresses s = true ↔ ∃ f, (ofStatement s).map Prod.fst = .ok f := by
  unfold expresses
  cases ofStatement s <;> simp [Except.isOk, Except.toBool, Except.map]

/-- All statements of a condition are reached if and only if it has a filter. -/
theorem reached_eq_self_iff {c : Condition} :
    reached c.statements = c.statements ↔
      ∃ f, c.foldM (fun s => (ofStatement s).map Prod.fst) .compound = .ok f := by
  simp only [reached, List.takeWhile_eq_self_iff, expresses_iff, Condition.exists_foldM_iff]

theorem mentioned_append_of_reached {ss : List Statement} (h : reached ss = ss)
    (ts : List Statement) : mentioned (ss ++ ts) = mentioned ss ++ mentioned ts := by
  have hreached : reached (ss ++ ts) = ss ++ reached ts :=
    List.takeWhile_append_of_pos (List.takeWhile_eq_self_iff.mp h)
  unfold mentioned
  rw [hreached, h, List.filter_append, List.map_append]

/-- What follows a statement that has no filter is not mentioned. -/
theorem mentioned_append_of_not_reached {ss : List Statement} (h : reached ss ≠ ss)
    (ts : List Statement) : mentioned (ss ++ ts) = mentioned ss := by
  have hlength : ¬ (ss.takeWhile expresses).length = ss.length := fun hlength =>
    h ((List.takeWhile_prefix expresses).eq_of_length hlength)
  have hreached : reached (ss ++ ts) = reached ss := by
    rw [reached, List.takeWhile_append, if_neg hlength, reached]
  unfold mentioned
  rw [hreached]

theorem mentioned_eq_flatMap {ss : List Statement} (h : reached ss = ss) :
    mentioned ss = ss.flatMap namesOf := by
  unfold mentioned
  rw [h]
  clear h
  induction ss with
  | nil => rfl
  | cons s ss ih =>
      rw [List.flatMap_cons, ← ih, namesOf]
      cases hnone : s.asksForNone <;> simp [hnone]

theorem mentioned_singleton (s : Statement) :
    mentioned [s] = if expresses s then namesOf s else [] := by
  unfold mentioned reached namesOf
  cases hexpresses : expresses s <;> cases hnone : s.asksForNone <;> simp [hexpresses, hnone]

section

variable {α β : Type}

/-- A computation with a certain result that adds certain names, whatever was collected
before. -/
def Adds (x : Collecting α) (result : Except Error α) (more : List Text) : Prop :=
  ∀ names, x names = (result, names ++ more)

theorem adds_pure (a : α) : Adds (pure a) (.ok a) [] :=
  fun names => by rw [List.append_nil]; rfl

theorem Adds.bind_ok {x : Collecting α} {f : α → Collecting β} {a : α} {result : Except Error β}
    {more others : List Text} (hx : Adds x (.ok a) more) (hf : Adds (f a) result others) :
    Adds (x >>= f) result (more ++ others) := by
  intro names
  have hnext := hf (names ++ more)
  rw [List.append_assoc] at hnext
  rw [← hnext]
  simp only [bind, ExceptT.bind, ExceptT.mk, StateT.bind, hx names]
  rfl

theorem Adds.map {x : Collecting α} {result : Except Error α} {more : List Text}
    (hx : Adds x result more) (g : α → β) :
    Adds (x >>= fun a => pure (g a)) (result >>= fun a => pure (g a)) more := by
  intro names
  simp only [bind, ExceptT.bind, ExceptT.mk, StateT.bind, hx names]
  cases result <;> rfl

theorem Adds.bind_error {x : Collecting α} (f : α → Collecting β) {e : Error} {more : List Text}
    (hx : Adds x (.error e) more) : Adds (x >>= f) (.error e) more := by
  intro names
  simp only [bind, ExceptT.bind, ExceptT.mk, StateT.bind, hx names]
  rfl

end

theorem adds_collectStatement (s : Statement) :
    Adds (collectStatement s) ((ofStatement s).map Prod.fst) (mentioned [s]) := by
  intro names
  rw [mentioned_singleton]
  unfold collectStatement expresses
  cases hstatement : ofStatement s with
  | error e => simp [Except.map, Except.isOk, Except.toBool]
  | ok result =>
      obtain ⟨f, more⟩ := result
      rw [names_of_ofStatement hstatement]
      rfl

mutual

/-- A condition adds the names that its statements add up to the first one that has no
filter. -/
theorem adds_foldM : ∀ c : Condition,
    Adds (c.foldM collectStatement .compound)
      (c.foldM (fun s => (ofStatement s).map Prod.fst) .compound) (mentioned c.statements)
  | .statement s => adds_collectStatement s
  | .compound k children => by
      simp only [Condition.foldM, Condition.statements]
      exact (adds_foldAllM children).map _

theorem adds_foldAllM : ∀ cs : List Condition,
    Adds (Condition.foldAllM collectStatement .compound cs)
      (Condition.foldAllM (fun s => (ofStatement s).map Prod.fst) .compound cs)
      (mentioned (Condition.statementsOfAll cs))
  | [] => adds_pure []
  | c :: cs => by
      have hfirst := adds_foldM c
      have hothers := adds_foldAllM cs
      simp only [Condition.foldAllM, Condition.statementsOfAll]
      cases hresult : c.foldM (fun s => (ofStatement s).map Prod.fst) .compound with
      | error e =>
          have hstops : reached c.statements ≠ c.statements := by
            rw [Ne, reached_eq_self_iff, hresult]
            rintro ⟨f, hf⟩
            cases hf
          rw [hresult] at hfirst
          rw [mentioned_append_of_not_reached hstops]
          exact hfirst.bind_error _
      | ok f =>
          have hall : reached c.statements = c.statements :=
            reached_eq_self_iff.mpr ⟨f, hresult⟩
          rw [hresult] at hfirst
          rw [mentioned_append_of_reached hall]
          exact hfirst.bind_ok (hothers.map (f :: ·))

end

mutual

/-- The names that a filter refers to, from left to right; "has no value" refers to none. -/
def referenced : Filter → List Text
  | .leaf _ target => [target.name]
  | .compound _ children => referencedByAll children
  | .not (.leaf .startsWith ⟨_, []⟩) => []
  | .not f => f.referenced

/-- The names that filters refer to, from left to right. -/
def referencedByAll : List Filter → List Text
  | [] => []
  | f :: fs => f.referenced ++ referencedByAll fs

end

theorem referencedByAll_eq_flatMap (fs : List Filter) :
    referencedByAll fs = fs.flatMap referenced := by
  induction fs with
  | nil => rfl
  | cons f fs ih => rw [referencedByAll, ih, List.flatMap_cons]

/-- The leaf for a value refers to its name, and so does its negation: no place of wildcards
leaves an empty start to match. -/
theorem referenced_of_ofValue? {property value : Text} {ignoringCase : Bool} {f : Filter}
    (h : ofValue? property value ignoringCase = some f) (negated : Bool) :
    (negatedIf negated f).referenced = [property] := by
  unfold ofValue? at h
  cases hplace : Wildcard.classify value with
  | trailing rest =>
      obtain ⟨c, rest, rfl⟩ := List.exists_cons_of_ne_nil (Wildcard.ne_nil_of_trailing hplace)
      rw [hplace] at h
      cases ignoringCase <;> cases h
      cases negated <;> rfl
  | exact | leading | both | interior =>
      rw [hplace] at h
      cases ignoringCase <;> cases h <;> cases negated <;> rfl

/-- What a statement adds are the names that its filter refers to. -/
theorem referenced_of_ofStatement {s : Statement} {f : Filter} {names : List Text}
    (h : ofStatement s = .ok (f, names)) : f.referenced = names := by
  unfold ofStatement at h
  split at h
  · cases h
  · rename_i negated ignoringCase _
    unfold ofEquality at h
    cases hspecial : SpecialAttr.ofText? s.property with
    | some special => simp [hspecial] at h
    | none =>
        simp only [hspecial] at h
        split at h
        · cases negated <;> cases h <;> rfl
        · cases hvalue : ofValue? s.property s.value ignoringCase with
          | none => simp [hvalue] at h
          | some leaf =>
              simp only [hvalue, Except.ok.injEq, Prod.mk.injEq] at h
              rw [← h.1, ← h.2]
              exact referenced_of_ofValue? hvalue negated
  · cases h
    rfl

/-- The names that conditions have left, made filters one after the other. -/
def collectedBy (cs : List Condition) : List Text :=
  cs.foldl (fun names c => (collect c names).2) []

theorem collect_eq (c : Condition) (names : List Text) :
    collect c names = (c.foldM (fun s => (ofStatement s).map Prod.fst) .compound,
      names ++ mentioned c.statements) :=
  adds_foldM c names

/-- A filter mentions what it refers to. -/
theorem mentioned_eq_referenced {c : Condition} {f : Filter}
    (h : c.foldM (fun s => (ofStatement s).map Prod.fst) .compound = .ok f) :
    mentioned c.statements = f.referenced := by
  have hmirrored : c.Mirrored (fun s g => g.referenced = namesOf s) .compound f := by
    refine Condition.mirrored_of_foldM (fun s g hg => ?_) h
    obtain ⟨⟨_, names⟩, hstatement, rfl⟩ := map_eq_ok_iff.mp hg
    rw [← names_of_ofStatement hstatement]
    exact referenced_of_ofStatement hstatement
  rw [mentioned_eq_flatMap (reached_eq_self_iff.mpr ⟨f, h⟩)]
  symm
  refine hmirrored.items (Condition.joinable_flatMap namesOf)
    (fun _ => referencedByAll_eq_flatMap) fun s g hg => ?_
  rw [hg, List.flatMap_singleton]

theorem collectedBy_append_singleton (before : List Condition) (c : Condition) :
    collectedBy (before ++ [c]) = collectedBy before ++ mentioned c.statements := by
  simp only [collectedBy, List.foldl_append, List.foldl_cons, List.foldl_nil, collect_eq]

/-- The names left are those mentioned by one condition after the other. -/
theorem collectedBy_eq_flatMap (cs : List Condition) :
    collectedBy cs = cs.flatMap fun c => mentioned c.statements := by
  induction cs using List.reverseRecOn with
  | nil => rfl
  | append_singleton before c ih =>
      rw [collectedBy_append_singleton, ih, List.flatMap_append, List.flatMap_singleton]

theorem mem_sortNames_iff {name : Text} {names : List Text} :
    name ∈ sortNames names ↔ name ∈ names := by
  rw [sortNames, List.mem_mergeSort, List.mem_eraseDups]

/-- The names left by conditions that were made filters one after the other, whether each could
be or not, are the properties of their statements, up to the first of each condition that has
no filter, except of those that ask whether there is no value.  One more condition adds its
own to those left before; if it has a filter, they are the names that the filter refers to. -/
theorem names_after_walks (before : List Condition) (c : Condition) :
    collectedBy before = before.flatMap (fun c => mentioned c.statements) ∧
      (∀ name, name ∈ sortNames (collectedBy (before ++ [c])) ↔
        name ∈ sortNames (collectedBy before) ∨
          ∃ s ∈ c.statements.takeWhile expresses, s.asksForNone = false ∧ s.property = name) ∧
      ∀ f, (collect c (collectedBy before)).1 = .ok f →
        c.statements.takeWhile expresses = c.statements ∧
          mentioned c.statements = f.referenced := by
  refine ⟨collectedBy_eq_flatMap before, fun name => ?_, fun f hf => ?_⟩
  · rw [mem_sortNames_iff, mem_sortNames_iff, collectedBy_append_singleton, List.mem_append,
      mem_mentioned_iff]
  · rw [collect_eq] at hf
    exact ⟨reached_eq_self_iff.mpr ⟨f, hf⟩, mentioned_eq_referenced hf⟩

/-- `age==1;name==a*b;nick==x`: nothing matches a wildcard inside. -/
def stopped : Condition :=
  .compound .and
    [.statement ⟨"age".toList, .equals, "1".toList, none⟩,
      .statement ⟨"name".toList, .equals, "a%b".toList, none⟩,
      .statement ⟨"nick".toList, .equals, "x".toList, none⟩]

/-- `login==$null,(name!=*,nick!=$null)`. -/
def emptyStarts : Condition :=
  .compound .or
    [.statement ⟨"login".toList, .equals, "$null".toList, none⟩,
      .compound .or
        [.statement ⟨"name".toList, .notEquals, "%".toList, none⟩,
          .statement ⟨"nick".toList, .notEquals, "$null".toList, none⟩]]

theorem names_after_stopped_walk :
    collectedBy [stopped] = ["age".toList] ∧
      (∀ name, name ∈ sortNames (collectedBy [stopped, emptyStarts]) ↔
        name ∈ ["age".toList] ∨ name ∈ ["name".toList, "nick".toList]) ∧
      ∃ f, (collect emptyStarts (collectedBy [stopped])).1 = .ok f ∧
        f.referenced = ["name".toList, "nick".toList] := by
  obtain ⟨-, hnames, hfilter⟩ := names_after_walks [stopped] emptyStarts
  have hbefore : collectedBy [stopped] = ["age".toList] := rfl
  have hmentioned : mentioned emptyStarts.statements = ["name".toList, "nick".toList] := rfl
  have hcollect : (collect emptyStarts (collectedBy [stopped])).1 = .ok _ := rfl
  refine ⟨hbefore, fun name => ?_, _, hcollect, (hfilter _ hcollect).2.symm⟩
  have hname := hnames name
  rwa [← mem_mentioned_iff, hmentioned, @mem_sortNames_iff name (collectedBy [stopped]),
    hbefore] at hname

end Filter

end QueryBatch
