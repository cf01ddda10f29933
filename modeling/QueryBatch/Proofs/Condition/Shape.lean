/-
The shape of conditions.  A tree mirrors a condition if it joins its parts as the condition
does, with something for each statement in the statement's place.  What is read off such a
tree from left to right goes with the statements, in their order.
-/
import Mathlib.Data.List.Forall2
import QueryBatch.Condition.Test
import QueryBatch.Proofs.Failure

namespace QueryBatch.Condition

variable {α β ε : Type} {place : Statement → α → Prop} {node : Connective → List α → α}

mutual

/-- A tree that has the connectives of a condition over as many children in the same order,
and in the place of each statement something that may stand there. -/
inductive Mirrored (place : Statement → α → Prop) (node : Connective → List α → α) :
    Condition → α → Prop
  | statement {s : Statement} {a : α} (h : place s a) : Mirrored place node (.statement s) a
  | compound {k : Connective} {children : List Condition} {parts : List α}
      (h : MirroredAll place node children parts) :
      Mirrored place node (.compound k children) (node k parts)

/-- Trees that mirror conditions one by one. -/
inductive MirroredAll (place : Statement → α → Prop) (node : Connective → List α → α) :
    List Condition → List α → Prop
  | nil : MirroredAll place node [] []
  | cons {c : Condition} {cs : List Condition} {a : α} {as : List α}
      (first : Mirrored place node c a) (others : MirroredAll place node cs as) :
      MirroredAll place node (c :: cs) (a :: as)

end

mutual

/-- What a fold makes of a condition mirrors it. -/
theorem mirrored_of_foldM {leaf : Statement → Except ε α}
    (hleaf : ∀ s a, leaf s = .ok a → place s a) :
    ∀ {c : Condition} {a : α}, foldM leaf node c = .ok a → Mirrored place node c a
  | .statement s, a, h => .statement (hleaf s a h)
  | .compound k children, _, h => by
      rw [foldM] at h
      obtain ⟨parts, hparts, h⟩ := bind_eq_ok_iff.mp h
      cases h
      exact .compound (mirroredAll_of_foldAllM hleaf hparts)

theorem mirroredAll_of_foldAllM {leaf : Statement → Except ε α}
    (hleaf : ∀ s a, leaf s = .ok a → place s a) :
    ∀ {cs : List Condition} {as : List α}, foldAllM leaf node cs = .ok as →
      MirroredAll place node cs as
  | [], _, h => by
      cases h
      exact .nil
  | c :: cs, _, h => by
      rw [foldAllM] at h
      obtain ⟨a, ha, h⟩ := bind_eq_ok_iff.mp h
      obtain ⟨as, has, h⟩ := bind_eq_ok_iff.mp h
      cases h
      exact .cons (mirrored_of_foldM hleaf ha) (mirroredAll_of_foldAllM hleaf has)

end

/-- A relation between statements and items that holds of what is joined if it holds of the
pieces. -/
structure Joinable (goesWith : List Statement → List β → Prop) : Prop where
  nil : goesWith [] []
  append : ∀ {ss ts : List Statement} {xs ys : List β}, goesWith ss xs → goesWith ts ys →
    goesWith (ss ++ ts) (xs ++ ys)

theorem joinable_forall₂ (R : Statement → β → Prop) : Joinable (List.Forall₂ R) :=
  ⟨.nil, fun hxs hys => List.rel_append hxs hys⟩

theorem joinable_forall (P : β → Prop) : Joinable fun _ xs => ∀ x ∈ xs, P x :=
  ⟨by simp, fun hxs hys => List.forall_mem_append.mpr ⟨hxs, hys⟩⟩

theorem joinable_flatMap (g : Statement → List β) : Joinable fun ss xs => xs = ss.flatMap g :=
  ⟨rfl, fun hxs hys => by rw [hxs, hys, List.flatMap_append]⟩

section

variable {goesWith : List Statement → List β → Prop} {items : α → List β}

mutual

/-- The items of a tree that mirrors a condition go with the condition's statements, if those
in the place of a statement go with it. -/
theorem Mirrored.items (hjoin : Joinable goesWith)
    (hnode : ∀ k as, items (node k as) = as.flatMap items)
    (hplace : ∀ s a, place s a → goesWith [s] (items a)) :
    ∀ {c : Condition} {a : α}, Mirrored place node c a → goesWith c.statements (items a)
  | .statement s, a, .statement h => hplace s a h
  | .compound k _, _, .compound h => by
      rw [statements, hnode]
      exact h.items hjoin hnode hplace

theorem MirroredAll.items (hjoin : Joinable goesWith)
    (hnode : ∀ k as, items (node k as) = as.flatMap items)
    (hplace : ∀ s a, place s a → goesWith [s] (items a)) :
    ∀ {cs : List Condition} {as : List α}, MirroredAll place node cs as →
      goesWith (statementsOfAll cs) (as.flatMap items)
  | [], _, .nil => hjoin.nil
  | c :: cs, _, .cons first others => by
      rw [statementsOfAll, List.flatMap_cons]
      exact hjoin.append (first.items hjoin hnode hplace) (others.items hjoin hnode hplace)

end

end

end QueryBatch.Condition
