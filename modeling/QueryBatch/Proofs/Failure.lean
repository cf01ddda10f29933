/-
Computations that may fail: what a success tells about the steps it came from.
-/
import Mathlib.Data.List.Forall2

namespace QueryBatch

variable {ε α β : Type}

theorem map_eq_ok_iff {f : α → β} {x : Except ε α} {b : β} :
    x.map f = .ok b ↔ ∃ a, x = .ok a ∧ f a = b := by
  cases x <;> simp [Except.map]

theorem bind_eq_ok_iff {f : α → Except ε β} {x : Except ε α} {b : β} :
    x >>= f = .ok b ↔ ∃ a, x = .ok a ∧ f a = .ok b := by
  cases x <;> simp [bind, Except.bind]

theorem bind_eq_error_iff {f : α → Except ε β} {x : Except ε α} {e : ε} :
    x >>= f = .error e ↔ x = .error e ∨ ∃ a, x = .ok a ∧ f a = .error e := by
  cases x <;> simp [bind, Except.bind]

theorem map_eq_error_iff {f : α → β} {x : Except ε α} {e : ε} :
    x.map f = .error e ↔ x = .error e := by
  cases x <;> simp [Except.map]

theorem toOption_eq_some_iff {x : Except ε α} {a : α} : x.toOption = some a ↔ x = .ok a := by
  cases x <;> simp [Except.toOption]

/-- A list is related to another one by way of a list between them. -/
theorem forall₂_exists_iff {γ : Type} {R : α → β → Prop} {S : β → γ → Prop} {as : List α}
    {cs : List γ} :
    List.Forall₂ (fun a c => ∃ b, R a b ∧ S b c) as cs ↔
      ∃ bs, List.Forall₂ R as bs ∧ List.Forall₂ S bs cs := by
  constructor
  · intro h
    induction h with
    | nil => exact ⟨[], .nil, .nil⟩
    | cons hac _ ih =>
        obtain ⟨b, hab, hbc⟩ := hac
        obtain ⟨bs, hR, hS⟩ := ih
        exact ⟨b :: bs, .cons hab hR, .cons hbc hS⟩
  · rintro ⟨bs, hR, hS⟩
    induction hR generalizing cs with
    | nil =>
        cases hS
        exact .nil
    | cons hab _ ih =>
        cases hS with
        | cons hbc hS => exact .cons ⟨_, hab, hbc⟩ (ih hS)

/-- A list is related to what its members are mapped to, and to nothing else. -/
theorem forall₂_eq_iff_map {f : α → β} {as : List α} {bs : List β} :
    List.Forall₂ (fun a b => f a = b) as bs ↔ as.map f = bs := by
  have h := List.forall₂_map_left_iff (R := fun b c : β => b = c) (f := f) (l := as) (u := bs)
  rw [← h, List.forall₂_eq_eq_eq]

/-- A member on the right of a relation between lists comes from one on the left. -/
theorem exists_of_forall₂_of_mem {R : α → β → Prop} {as : List α} {bs : List β}
    (h : List.Forall₂ R as bs) {b : β} (hb : b ∈ bs) : ∃ a ∈ as, R a b := by
  induction h with
  | nil => cases hb
  | @cons a b' as bs hab _ ih =>
      rcases List.mem_cons.mp hb with rfl | hb
      · exact ⟨a, List.mem_cons_self, hab⟩
      · obtain ⟨a', ha', hrelated⟩ := ih hb
        exact ⟨a', List.mem_cons_of_mem a ha', hrelated⟩

/-- Members that are each related to something make up a list related to a list. -/
theorem exists_forall₂_iff {R : α → β → Prop} {as : List α} :
    (∃ bs, List.Forall₂ R as bs) ↔ ∀ a ∈ as, ∃ b, R a b := by
  induction as with
  | nil => exact iff_of_true ⟨[], .nil⟩ (List.forall_mem_nil _)
  | cons a as ih =>
      rw [List.forall_mem_cons, ← ih]
      constructor
      · rintro ⟨bs, hbs⟩
        obtain ⟨b, others, hab, hothers, rfl⟩ := List.forall₂_cons_left_iff.mp hbs
        exact ⟨⟨b, hab⟩, others, hothers⟩
      · rintro ⟨⟨b, hab⟩, others, hothers⟩
        exact ⟨b :: others, .cons hab hothers⟩

/-- Relations that agree on the members of a list relate it to the same lists. -/
theorem forall₂_congr {R S : α → β → Prop} {as : List α} {bs : List β}
    (h : ∀ a ∈ as, ∀ b, R a b ↔ S a b) : List.Forall₂ R as bs ↔ List.Forall₂ S as bs := by
  induction as generalizing bs with
  | nil => cases bs <;> simp
  | cons a as ih =>
      cases bs with
      | nil => simp
      | cons b bs =>
          rw [List.forall₂_cons, List.forall₂_cons, h a List.mem_cons_self,
            ih fun a ha => h a (List.mem_cons_of_mem _ ha)]

/-- A list maps to another one if each member maps to the member in its place. -/
theorem mapM_eq_ok_iff {f : α → Except ε β} {as : List α} {bs : List β} :
    as.mapM f = .ok bs ↔ List.Forall₂ (fun a b => f a = .ok b) as bs := by
  induction as generalizing bs with
  | nil => simp [pure, Except.pure, eq_comm]
  | cons a as ih =>
      rw [List.mapM_cons]
      cases hfirst : f a with
      | error e =>
          simp only [bind, Except.bind, reduceCtorEq, false_iff]
          rintro (_ | ⟨hok, -⟩)
          simp [hfirst] at hok
      | ok b =>
          constructor
          · intro h
            obtain ⟨b', hb, h⟩ := bind_eq_ok_iff.mp h
            obtain ⟨others, hothers, h⟩ := bind_eq_ok_iff.mp h
            cases hb
            cases h
            exact .cons hfirst (ih.mp hothers)
          · rintro (_ | ⟨hok, hothers⟩)
            rw [hfirst] at hok
            cases hok
            rw [ih.mpr hothers]
            rfl

/-- A list fails to map because one of its members does. -/
theorem exists_of_mapM_eq_error {f : α → Except ε β} {as : List α} {e : ε}
    (h : as.mapM f = .error e) : ∃ a ∈ as, f a = .error e := by
  induction as with
  | nil => simp [pure, Except.pure] at h
  | cons a as ih =>
      rw [List.mapM_cons] at h
      cases hfirst : f a with
      | error e' =>
          rw [hfirst] at h
          cases h
          exact ⟨a, List.mem_cons_self, hfirst⟩
      | ok b =>
          rw [hfirst] at h
          cases hothers : as.mapM f with
          | error e' =>
              have h' : (Except.error e' : Except ε (List β)) = .error e := by
                simpa [bind, Except.bind, hothers] using h
              obtain ⟨c, hc, hfail⟩ := ih (hothers.trans h')
              exact ⟨c, List.mem_cons_of_mem a hc, hfail⟩
          | ok bs => simp [bind, Except.bind, hothers, pure, Except.pure] at h

end QueryBatch
