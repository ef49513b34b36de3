import Mathlib.Data.List.Forall2
import Mathlib.Data.Option.Basic

/-!
# Related results

Two computations that run side by side are compared by their results. Results in a list are
compared one by one, and of two computations that may fail either both do or none.
-/

namespace Sable

variable {α β ε : Type}

/-- Two computations both yield related results, or both fail for related reasons. -/
inductive Outcomes (E : ε → ε → Prop) (Q : α → α → Prop) : Except ε α → Except ε α → Prop
  | ok {a b : α} : Q a b → Outcomes E Q (.ok a) (.ok b)
  | error {e f : ε} : E e f → Outcomes E Q (.error e) (.error f)

namespace Outcomes

variable {E : ε → ε → Prop} {Q : α → α → Prop} {R : β → β → Prop} {x y : Except ε α}

theorem map {f g : α → β} (h : Outcomes E Q x y) (hfg : ∀ {a b}, Q a b → R (f a) (g b)) :
    Outcomes E R (x.map f) (y.map g) := by
  cases h with
  | ok h => exact .ok (hfg h)
  | error h => exact .error h

end Outcomes

/-! ### Optional results -/

section

variable {γ δ : Type} {R : α → β → Prop} {S : γ → δ → Prop} {x : Option α} {y : Option β}

theorem rel_eq {a b : Option α} (h : a = b) : Option.Rel Eq a b := by
  cases h
  cases a with
  | none => exact .none
  | some a => exact .some rfl

theorem eq_of_rel {a b : Option α} (h : Option.Rel Eq a b) : a = b := by
  cases h with
  | none => rfl
  | some h => rw [h]

theorem isSome_eq_of_rel (h : Option.Rel R x y) : x.isSome = y.isSome := by
  cases h <;> rfl

theorem rel_imp {R' : α → β → Prop} (h : Option.Rel R x y) (himp : ∀ {a b}, R a b → R' a b) :
    Option.Rel R' x y := by
  cases h with
  | none => exact .none
  | some h => exact .some (himp h)

/-- Of related results, it is enough to look at those that there are. -/
theorem rel_imp_of_mem {R' : α → β → Prop} (h : Option.Rel R x y)
    (himp : ∀ a ∈ x, ∀ b ∈ y, R a b → R' a b) : Option.Rel R' x y := by
  cases h with
  | none => exact .none
  | some h => exact .some (himp _ rfl _ rfl h)

theorem rel_map {f : α → γ} {g : β → δ} (h : Option.Rel R x y)
    (hfg : ∀ {a b}, R a b → S (f a) (g b)) : Option.Rel S (x.map f) (y.map g) := by
  cases h with
  | none => exact .none
  | some h => exact .some (hfg h)

theorem rel_bind {f : α → Option γ} {g : β → Option δ} (h : Option.Rel R x y)
    (hfg : ∀ {a b}, R a b → Option.Rel S (f a) (g b)) : Option.Rel S (x.bind f) (y.bind g) := by
  cases h with
  | none => exact .none
  | some h => exact hfg h

theorem map_eq_of_rel {f : α → γ} {g : β → γ} (h : Option.Rel R x y)
    (hfg : ∀ {a b}, R a b → f a = g b) : x.map f = y.map g := by
  cases h with
  | none => rfl
  | some h => exact congrArg some (hfg h)

theorem bind_eq_of_rel {f : α → Option γ} {g : β → Option γ} (h : Option.Rel R x y)
    (hfg : ∀ {a b}, R a b → f a = g b) : x.bind f = y.bind g := by
  cases h with
  | none => rfl
  | some h => exact hfg h

/-- The first results of two searches along related lists are related if all results are. -/
theorem rel_findSome? {f : γ → Option α} {g : δ → Option β} {xs : List γ} {ys : List δ}
    (h : List.Forall₂ S xs ys) (hfg : ∀ {a b}, S a b → Option.Rel R (f a) (g b)) :
    Option.Rel R (xs.findSome? f) (ys.findSome? g) := by
  induction h with
  | nil => exact .none
  | @cons a b _ _ hab _ ih =>
    have hfirst := hfg hab
    rw [List.findSome?_cons, List.findSome?_cons]
    generalize f a = x, g b = y at hfirst
    cases hfirst with
    | none => exact ih
    | some h => exact .some h

end

/-! ### Results in lists -/

variable {R : α → β → Prop} {xs : List α} {ys : List β}

/-- Of related results, it is enough to look at those in the lists. -/
theorem forall₂_imp_of_mem {S : α → β → Prop} (h : List.Forall₂ R xs ys)
    (himp : ∀ x ∈ xs, ∀ y ∈ ys, R x y → S x y) : List.Forall₂ S xs ys := by
  induction h with
  | nil => exact .nil
  | cons hxy _ ih =>
    refine .cons (himp _ List.mem_cons_self _ List.mem_cons_self hxy) (ih fun x hx y hy => ?_)
    exact himp x (List.mem_cons_of_mem _ hx) y (List.mem_cons_of_mem _ hy)

theorem isEmpty_eq_of_forall₂ (h : List.Forall₂ R xs ys) : xs.isEmpty = ys.isEmpty := by
  cases h <;> rfl

theorem map_eq_of_forall₂ {γ : Type} {f : α → γ} {g : β → γ} (h : List.Forall₂ R xs ys)
    (hfg : ∀ {x y}, R x y → f x = g y) : xs.map f = ys.map g := by
  induction h with
  | nil => rfl
  | cons hxy _ ih => rw [List.map_cons, List.map_cons, hfg hxy, ih]

/-- Lists are sorted alike by orders that compare related elements alike. -/
theorem rel_mergeSort {p : α → α → Bool} {q : β → β → Bool} (h : List.Forall₂ R xs ys)
    (hpq : ∀ {x x' y y'}, R x y → R x' y' → p x x' = q y y') :
    List.Forall₂ R (xs.mergeSort p) (ys.mergeSort q) := by
  -- Both lists are projections of one list of related pairs, and one order sorts that list.
  obtain ⟨zs, rfl, rfl⟩ : ∃ zs : List { z : α × β // R z.1 z.2 },
      zs.map (fun z => z.1.1) = xs ∧ zs.map (fun z => z.1.2) = ys := by
    induction h with
    | nil => exact ⟨[], rfl, rfl⟩
    | cons hxy _ ih =>
      obtain ⟨zs, rfl, rfl⟩ := ih
      exact ⟨⟨(_, _), hxy⟩ :: zs, rfl, rfl⟩
  have hsort := List.map_mergeSort (r := fun z z' : { z : α × β // R z.1 z.2 } => p z.1.1 z'.1.1)
    (s := p) (f := fun z => z.1.1) (l := zs) fun _ _ _ _ => rfl
  have hsort' := List.map_mergeSort (r := fun z z' : { z : α × β // R z.1 z.2 } => p z.1.1 z'.1.1)
    (s := q) (f := fun z => z.1.2) (l := zs) fun z _ z' _ => hpq z.2 z'.2
  rw [← hsort, ← hsort', List.forall₂_map_left_iff, List.forall₂_map_right_iff]
  exact List.forall₂_same.mpr fun z _ => z.2

/-- Searches for related elements find related elements. -/
theorem rel_find? {p : α → Bool} {q : β → Bool} (h : List.Forall₂ R xs ys)
    (hpq : ∀ {x y}, R x y → p x = q y) : Option.Rel R (xs.find? p) (ys.find? q) := by
  induction h with
  | nil => exact .none
  | @cons x y xs ys hxy _ ih =>
    have heq := hpq hxy
    cases hp : p x with
    | true =>
      rw [List.find?_cons_of_pos hp, List.find?_cons_of_pos (heq ▸ hp)]
      exact .some hxy
    | false =>
      rw [List.find?_cons_of_neg (by simp [hp]), List.find?_cons_of_neg (by simp [← heq, hp])]
      exact ih

/-- Equally long starts of lists of related elements are related. -/
theorem rel_takeWhile {p : α → Bool} {q : β → Bool} (h : List.Forall₂ R xs ys)
    (hpq : ∀ {x y}, R x y → p x = q y) :
    List.Forall₂ (fun x y => R x y ∧ p x = true) (xs.takeWhile p) (ys.takeWhile q) := by
  induction h with
  | nil => exact .nil
  | @cons x y xs ys hxy _ ih =>
    have heq := hpq hxy
    cases hp : p x with
    | true =>
      rw [List.takeWhile_cons_of_pos hp, List.takeWhile_cons_of_pos (heq ▸ hp)]
      exact .cons ⟨hxy, hp⟩ ih
    | false =>
      rw [List.takeWhile_cons_of_neg (by simp [hp]),
        List.takeWhile_cons_of_neg (by simp [← heq, hp])]
      exact .nil

end Sable
