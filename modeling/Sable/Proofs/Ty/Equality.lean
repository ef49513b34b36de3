import Mathlib.Data.List.Forall2
import Mathlib.Data.Option.Basic
import Sable.Ty

/-!
# Equality of types

Types that carry a name are compared by it, and all others part by part. The skeleton of a type
keeps what such a comparison looks at: an alias without its definition, and a struct type without
its fields, wherever they stand. Two types are the same exactly if they have one skeleton. A bare
type is without the definitions only, so it has the fields that the text of a type shows as well.
-/

namespace Sable.Ty

mutual

/-- A type without the definitions of all aliases and the fields of all struct types in it. -/
def skeleton : Ty → Ty
  | prim p => prim p
  | named name _ => named name none
  | struct name _ => struct name []
  | array elem => array elem.skeleton
  | function params ret => function (skeletons params) (skeleton? ret)

/-- The skeletons of a list of types. -/
def skeletons : List Ty → List Ty
  | [] => []
  | t :: ts => t.skeleton :: skeletons ts

/-- The skeleton of a type that may be missing. -/
def skeleton? : Option Ty → Option Ty
  | none => none
  | some t => some t.skeleton

end

mutual

/-- Two types are the same exactly if they have one skeleton. -/
theorem same_iff_skeleton_eq : ∀ t u : Ty, t.same u = true ↔ t.skeleton = u.skeleton
  | prim p, u => by cases u <;> simp [same, skeleton]
  | named name _, u => by cases u <;> simp [same, skeleton]
  | struct name _, u => by cases u <;> simp [same, skeleton]
  | array t, u => by
    cases u with
    | array u => rw [same, same_iff_skeleton_eq t u, skeleton, skeleton, array.injEq]
    | _ => simp [same, skeleton]
  | function ps r, u => by
    cases u with
    | function qs r' =>
      rw [same, Bool.and_eq_true, sameList_iff_skeletons_eq ps qs, sameOption_iff_skeleton?_eq r r',
        skeleton, skeleton, function.injEq]
    | _ => simp [same, skeleton]

/-- The same for lists of types. -/
theorem sameList_iff_skeletons_eq :
    ∀ ts us : List Ty, sameList ts us = true ↔ skeletons ts = skeletons us
  | [], us => by cases us <;> simp [sameList, skeletons]
  | t :: ts, [] => by simp [sameList, skeletons]
  | t :: ts, u :: us => by
    rw [sameList, Bool.and_eq_true, same_iff_skeleton_eq t u, sameList_iff_skeletons_eq ts us,
      skeletons, skeletons, List.cons.injEq]

/-- The same for types that may be missing. -/
theorem sameOption_iff_skeleton?_eq :
    ∀ t? u? : Option Ty, sameOption t? u? = true ↔ skeleton? t? = skeleton? u?
  | none, u? => by cases u? <;> simp [sameOption, skeleton?]
  | some t, none => by simp [sameOption, skeleton?]
  | some t, some u => by
    rw [sameOption, same_iff_skeleton_eq t u, skeleton?, skeleton?, Option.some.injEq]

end

/-- Types are the same that have one skeleton, which is an equivalence. -/
theorem equivalence_same : Equivalence fun t u : Ty => t.same u = true where
  refl t := (same_iff_skeleton_eq t t).mpr rfl
  symm {t u} h := (same_iff_skeleton_eq u t).mpr ((same_iff_skeleton_eq t u).mp h).symm
  trans {t u v} htu huv := (same_iff_skeleton_eq t v).mpr
    (((same_iff_skeleton_eq t u).mp htu).trans ((same_iff_skeleton_eq u v).mp huv))

/-- Types of one skeleton differ in definitions and fields only, and compare alike. -/
theorem same_congr {t t' u u' : Ty} (ht : t.skeleton = t'.skeleton)
    (hu : u.skeleton = u'.skeleton) : t.same u = t'.same u' := by
  rw [Bool.eq_iff_iff, same_iff_skeleton_eq, same_iff_skeleton_eq, ht, hu]

/-! ### Parts of types -/

theorem sameList_iff_forall₂ {ts us : List Ty} :
    sameList ts us = true ↔ List.Forall₂ (fun t u => t.same u = true) ts us := by
  induction ts generalizing us with
  | nil => cases us <;> simp [sameList]
  | cons t ts ih =>
    cases us with
    | nil => simp [sameList]
    | cons u us => rw [sameList, Bool.and_eq_true, ih, List.forall₂_cons]

theorem sameOption_iff_rel {t? u? : Option Ty} :
    sameOption t? u? = true ↔ Option.Rel (fun t u => t.same u = true) t? u? := by
  cases t? <;> cases u? <;> simp [sameOption]

/-- Functions are the same whose parameters and results are the same, one by one. -/
theorem same_function_iff {ps qs : List Ty} {r r' : Option Ty} :
    (function ps r).same (function qs r') = true ↔
      List.Forall₂ (fun t u => t.same u = true) ps qs ∧
        Option.Rel (fun t u => t.same u = true) r r' := by
  rw [same, Bool.and_eq_true, sameList_iff_forall₂, sameOption_iff_rel]

/--
Two types are the same exactly if they are equal without the definitions of all aliases and the
fields of all struct types in them. So being the same is an equivalence; other definitions and
fields, wherever they stand in a type, change nothing; and arrays and functions are the same
exactly if their parts are, whatever the number of parameters, with a result or without one.
-/
theorem same_exact :
    (∀ t u : Ty, t.same u = true ↔ t.skeleton = u.skeleton) ∧
      (Equivalence fun t u : Ty => t.same u = true) ∧
      (∀ t t' u u' : Ty, t.skeleton = t'.skeleton → u.skeleton = u'.skeleton →
        t.same u = t'.same u') ∧
      (∀ t u : Ty, (array t).same (array u) = t.same u) ∧
      ∀ (ps qs : List Ty) (r r' : Option Ty), (function ps r).same (function qs r') = true ↔
        List.Forall₂ (fun t u => t.same u = true) ps qs ∧
          Option.Rel (fun t u => t.same u = true) r r' :=
  ⟨same_iff_skeleton_eq, equivalence_same, fun _ _ _ _ => same_congr,
    fun t u => by rw [same], fun _ _ _ _ => same_function_iff⟩

/-- A function from aliases to a struct type. -/
def listingOf (definition : Option Ty) (fields : List (String × Ty)) : Ty :=
  function [array (named "Id" definition), prim .bool] (some (struct "Page" fields))

/-- Deep in a type, a definition and fields that become known leave it the same as itself. -/
theorem same_listingOf :
    (listingOf none []).skeleton = (listingOf (some (prim .i64)) [("len", prim .u32)]).skeleton ∧
      (listingOf none []).same (listingOf none []) =
        (listingOf none []).same (listingOf (some (prim .i64)) [("len", prim .u32)]) := by
  have hskeleton : (listingOf none []).skeleton =
      (listingOf (some (prim .i64)) [("len", prim .u32)]).skeleton := by
    simp [listingOf, skeleton, skeletons, skeleton?]
  exact ⟨hskeleton, same_exact.2.2.1 _ _ _ _ rfl hskeleton⟩

/-! ### Definitions of aliases -/

mutual

/-- A type without the definitions of all aliases in it. -/
def bare : Ty → Ty
  | prim p => prim p
  | named name _ => named name none
  | struct name fields => struct name (bareFields fields)
  | array elem => array elem.bare
  | function params ret => function (bareList params) (bareOption ret)

/-- Fields with types that are bare. -/
def bareFields : List (String × Ty) → List (String × Ty)
  | [] => []
  | (name, t) :: fields => (name, t.bare) :: bareFields fields

/-- A list of types that are bare. -/
def bareList : List Ty → List Ty
  | [] => []
  | t :: ts => t.bare :: bareList ts

/-- A type that is bare, or missing. -/
def bareOption : Option Ty → Option Ty
  | none => none
  | some t => some t.bare

end

theorem bareFields_eq_map (fields : List (String × Ty)) :
    bareFields fields = fields.map (Prod.map id bare) := by
  induction fields with
  | nil => rfl
  | cons field fields ih => rw [bareFields, ih, List.map_cons, Prod.map_apply, id]

mutual

/-- A bare type has the skeleton of the type. -/
theorem skeleton_bare : ∀ t : Ty, t.bare.skeleton = t.skeleton
  | prim _ => rfl
  | named _ _ => rfl
  | struct _ _ => rfl
  | array elem => by rw [bare, skeleton, skeleton, skeleton_bare elem]
  | function params ret => by
    rw [bare, skeleton, skeleton, skeletons_bareList params, skeleton?_bareOption ret]

private theorem skeletons_bareList : ∀ ts : List Ty, skeletons (bareList ts) = skeletons ts
  | [] => rfl
  | t :: ts => by rw [bareList, skeletons, skeletons, skeleton_bare t, skeletons_bareList ts]

private theorem skeleton?_bareOption : ∀ t? : Option Ty, skeleton? (bareOption t?) = skeleton? t?
  | none => rfl
  | some t => by rw [bareOption, skeleton?, skeleton?, skeleton_bare t]

end

mutual

/-- A bare type has the text of the type. -/
theorem text_bare : ∀ t : Ty, t.bare.text = t.text
  | prim _ => rfl
  | named _ _ => rfl
  | struct _ [] => rfl
  | struct name ((field, t) :: fields) => by
    rw [bare, bareFields, text, text, fieldTexts, fieldTexts, text_bare t,
      fieldTexts_bareFields fields]
  | array elem => by rw [bare, text, text, text_bare elem]
  | function params ret => by
    rw [bare, text, text, texts_bareList params, resultText_bareOption ret]

private theorem texts_bareList : ∀ ts : List Ty, texts (bareList ts) = texts ts
  | [] => rfl
  | t :: ts => by rw [bareList, texts, texts, text_bare t, texts_bareList ts]

private theorem fieldTexts_bareFields :
    ∀ fields : List (String × Ty), fieldTexts (bareFields fields) = fieldTexts fields
  | [] => rfl
  | (_, t) :: fields => by
    rw [bareFields, fieldTexts, fieldTexts, text_bare t, fieldTexts_bareFields fields]

private theorem resultText_bareOption :
    ∀ t? : Option Ty, resultText (bareOption t?) = resultText t?
  | none => rfl
  | some t => by rw [bareOption, resultText, resultText, text_bare t]

end

end Sable.Ty
