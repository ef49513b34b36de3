import Sable.Proofs.Ty.Denote

/-!
# Types without names

What a written type without declared names means is its structure, but for struct types: they are
compared by their names, and all that are written inline have the same one. So a value of such a
type may be stored as another one just if both have the same shape, in which an inline struct type
is like any other.
-/

namespace Sable

/-! ### Comparing written types -/

mutual

/-- Two written types describe the same structure; the fields of a struct type come in any order. -/
inductive TypeExpr.SameStructure : TypeExpr → TypeExpr → Prop
  | primitive (p : Primitive) (span span' : Span) :
    TypeExpr.SameStructure (.primitive p span) (.primitive p span')
  | array {elem elem' : TypeExpr} {span span' : Span} : TypeExpr.SameStructure elem elem' →
    TypeExpr.SameStructure (.array elem span) (.array elem' span')
  | struct {fields reordered fields' : List FieldDecl} {span span' : Span} :
    fields.Perm reordered → List.Forall₂ FieldDecl.SameStructure reordered fields' →
    TypeExpr.SameStructure (.struct fields span) (.struct fields' span')
  | function {params params' : List TypeExpr} {ret ret' : Option TypeExpr} {span span' : Span} :
    List.Forall₂ TypeExpr.SameStructure params params' →
    Option.Rel TypeExpr.SameStructure ret ret' →
    TypeExpr.SameStructure (.function params ret span) (.function params' ret' span')

/-- Two fields have the same name and the same structure. -/
inductive FieldDecl.SameStructure : FieldDecl → FieldDecl → Prop
  | mk {name name' : Ident} {ty ty' : TypeExpr} {span span' : Span} : name.name = name'.name →
    TypeExpr.SameStructure ty ty' →
    FieldDecl.SameStructure (.mk name ty span) (.mk name' ty' span')

end

/-- Two written types have the same structure, whatever the fields of their struct types are. -/
inductive TypeExpr.SameShape : TypeExpr → TypeExpr → Prop
  | primitive (p : Primitive) (span span' : Span) :
    TypeExpr.SameShape (.primitive p span) (.primitive p span')
  | array {elem elem' : TypeExpr} {span span' : Span} : TypeExpr.SameShape elem elem' →
    TypeExpr.SameShape (.array elem span) (.array elem' span')
  | struct (fields fields' : List FieldDecl) (span span' : Span) :
    TypeExpr.SameShape (.struct fields span) (.struct fields' span')
  | function {params params' : List TypeExpr} {ret ret' : Option TypeExpr} {span span' : Span} :
    List.Forall₂ TypeExpr.SameShape params params' → Option.Rel TypeExpr.SameShape ret ret' →
    TypeExpr.SameShape (.function params ret span) (.function params' ret' span')

mutual

theorem TypeExpr.SameStructure.sameShape : ∀ {a b : TypeExpr}, a.SameStructure b → a.SameShape b
  | .primitive .., _, h => by
    cases h
    exact .primitive ..
  | .array .., _, h => by
    obtain _ | helem := h
    exact .array helem.sameShape
  | .struct .., _, h => by
    cases h
    exact .struct ..
  | .function .., _, h => by
    obtain _ | _ | _ | ⟨hparams, hret⟩ := h
    exact .function (sameShape_params hparams) (sameShape_ret hret)

theorem TypeExpr.SameStructure.sameShape_params : ∀ {as bs : List TypeExpr},
    List.Forall₂ TypeExpr.SameStructure as bs → List.Forall₂ TypeExpr.SameShape as bs
  | [], _, h => by
    cases h
    exact .nil
  | _ :: _, _, h => by
    obtain _ | ⟨ha, has⟩ := h
    exact .cons ha.sameShape (sameShape_params has)

theorem TypeExpr.SameStructure.sameShape_ret : ∀ {a? b? : Option TypeExpr},
    Option.Rel TypeExpr.SameStructure a? b? → Option.Rel TypeExpr.SameShape a? b?
  | none, _, h => by
    cases h
    exact .none
  | some _, _, h => by
    obtain ha | _ := h
    exact .some ha.sameShape

end

mutual

theorem TypeExpr.SameShape.symm : ∀ {a b : TypeExpr}, a.SameShape b → b.SameShape a
  | .primitive .., _, h => by
    cases h
    exact .primitive ..
  | .array .., _, h => by
    obtain _ | helem := h
    exact .array helem.symm
  | .struct .., _, h => by
    cases h
    exact .struct ..
  | .function .., _, h => by
    obtain _ | _ | _ | ⟨hparams, hret⟩ := h
    exact .function (symm_params hparams) (symm_ret hret)

theorem TypeExpr.SameShape.symm_params : ∀ {as bs : List TypeExpr},
    List.Forall₂ TypeExpr.SameShape as bs → List.Forall₂ TypeExpr.SameShape bs as
  | [], _, h => by
    cases h
    exact .nil
  | _ :: _, _, h => by
    obtain _ | ⟨ha, has⟩ := h
    exact .cons ha.symm (symm_params has)

theorem TypeExpr.SameShape.symm_ret : ∀ {a? b? : Option TypeExpr},
    Option.Rel TypeExpr.SameShape a? b? → Option.Rel TypeExpr.SameShape b? a?
  | none, _, h => by
    cases h
    exact .none
  | some _, _, h => by
    obtain ha | _ := h
    exact .some ha.symm

end

/-! ### Comparing their meanings -/

namespace Ty

variable {F : ScopeForest} {s : ScopeId}

/-- A written type without names means a type that is no alias. -/
theorem unwrap_of_denotes {a : TypeExpr} {t : Ty} (ha : a.references = [])
    (ht : a.Denotes F s t) : t.unwrap = t := by
  cases ht with
  | primitive | array | struct | function => rfl
  | named | qualified => cases ha

mutual

/-- Written types without names mean the same type just if they have the same shape. -/
theorem same_iff_sameShape : ∀ {a b : TypeExpr} {t u : Ty}, a.references = [] →
    b.references = [] → a.Denotes F s t → b.Denotes F s u →
    (t.same u = true ↔ a.SameShape b)
  | .primitive p span, b, t, u, ha, hb, ht, hu => by
    cases ht
    cases hu with
    | primitive q span' =>
      rw [same, beq_iff_eq]
      exact ⟨by rintro rfl; exact .primitive .., by rintro ⟨⟩; rfl⟩
    | array | struct | function => exact iff_of_false (by simp [same]) nofun
    | named | qualified => cases hb
  | .array elem span, b, t, u, ha, hb, ht, hu => by
    rw [TypeExpr.references] at ha
    obtain _ | ht := ht
    cases hu with
    | array hu =>
      rw [TypeExpr.references] at hb
      rw [same, same_iff_sameShape ha hb ht hu]
      exact ⟨.array, by rintro (_ | h); exact h⟩
    | primitive | struct | function => exact iff_of_false (by simp [same]) nofun
    | named | qualified => cases hb
  | .struct fields span, b, t, u, ha, hb, ht, hu => by
    cases ht
    cases hu with
    | struct => exact iff_of_true (by simp [same]) (.struct ..)
    | primitive | array | function => exact iff_of_false (by simp [same]) nofun
    | named | qualified => cases hb
  | .function params ret span, b, t, u, ha, hb, ht, hu => by
    obtain _ | _ | _ | ⟨hts, ht⟩ := ht
    cases hu with
    | function hus hu =>
      obtain ⟨haparams, haret⟩ := List.append_eq_nil_iff.mp ha
      obtain ⟨hbparams, hbret⟩ := List.append_eq_nil_iff.mp hb
      rw [same, Bool.and_eq_true, sameList_iff_sameShape haparams hbparams hts hus,
        sameOption_iff_sameShape haret hbret ht hu]
      constructor
      · exact fun ⟨hparams, hret⟩ => .function hparams hret
      · rintro (_ | _ | _ | ⟨hparams, hret⟩)
        exact ⟨hparams, hret⟩
    | primitive | array | struct => exact iff_of_false (by simp [same]) nofun
    | named | qualified => cases hb
  | .named _, _, _, _, ha, _, _, _ => by cases ha
  | .qualified .., _, _, _, ha, _, _, _ => by cases ha

/-- The same for lists of written types. -/
theorem sameList_iff_sameShape : ∀ {as bs : List TypeExpr} {ts us : List Ty},
    TypeExpr.referencesAll as = [] → TypeExpr.referencesAll bs = [] →
    List.Forall₂ (TypeExpr.Denotes F s) as ts → List.Forall₂ (TypeExpr.Denotes F s) bs us →
    (sameList ts us = true ↔ List.Forall₂ TypeExpr.SameShape as bs)
  | [], bs, ts, us, has, hbs, hts, hus => by
    cases hts
    cases hus with
    | nil => exact iff_of_true (by simp [sameList]) .nil
    | cons => exact iff_of_false (by simp [sameList]) nofun
  | a :: as, bs, ts, us, has, hbs, hts, hus => by
    obtain _ | ⟨ht, hts⟩ := hts
    cases hus with
    | nil => exact iff_of_false (by simp [sameList]) nofun
    | cons hu hus =>
      obtain ⟨ha, has⟩ := List.append_eq_nil_iff.mp has
      obtain ⟨hb, hbs⟩ := List.append_eq_nil_iff.mp hbs
      rw [sameList, Bool.and_eq_true, same_iff_sameShape ha hb ht hu,
        sameList_iff_sameShape has hbs hts hus, List.forall₂_cons]

/-- The same for written types that may be missing. -/
theorem sameOption_iff_sameShape : ∀ {a? b? : Option TypeExpr} {t? u? : Option Ty},
    TypeExpr.referencesOption a? = [] → TypeExpr.referencesOption b? = [] →
    Option.Rel (TypeExpr.Denotes F s) a? t? → Option.Rel (TypeExpr.Denotes F s) b? u? →
    (sameOption t? u? = true ↔ Option.Rel TypeExpr.SameShape a? b?)
  | none, b?, t?, u?, ha, hb, ht, hu => by
    cases ht
    cases hu with
    | none => exact iff_of_true (by simp [sameOption]) .none
    | some => exact iff_of_false (by simp [sameOption]) nofun
  | some a, b?, t?, u?, ha, hb, ht, hu => by
    obtain ht | _ := ht
    cases hu with
    | none => exact iff_of_false (by simp [sameOption]) nofun
    | some hu =>
      rw [sameOption, same_iff_sameShape ha hb ht hu]
      exact ⟨.some, by rintro (h | _); exact h⟩

end

/-- One type is accepted for the other just if the written types have the same shape. -/
theorem accepts_iff_sameShape {a b : TypeExpr} {t u : Ty} (ha : a.references = [])
    (hb : b.references = []) (ht : a.Denotes F s t) (hu : b.Denotes F s u) :
    t.accepts u = true ↔ a.SameShape b := by
  rw [accepts, unwrap_of_denotes ha ht, unwrap_of_denotes hb hu, Bool.or_self,
    same_iff_sameShape ha hb ht hu]

/--
In any forest that changes have built, two written types without declared names mean types. Either
of these accepts the other just if the written types are the same primitive, or have the same
element type, or the same parameter and result types, or are inline struct types, whatever their
fields. So the meanings of types that describe the same structure accept each other.
-/
theorem accepts_of_no_references (h : F.Built) (s : ScopeId) {a b : TypeExpr}
    (ha : a.references = []) (hb : b.references = []) :
    ∃ t u, ofTypeExpr F s a = .ok t ∧ ofTypeExpr F s b = .ok u ∧
      (t.accepts u = true ↔ a.SameShape b) ∧ (u.accepts t = true ↔ a.SameShape b) ∧
      (a.SameStructure b → t.accepts u = true ∧ u.accepts t = true) := by
  have hmeans : ∀ c : TypeExpr, c.references = [] → ∃ v, ofTypeExpr F s c = .ok v ∧
      c.Denotes F s v := fun c hc => by
    have hleft := leftToRight_denote h.nested h.importsOnce (s := s) c
    obtain ⟨v, hv⟩ := hleft.succeeds_iff.mpr (by simp [hc])
    exact ⟨v, hv, (hleft.ok_iff v).mp hv⟩
  obtain ⟨t, htok, ht⟩ := hmeans a ha
  obtain ⟨u, huok, hu⟩ := hmeans b hb
  have htu := accepts_iff_sameShape ha hb ht hu
  have hut := (accepts_iff_sameShape hb ha hu ht).trans
    ⟨TypeExpr.SameShape.symm, TypeExpr.SameShape.symm⟩
  exact ⟨t, u, htok, huok, htu, hut,
    fun hsame => ⟨htu.mpr hsame.sameShape, hut.mpr hsame.sameShape⟩⟩

/-- A struct type with one field. -/
def inlineStruct (name : String) (p : Primitive) : TypeExpr :=
  .struct [.mk ⟨name, Span.nowhere⟩ (.primitive p Span.nowhere) Span.nowhere] Span.nowhere

/-- A function type with one parameter that returns numbers. -/
def numbersFrom (param : TypeExpr) : TypeExpr :=
  .function [param] (some (.array (.primitive .i32 Span.nowhere) Span.nowhere)) Span.nowhere

/-- Functions that take different struct types accept each other. -/
theorem accepts_numbersFrom :
    aroundFunction.Built ∧ (numbersFrom (inlineStruct "x" .i32)).references = [] ∧
      (numbersFrom (inlineStruct "y" .str)).references = [] ∧
      ∃ t u, ofTypeExpr aroundFunction 4 (numbersFrom (inlineStruct "x" .i32)) = .ok t ∧
        ofTypeExpr aroundFunction 4 (numbersFrom (inlineStruct "y" .str)) = .ok u ∧
        t.accepts u = true := by
  obtain ⟨t, u, ht, hu, htu, -⟩ := accepts_of_no_references built_aroundFunction 4
    (a := numbersFrom (inlineStruct "x" .i32)) (b := numbersFrom (inlineStruct "y" .str)) rfl rfl
  exact ⟨built_aroundFunction, rfl, rfl, t, u, ht, hu, htu.mpr (.function (.cons (.struct ..) .nil)
    (.some (.array (.primitive ..))))⟩

/-- Two struct types accept each other, although their only fields have different names. -/
theorem accepts_inlineStruct :
    aroundFunction.Built ∧ (inlineStruct "x" .i32).references = [] ∧
      (inlineStruct "y" .str).references = [] ∧
      ∃ t u, ofTypeExpr aroundFunction 4 (inlineStruct "x" .i32) = .ok t ∧
        ofTypeExpr aroundFunction 4 (inlineStruct "y" .str) = .ok u ∧
        t.accepts u = true ∧ u.accepts t = true ∧
        ¬ (inlineStruct "x" .i32).SameStructure (inlineStruct "y" .str) := by
  refine ⟨built_aroundFunction, rfl, rfl, _, _, rfl, rfl, by decide, by decide, ?_⟩
  rintro (_ | _ | ⟨hperm, hfields⟩)
  rw [List.singleton_perm] at hperm
  subst hperm
  obtain _ | ⟨⟨hname, -⟩, -⟩ := hfields
  exact absurd hname (by decide)

end Ty

end Sable
