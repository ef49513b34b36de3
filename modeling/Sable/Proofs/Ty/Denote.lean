import Sable.Proofs.Scope.Imports
import Sable.Proofs.Ty.Fields
import Sable.Ty.Denote

/-!
# What written types mean

A written type mentions names, in the order in which they are written. It means a type exactly if
each of these names finds a declaration of a type: a plain name in the nearest scope that declares
it, a qualified one in the outermost scope of the module that its qualifier stands for. The type
that it means is built like the written one, from what the names mean. Otherwise the problem is that
of the first name that means none.
-/

namespace Sable

/-- A name in a written type. -/
inductive Reference
  /-- A name by itself. -/
  | plain (name : Ident)
  /-- A name that an imported module declares. -/
  | qualified (module name : Ident)

/-- The name that is to mean a type. -/
def Reference.name : Reference → Ident
  | plain name => name
  | qualified _ name => name

mutual

/-- The names in a written type, from left to right. -/
def TypeExpr.references : TypeExpr → List Reference
  | .primitive _ _ => []
  | .array elem _ => elem.references
  | .struct fields _ => FieldDecl.referencesAll fields
  | .function params ret _ => TypeExpr.referencesAll params ++ TypeExpr.referencesOption ret
  | .named name => [.plain name]
  | .qualified module name _ => [.qualified module name]

/-- The names in the types of fields, from left to right. -/
def FieldDecl.referencesAll : List FieldDecl → List Reference
  | [] => []
  | .mk _ ty _ :: fields => ty.references ++ FieldDecl.referencesAll fields

/-- The names in a list of written types, from left to right. -/
def TypeExpr.referencesAll : List TypeExpr → List Reference
  | [] => []
  | ty :: tys => ty.references ++ TypeExpr.referencesAll tys

/-- The names in a written type, if one is written. -/
def TypeExpr.referencesOption : Option TypeExpr → List Reference
  | none => []
  | some ty => ty.references

end

/-! ### Names -/

namespace Reference

/-- The declaration that a name stands for, as seen from a scope. -/
inductive Finds (F : ScopeForest) (s : ScopeId) : Reference → Symbol → Prop
  /-- The nearest scope that declares the name has the declaration. -/
  | plain {name : Ident} {t : ScopeId} {x : Symbol} : F.Sees (F.Declares name.name) s t →
    x ∈ F.symbols t → x.name = name.name → Finds F s (.plain name) x
  /-- The nearest scope that uses the alias imports a module that has the declaration. -/
  | qualified {module name : Ident} {t : ScopeId} {b : ImportBinding} {x : Symbol} :
    F.Sees (F.BindsAlias module.name) s t → b ∈ F.imports t → b.aliasName = module.name →
    x ∈ F.symbols b.root → x.name = name.name → Finds F s (.qualified module name) x

/-- The ways in which a name stands for no declaration, as seen from a scope. -/
inductive Lacks (F : ScopeForest) (s : ScopeId) : Reference → TypeError → Prop
  /-- No scope around declares the name. -/
  | notFound {name : Ident} : (∀ t, F.Around s t → ¬ F.Declares name.name t) →
    Lacks F s (.plain name) (.notFound name.name name.span)
  /-- No scope around uses the alias. -/
  | moduleNotImported {module name : Ident} : (∀ t, F.Around s t → ¬ F.BindsAlias module.name t) →
    Lacks F s (.qualified module name) (.moduleNotImported module.name module.span)
  /-- The imported module declares no such name. -/
  | notFoundInModule {module name : Ident} {t : ScopeId} {b : ImportBinding} :
    F.Sees (F.BindsAlias module.name) s t → b ∈ F.imports t → b.aliasName = module.name →
    ¬ F.Declares name.name b.root →
    Lacks F s (.qualified module name) (.notFoundInModule name.name module.name name.span)

variable (F : ScopeForest) (s : ScopeId) (r : Reference)

/-- A name stands for the declaration of a type. -/
def NamesType : Prop := ∃ x, r.Finds F s x ∧ x.kind.isType = true

/-- A name means the type of its declaration, and itself as long as that has no type. -/
def Means (t : Ty) : Prop :=
  ∃ x, r.Finds F s x ∧ x.kind.isType = true ∧ x.ty?.getD (.named r.name.name none) = t

/-- A name means no type: there is no declaration of it, or it declares something else. -/
def Fails (e : TypeError) : Prop :=
  r.Lacks F s e ∨
    ∃ x, r.Finds F s x ∧ x.kind.isType = false ∧ e = .notAType r.name.name r.name.span

end Reference

/-! ### Types -/

mutual

/-- The type that a written type denotes: it is built the same way from what the names mean. -/
inductive TypeExpr.Denotes (F : ScopeForest) (s : ScopeId) : TypeExpr → Ty → Prop
  | primitive (p : Primitive) (span : Span) : TypeExpr.Denotes F s (.primitive p span) (.prim p)
  | array {elem : TypeExpr} {span : Span} {t : Ty} : TypeExpr.Denotes F s elem t →
    TypeExpr.Denotes F s (.array elem span) (.array t)
  | struct {fields : List FieldDecl} {span : Span} {ts table : List (String × Ty)} :
    List.Forall₂ (FieldDecl.Denotes F s) fields ts → Ty.Tabulates table ts →
    TypeExpr.Denotes F s (.struct fields span) (.struct anonymousStruct table)
  | function {params : List TypeExpr} {ret : Option TypeExpr} {span : Span} {ts : List Ty}
    {t : Option Ty} : List.Forall₂ (TypeExpr.Denotes F s) params ts →
    Option.Rel (TypeExpr.Denotes F s) ret t →
    TypeExpr.Denotes F s (.function params ret span) (.function ts t)
  | named {name : Ident} {t : Ty} : (Reference.plain name).Means F s t →
    TypeExpr.Denotes F s (.named name) t
  | qualified {module name : Ident} {span : Span} {t : Ty} :
    (Reference.qualified module name).Means F s t →
    TypeExpr.Denotes F s (.qualified module name span) t

/-- A field denotes its name with the type that is written for it. -/
inductive FieldDecl.Denotes (F : ScopeForest) (s : ScopeId) : FieldDecl → String × Ty → Prop
  | mk {name : Ident} {ty : TypeExpr} {span : Span} {t : Ty} : TypeExpr.Denotes F s ty t →
    FieldDecl.Denotes F s (.mk name ty span) (name.name, t)

end

/-- The first of some names that means no type, and what is wrong with it. -/
def FirstFault (F : ScopeForest) (s : ScopeId) (rs : List Reference) (e : TypeError) : Prop :=
  ∃ before r after, rs = before ++ r :: after ∧ (∀ q ∈ before, q.NamesType F s) ∧ r.Fails F s e

variable {F : ScopeForest} {s : ScopeId}

theorem not_firstFault_nil {e : TypeError} : ¬ FirstFault F s [] e := by
  rintro ⟨before, r, after, h, -⟩
  cases before <;> cases h

theorem firstFault_singleton {r : Reference} {e : TypeError} :
    FirstFault F s [r] e ↔ r.Fails F s e := by
  constructor
  · rintro ⟨before, q, after, h, -, hq⟩
    cases before with
    | nil => exact (List.cons.inj h).1 ▸ hq
    | cons _ before => cases before <;> cases (List.cons.inj h).2
  · exact fun hr => ⟨[], r, [], rfl, by simp, hr⟩

/-- The first fault lies on the left, or on the right behind names that all mean types. -/
theorem firstFault_append {rs rs' : List Reference} {e : TypeError} :
    FirstFault F s (rs ++ rs') e ↔
      FirstFault F s rs e ∨ (∀ r ∈ rs, r.NamesType F s) ∧ FirstFault F s rs' e := by
  constructor
  · rintro ⟨before, r, after, h, hbefore, hr⟩
    rcases List.append_eq_append_iff.mp h with ⟨middle, rfl, hright⟩ | ⟨middle, rfl, hright⟩
    · refine Or.inr ⟨fun q hq => hbefore q (List.mem_append_left _ hq), middle, r, after, hright,
        fun q hq => hbefore q (List.mem_append_right _ hq), hr⟩
    · cases middle with
      | nil =>
        rw [List.append_nil, List.nil_append] at *
        exact Or.inr ⟨hbefore, [], r, after, hright.symm, by simp, hr⟩
      | cons q middle =>
        obtain ⟨rfl, -⟩ := List.cons.inj hright
        exact Or.inl ⟨before, r, middle, rfl, hbefore, hr⟩
  · rintro (⟨before, r, after, rfl, hbefore, hr⟩ | ⟨hall, before, r, after, rfl, hbefore, hr⟩)
    · exact ⟨before, r, after ++ rs', by simp, hbefore, hr⟩
    · exact ⟨rs ++ before, r, after, by simp, List.forall_mem_append.mpr ⟨hall, hbefore⟩, hr⟩

/-! ### From left to right -/

/-- The result of looking up some names from left to right, with what it is if all mean types. -/
structure LeftToRight {α : Type} (F : ScopeForest) (s : ScopeId) (rs : List Reference)
    (P : α → Prop) (result : Except TypeError α) : Prop where
  /-- There is a result just if all names mean types. -/
  succeeds_iff : (∃ a, result = .ok a) ↔ ∀ r ∈ rs, r.NamesType F s
  /-- The result is what it is to be. -/
  ok_iff : ∀ a, result = .ok a ↔ P a
  /-- The problem is that of the first name that means none. -/
  error_iff : ∀ e, result = .error e ↔ FirstFault F s rs e

namespace LeftToRight

variable {α β γ : Type} {rs rs' : List Reference} {P : α → Prop} {Q : β → Prop} {R : γ → Prop}
  {x : Except TypeError α} {y : Except TypeError β}

/-- What mentions no name has a result. -/
theorem ok {a : α} (hP : ∀ b, P b ↔ a = b) : LeftToRight F s [] P (.ok a) where
  succeeds_iff := ⟨fun _ => by simp, fun _ => ⟨a, rfl⟩⟩
  ok_iff b := by rw [Except.ok.injEq, hP]
  error_iff e := ⟨nofun, fun he => absurd he not_firstFault_nil⟩

theorem congr {P' : α → Prop} (h : LeftToRight F s rs P x) (hP : ∀ a, P' a ↔ P a) :
    LeftToRight F s rs P' x where
  succeeds_iff := h.succeeds_iff
  ok_iff a := (h.ok_iff a).trans (hP a).symm
  error_iff := h.error_iff

/-- A result is built into another one. -/
theorem map (h : LeftToRight F s rs P x) (f : α → β) (hQ : ∀ b, Q b ↔ ∃ a, P a ∧ f a = b) :
    LeftToRight F s rs Q (x.map f) := by
  cases x with
  | ok a =>
    have ha : ∀ a', P a' ↔ a = a' := fun a' => (h.ok_iff a').symm.trans (by rw [Except.ok.injEq])
    refine ⟨⟨fun _ => h.succeeds_iff.mp ⟨a, rfl⟩, fun _ => ⟨f a, rfl⟩⟩, fun b => ?_, fun e => ?_⟩
    · rw [Except.map, Except.ok.injEq, hQ]
      simp only [ha, exists_eq_left']
    · exact ⟨nofun, fun he => nomatch (h.error_iff e).mpr he⟩
  | error e =>
    refine ⟨⟨nofun, fun hall => ?_⟩, fun b => ⟨nofun, fun hb => ?_⟩, fun e' => ?_⟩
    · obtain ⟨a, ha⟩ := h.succeeds_iff.mpr hall
      cases ha
    · obtain ⟨a, ha, -⟩ := (hQ b).mp hb
      cases (h.ok_iff a).mpr ha
    · rw [← h.error_iff, Except.map, Except.error.injEq, Except.error.injEq]

/-- Two results are built into one; the names of the second stand behind those of the first. -/
theorem map₂ (hx : LeftToRight F s rs P x) (hy : LeftToRight F s rs' Q y) (f : α → β → γ)
    (hR : ∀ c, R c ↔ ∃ a b, P a ∧ Q b ∧ f a b = c) :
    LeftToRight F s (rs ++ rs') R (x.bind fun a => y.map (f a)) := by
  cases x with
  | ok a =>
    have ha : ∀ a', P a' ↔ a = a' := fun a' => (hx.ok_iff a').symm.trans (by rw [Except.ok.injEq])
    have hall := hx.succeeds_iff.mp ⟨a, rfl⟩
    have hy' := hy.map (Q := R) (f a) fun c => by
      simp only [hR, ha, exists_and_left, exists_eq_left']
    rw [Except.bind]
    refine ⟨?_, hy'.ok_iff, fun e => ?_⟩
    · rw [hy'.succeeds_iff, List.forall_mem_append, and_iff_right hall]
    · have hnone : ¬ FirstFault F s rs e := fun he => nomatch (hx.error_iff e).mpr he
      rw [hy'.error_iff, firstFault_append, or_iff_right hnone, and_iff_right hall]
  | error e =>
    have hnot : ¬ ∀ r ∈ rs, r.NamesType F s := fun hall => by
      obtain ⟨a, ha⟩ := hx.succeeds_iff.mpr hall
      cases ha
    rw [Except.bind]
    refine ⟨⟨nofun, fun hall => ?_⟩, fun c => ⟨nofun, fun hc => ?_⟩, fun e' => ?_⟩
    · exact absurd (List.forall_mem_append.mp hall).1 hnot
    · obtain ⟨a, b, ha, -⟩ := (hR c).mp hc
      cases (hx.ok_iff a).mpr ha
    · rw [firstFault_append, or_iff_left fun he' => hnot he'.1, ← hx.error_iff,
        Except.error.injEq, Except.error.injEq]

end LeftToRight

/-! ### One name -/

namespace Reference

variable {r : Reference} {name : Ident}

/-- A name that stands for one declaration means its type. -/
theorem leftToRight_ofSymbol {x : Symbol} (hname : r.name = name)
    (hfinds : ∀ y, r.Finds F s y ↔ x = y) (hlacks : ∀ e, ¬ r.Lacks F s e) :
    LeftToRight F s [r] (r.Means F s) (Ty.ofSymbol x name) := by
  subst hname
  have hfails : ∀ e, r.Fails F s e ↔
      x.kind.isType = false ∧ e = .notAType r.name.name r.name.span := fun e => by
    simp only [Fails, hlacks, false_or, hfinds, exists_eq_left']
  refine ⟨?_, fun t => ?_, fun e => ?_⟩
  · simp only [List.mem_singleton, forall_eq, NamesType, hfinds, exists_eq_left', Ty.ofSymbol]
    split <;> simp [*]
  · simp only [Means, hfinds, exists_eq_left', Ty.ofSymbol]
    split <;> simp [*]
  · rw [firstFault_singleton, hfails, Ty.ofSymbol]
    split <;> simp [*, eq_comm]

/-- A name that stands for nothing means nothing. -/
theorem leftToRight_error {e : TypeError} (hfinds : ∀ y, ¬ r.Finds F s y)
    (hlacks : ∀ e', r.Lacks F s e' ↔ e = e') :
    LeftToRight F s [r] (r.Means F s) (.error e) where
  succeeds_iff := ⟨nofun, fun hall => by
    obtain ⟨x, hx, -⟩ := hall r (List.mem_singleton_self r)
    exact absurd hx (hfinds x)⟩
  ok_iff t := ⟨nofun, fun ⟨x, hx, _⟩ => absurd hx (hfinds x)⟩
  error_iff e' := by
    simp only [firstFault_singleton, Fails, hlacks, hfinds, false_and, exists_false, or_false,
      Except.error.injEq]

variable (h : F.Nested) (honce : F.ImportsOnce)
include h

/-- A plain name stands for the nearest declaration of it. -/
theorem finds_plain_iff {x : Symbol} :
    (plain name).Finds F s x ↔ F.visible? s name.name = some x := by
  rw [ScopeForest.visible?, Option.map_eq_some_iff]
  constructor
  · rintro ⟨hsees, hx⟩
    exact ⟨(_, x), h.locate?_eq_some_iff.mpr ⟨hsees, hx, ‹_›⟩, rfl⟩
  · rintro ⟨⟨t, y⟩, hlocate, rfl⟩
    obtain ⟨hsees, hx, hxname⟩ := h.locate?_eq_some_iff.mp hlocate
    exact .plain hsees hx hxname

theorem lacks_plain_iff {e : TypeError} :
    (plain name).Lacks F s e ↔
      F.visible? s name.name = none ∧ e = .notFound name.name name.span := by
  rw [ScopeForest.visible?, Option.map_eq_none_iff, h.locate?_eq_none_iff]
  constructor
  · rintro ⟨hnone⟩
    exact ⟨hnone, rfl⟩
  · rintro ⟨hnone, rfl⟩
    exact .notFound hnone

include honce

/-- A qualified name stands for what the module declares that its alias stands for. -/
theorem finds_qualified_iff {module name : Ident} {x : Symbol} :
    (qualified module name).Finds F s x ↔
      ∃ b, F.visibleImport? s module.name = some b ∧ F.symbol? b.root name.name = some x := by
  simp only [h.visibleImport?_eq_some_iff honce, h.symbol?_eq_some_iff]
  constructor
  · rintro (_ | ⟨hsees, hb, halias, hx, hxname⟩)
    exact ⟨_, ⟨_, hsees, hb, halias⟩, hx, hxname⟩
  · rintro ⟨b, ⟨t, hsees, hb, halias⟩, hx, hxname⟩
    exact .qualified hsees hb halias hx hxname

theorem lacks_qualified_iff {module name : Ident} {e : TypeError} :
    (qualified module name).Lacks F s e ↔
      F.visibleImport? s module.name = none ∧
          e = .moduleNotImported module.name module.span ∨
        ∃ b, F.visibleImport? s module.name = some b ∧ F.symbol? b.root name.name = none ∧
          e = .notFoundInModule name.name module.name name.span := by
  have hdeclares : ∀ t, F.symbol? t name.name = none ↔ ¬ F.Declares name.name t := fun t => by
    rw [ScopeForest.declares_iff, not_not]
  simp only [h.visibleImport?_eq_some_iff honce, h.visibleImport?_eq_none_iff, hdeclares]
  constructor
  · rintro (_ | hnone | ⟨hsees, hb, halias, hfree⟩)
    · exact Or.inl ⟨hnone, rfl⟩
    · exact Or.inr ⟨_, ⟨_, hsees, hb, halias⟩, hfree, rfl⟩
  · rintro (⟨hnone, rfl⟩ | ⟨b, ⟨t, hsees, hb, halias⟩, hfree, rfl⟩)
    · exact .moduleNotImported hnone
    · exact .notFoundInModule hsees hb halias hfree

omit honce in
/-- A plain name is looked up outward. -/
theorem leftToRight_ofName (name : Ident) :
    LeftToRight F s [.plain name] ((plain name).Means F s) (Ty.ofName F s name) := by
  rw [Ty.ofName]
  cases hx : F.visible? s name.name with
  | some x =>
    exact leftToRight_ofSymbol rfl (fun y => by rw [finds_plain_iff h, hx, Option.some.injEq])
      (fun e he => by simpa [hx] using (lacks_plain_iff h).mp he)
  | none =>
    exact leftToRight_error (fun y hy => by simpa [hx] using (finds_plain_iff h).mp hy)
      (fun e => by rw [lacks_plain_iff h, and_iff_right hx, eq_comm])

/-- A qualified name is looked up in the module that its alias stands for. -/
theorem leftToRight_ofQualified (module name : Ident) :
    LeftToRight F s [.qualified module name] ((qualified module name).Means F s)
      (Ty.ofQualified F s module name) := by
  rw [Ty.ofQualified, ScopeForest.importedRoot]
  cases hb : F.visibleImport? s module.name with
  | none =>
    refine leftToRight_error (fun y hy => ?_) fun e => ?_
    · simpa [hb] using (finds_qualified_iff h honce).mp hy
    · simp [lacks_qualified_iff h honce, hb, eq_comm]
  | some b =>
    dsimp only
    cases hx : F.symbol? b.root name.name with
    | some x =>
      refine leftToRight_ofSymbol rfl (fun y => ?_) fun e he => ?_
      · simp [finds_qualified_iff h honce, hb, hx]
      · simpa [hb, hx] using (lacks_qualified_iff h honce).mp he
    | none =>
      refine leftToRight_error (fun y hy => ?_) fun e => ?_
      · simpa [hb, hx] using (finds_qualified_iff h honce).mp hy
      · simp [lacks_qualified_iff h honce, hb, hx, eq_comm]

end Reference

/-! ### Written types -/

namespace Ty

theorem denote_function (name : String) (params : List TypeExpr) (ret : Option TypeExpr)
    (span : Span) : denote F s name (.function params ret span) =
      (denoteList F s params).bind fun ts => (denoteOption F s ret).map (.function ts) := by
  rw [denote]
  cases denoteList F s params <;> rfl

theorem denoteFields_cons (name : Ident) (ty : TypeExpr) (span : Span) (fields : List FieldDecl) :
    denoteFields F s (.mk name ty span :: fields) =
      (denote F s anonymousStruct ty).bind fun t =>
        (denoteFields F s fields).map ((name.name, t) :: ·) := by
  rw [denoteFields]
  cases denote F s anonymousStruct ty <;> rfl

theorem denoteList_cons (ty : TypeExpr) (tys : List TypeExpr) :
    denoteList F s (ty :: tys) =
      (denote F s anonymousStruct ty).bind fun t => (denoteList F s tys).map (t :: ·) := by
  rw [denoteList]
  cases denote F s anonymousStruct ty <;> rfl

mutual

/-- The names in a written type are looked up from left to right, and it means what they make. -/
theorem leftToRight_denote (h : F.Nested) (honce : F.ImportsOnce) : ∀ ty : TypeExpr,
    LeftToRight F s ty.references (ty.Denotes F s) (denote F s anonymousStruct ty)
  | .primitive p span => by
    rw [TypeExpr.references, denote]
    exact .ok fun t => ⟨by rintro ⟨⟩; rfl, by rintro rfl; exact .primitive p span⟩
  | .array elem span => by
    rw [TypeExpr.references, denote]
    refine (leftToRight_denote h honce elem).map _ fun t => ?_
    exact ⟨by rintro (_ | ht); exact ⟨_, ht, rfl⟩, by rintro ⟨t, ht, rfl⟩; exact .array ht⟩
  | .struct fields span => by
    rw [TypeExpr.references, denote]
    refine (leftToRight_denoteFields h honce fields).map _ fun t => ?_
    constructor
    · rintro (_ | _ | ⟨hfields, htable⟩)
      exact ⟨_, hfields, structOf_eq_iff.mpr htable⟩
    · rintro ⟨ts, hfields, rfl⟩
      obtain ⟨table, hstruct, htable⟩ := exists_structOf anonymousStruct ts
      exact hstruct ▸ .struct hfields htable
  | .function params ret span => by
    rw [TypeExpr.references, denote_function]
    refine (leftToRight_denoteList h honce params).map₂
      (leftToRight_denoteOption h honce ret) _ fun t => ?_
    constructor
    · rintro (_ | _ | _ | ⟨hparams, hret⟩)
      exact ⟨_, _, hparams, hret, rfl⟩
    · rintro ⟨ts, u, hparams, hret, rfl⟩
      exact .function hparams hret
  | .named name => by
    rw [TypeExpr.references, denote]
    exact (Reference.leftToRight_ofName h name).congr
      fun t => ⟨by rintro ⟨⟩; assumption, .named⟩
  | .qualified module name span => by
    rw [TypeExpr.references, denote]
    exact (Reference.leftToRight_ofQualified h honce module name).congr
      fun t => ⟨by rintro ⟨⟩; assumption, .qualified⟩

/-- The same for fields. -/
theorem leftToRight_denoteFields (h : F.Nested) (honce : F.ImportsOnce) : ∀ fields : List FieldDecl,
    LeftToRight F s (FieldDecl.referencesAll fields)
      (List.Forall₂ (FieldDecl.Denotes F s) fields) (denoteFields F s fields)
  | [] => by
    rw [FieldDecl.referencesAll, denoteFields]
    exact .ok fun ts => by rw [List.forall₂_nil_left_iff, eq_comm]
  | .mk name ty span :: fields => by
    rw [FieldDecl.referencesAll, denoteFields_cons]
    refine (leftToRight_denote h honce ty).map₂
      (leftToRight_denoteFields h honce fields) _ fun ts => ?_
    constructor
    · rintro (_ | ⟨⟨ht⟩, hts⟩)
      exact ⟨_, _, ht, hts, rfl⟩
    · rintro ⟨t, ts, ht, hts, rfl⟩
      exact .cons (.mk ht) hts

/-- The same for a list of written types. -/
theorem leftToRight_denoteList (h : F.Nested) (honce : F.ImportsOnce) : ∀ tys : List TypeExpr,
    LeftToRight F s (TypeExpr.referencesAll tys) (List.Forall₂ (TypeExpr.Denotes F s) tys)
      (denoteList F s tys)
  | [] => by
    rw [TypeExpr.referencesAll, denoteList]
    exact .ok fun ts => by rw [List.forall₂_nil_left_iff, eq_comm]
  | ty :: tys => by
    rw [TypeExpr.referencesAll, denoteList_cons]
    refine (leftToRight_denote h honce ty).map₂ (leftToRight_denoteList h honce tys) _ fun ts => ?_
    constructor
    · rintro (_ | ⟨ht, hts⟩)
      exact ⟨_, _, ht, hts, rfl⟩
    · rintro ⟨t, ts, ht, hts, rfl⟩
      exact .cons ht hts

/-- The same for a written type that may be missing. -/
theorem leftToRight_denoteOption (h : F.Nested) (honce : F.ImportsOnce) : ∀ ty? : Option TypeExpr,
    LeftToRight F s (TypeExpr.referencesOption ty?) (Option.Rel (TypeExpr.Denotes F s) ty?)
      (denoteOption F s ty?)
  | none => by
    rw [TypeExpr.referencesOption, denoteOption]
    exact .ok fun t? => ⟨by rintro ⟨⟩; rfl, by rintro rfl; exact .none⟩
  | some ty => by
    rw [TypeExpr.referencesOption, denoteOption]
    refine (leftToRight_denote h honce ty).map _ fun t? => ?_
    exact ⟨by rintro ⟨ht⟩; exact ⟨_, ht, rfl⟩, by rintro ⟨t, ht, rfl⟩; exact .some ht⟩

end

/--
In any forest that changes have built, a written type means a type just if every name in it does: a
plain one by the nearest declaration of it, a qualified one by what the module declares that the
nearest use of its alias imports. The type is then the written one, with the type of the declaration
in place of each name, or the name itself where there is none yet. Otherwise the first name from the
left that means no type is reported, as a module that is not imported, as a name that is not
declared, or as one that is declared as something else.
-/
theorem ofTypeExpr_exact (h : F.Built) (s : ScopeId) (ty : TypeExpr) :
    ((∃ t, ofTypeExpr F s ty = .ok t) ↔ ∀ r ∈ ty.references, r.NamesType F s) ∧
    (∀ t, ofTypeExpr F s ty = .ok t ↔ ty.Denotes F s t) ∧
    ∀ e, ofTypeExpr F s ty = .error e ↔ FirstFault F s ty.references e :=
  have hty := leftToRight_denote h.nested h.importsOnce ty
  ⟨hty.succeeds_iff, hty.ok_iff, hty.error_iff⟩

/-- A function in a module that declares a struct type and imports a module with an alias. -/
def aroundFunction : ScopeForest :=
  [.openScope none .global, .declare 0 ⟨"T", Span.nowhere⟩ .type (some (.prim .str)),
    .openScope none .global, .declare 2 ⟨"P", Span.nowhere⟩ .struct none,
    .addImport 2 ⟨"m", "lib/math", 0⟩, .openScope (some 2) .function,
    .declare 4 ⟨"x", Span.nowhere⟩ .var none].foldl ScopeForest.Change.apply .empty

theorem built_aroundFunction : aroundFunction.Built := ScopeForest.Built.empty.foldl (by decide)

/-- Two types are passed over, and the parameter that is a variable is reported, not the result. -/
theorem ofTypeExpr_aroundFunction :
    aroundFunction.Built ∧
      ofTypeExpr aroundFunction 4 (.function
        [.array (.named ⟨"P", Span.nowhere⟩) Span.nowhere,
          .struct [.mk ⟨"a", Span.nowhere⟩
            (.qualified ⟨"m", Span.nowhere⟩ ⟨"T", Span.nowhere⟩ Span.nowhere) Span.nowhere]
            Span.nowhere,
          .named ⟨"x", ⟨0, 7, 8⟩⟩]
        (some (.qualified ⟨"n", Span.nowhere⟩ ⟨"T", Span.nowhere⟩ Span.nowhere)) Span.nowhere) =
      .error (.notAType "x" ⟨0, 7, 8⟩) := by
  have hbuilt := built_aroundFunction
  have hinside : ∀ P : ScopeId → Prop, aroundFunction.Sees P 4 4 := fun P =>
    hbuilt.nested.sees_iff.mpr (Or.inl rfl)
  have houtside : ∀ {P : ScopeId → Prop}, ¬ P 4 → aroundFunction.Sees P 4 2 := fun hP =>
    hbuilt.nested.sees_iff.mpr (Or.inr ⟨hP, 2, rfl, hbuilt.nested.sees_iff.mpr (Or.inl rfl)⟩)
  have hP : Reference.Finds aroundFunction 4 (.plain ⟨"P", Span.nowhere⟩)
      ⟨"P", .struct, none, Span.nowhere, some 3⟩ :=
    .plain (houtside (ScopeForest.declares_iff.not.mpr (not_not.mpr rfl))) (.head _) rfl
  have hT : Reference.Finds aroundFunction 4 (.qualified ⟨"m", Span.nowhere⟩ ⟨"T", Span.nowhere⟩)
      ⟨"T", .type, some (.prim .str), Span.nowhere, some 1⟩ :=
    .qualified (houtside (ScopeForest.bindsAlias_iff.not.mpr (not_not.mpr rfl))) (.head _) rfl
      (.head _) rfl
  have hx : Reference.Finds aroundFunction 4 (.plain ⟨"x", ⟨0, 7, 8⟩⟩)
      ⟨"x", .var, none, Span.nowhere, none⟩ := .plain (hinside _) (.head _) rfl
  refine ⟨hbuilt, ((ofTypeExpr_exact hbuilt 4 _).2.2 _).mpr
    ⟨[.plain ⟨"P", Span.nowhere⟩, .qualified ⟨"m", Span.nowhere⟩ ⟨"T", Span.nowhere⟩],
      .plain ⟨"x", ⟨0, 7, 8⟩⟩, [.qualified ⟨"n", Span.nowhere⟩ ⟨"T", Span.nowhere⟩], rfl, ?_,
      Or.inr ⟨_, hx, rfl, rfl⟩⟩⟩
  simp only [List.forall_mem_cons, List.not_mem_nil, IsEmpty.forall_iff, implies_true, and_true]
  exact ⟨⟨_, hP, rfl⟩, _, hT, rfl⟩

end Ty

end Sable
