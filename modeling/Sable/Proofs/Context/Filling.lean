import Sable.Context.Resolution
import Sable.Proofs.Context.Progress
import Sable.Proofs.Scope.Lookup

/-!
# Passes that fill in types

Behind the first pass nothing is declared and nothing is imported any more. Resolution and
checking only give types to names that are declared already and report semantic errors, and
the scopes that they walk are the members of declarations that they look up.
-/

namespace Sable.Context

/-- A visitor that only fills in types, and walks only scopes of members that it looks up. -/
structure Filling (v : Visitor Context) : Prop where
  /-- The body of a function is walked in the scope of its members. -/
  function : ∀ s name params ret ctx,
    (v.function s name params ret ctx).1 = ctx.scopes.declaredMembers? s name ∧
      ctx.Types (v.function s name params ret ctx).2
  /-- The body of a method is walked in the scope of its members, in that of its receiver's type. -/
  method : ∀ s receiver name params ret ctx,
    (v.method s receiver name params ret ctx).1 = ctx.scopes.methodBody? s receiver name ∧
      ctx.Types (v.method s receiver name params ret ctx).2
  /-- Declared types are filled in. -/
  typeDecl : ∀ s d ctx, Types ctx (v.typeDecl s d ctx)
  /-- Types of declared variables are filled in. -/
  declaring : ∀ s isConst targets values span ctx,
    Types ctx (v.declaring s isConst targets values span ctx)
  /-- Types of initial values are filled in. -/
  declared : ∀ s targets values ctx, Types ctx (v.declared s targets values ctx)
  /-- Assignments are looked at. -/
  assigning : ∀ targets values span ctx, Types ctx (v.assigning targets values span ctx)
  /-- Names are looked at. -/
  name : ∀ s name ctx, Types ctx (v.name s name ctx)
  /-- Qualified names are looked at. -/
  qualified : ∀ s module name ctx, Types ctx (v.qualified s module name ctx)

/-! ### Resolution -/

variable (m : Module) (s : ScopeId) (ctx : Context)

theorem types_denoteIn (ty : TypeExpr) : ctx.Types (ctx.denoteIn m s ty).2 := by
  unfold denoteIn
  split
  · exact Types.refl ctx
  · exact types_reportIn _ m (Or.inl rfl) _ _

/-- A written type that means something is given to a name. -/
private theorem types_denoteIn_then (ty : TypeExpr) {f : Ty → Context → Context}
    (hf : ∀ t ctx, Types ctx (f t ctx)) :
    ctx.Types (match ctx.denoteIn m s ty with
      | (some t, ctx) => f t ctx
      | (none, ctx) => ctx) := by
  have h := types_denoteIn m s ctx ty
  generalize ctx.denoteIn m s ty = r at h ⊢
  obtain ⟨_ | t, d⟩ := r
  · exact h
  · exact h.trans (hf t d)

theorem types_resolveTargets (targets : List VarBinder) :
    ctx.Types (ctx.resolveTargets m s targets) := by
  refine Types.foldl (fun ctx target => ?_) targets ctx
  cases target.ty? with
  | none => exact Types.refl ctx
  | some ty =>
    exact types_denoteIn_then m s ctx ty fun t ctx => types_setDeclaredType ctx s target.name t

theorem types_resolveFields (members : ScopeId) (t : Ty) :
    ctx.Types (ctx.resolveFields members t) := by
  unfold resolveFields
  split
  · exact Types.foldl (fun ctx (name, t) => types_setType ctx members name t) _ ctx
  · exact Types.refl ctx

theorem types_resolveTypeDecl (d : TypeDecl) : ctx.Types (ctx.resolveTypeDecl m s d) := by
  unfold resolveTypeDecl
  split
  · exact Types.refl ctx
  · split
    · exact (types_resolveFields ctx _ _).trans (types_setType ..)
    · exact types_reportIn _ m (Or.inl rfl) _ _

theorem types_resolveParams (body : ScopeId) (params : List Param) :
    ctx.Types (resolveParams m s body params ctx).2 := by
  induction params generalizing ctx with
  | nil => exact Types.refl ctx
  | cons p ps ih =>
    have h := types_denoteIn m s ctx p.ty
    rw [resolveParams]
    generalize ctx.denoteIn m s p.ty = r at h ⊢
    obtain ⟨_ | t, d⟩ := r
    · exact h.trans (ih d)
    · exact h.trans ((types_setDeclaredType d body p.name t).trans (ih _))

theorem types_resolveSignature (body : ScopeId) (params : List Param) (ret : Option TypeExpr) :
    ctx.Types (ctx.resolveSignature m s body params ret).2 := by
  have hret : ∀ d : Context, d.Types (d.resolveResult m s ret).2 := by
    intro d
    cases ret with
    | none => exact Types.refl d
    | some ty => exact types_denoteIn m s d ty
  have h := (types_resolveParams m s ctx body params).trans (hret _)
  simp only [resolveSignature]
  split <;> exact h

theorem types_setSignature (name : Ident) (t? : Option Ty) :
    ctx.Types (ctx.setSignature s name t?) := by
  cases t? with
  | none => exact Types.refl ctx
  | some t => exact types_setType ..

theorem types_resolveArity (span : Span) (targets values : Nat) :
    ctx.Types (ctx.resolveArity m span targets values) := by
  unfold resolveArity
  split
  · exact Types.refl ctx
  · exact types_reportIn _ m (Or.inl rfl) _ _

theorem resolveHead_filling (name : Ident) (params : List Param) (ret : Option TypeExpr) :
    (ctx.resolveHead m s name params ret).1 = ctx.scopes.declaredMembers? s name ∧
      ctx.Types (ctx.resolveHead m s name params ret).2 := by
  unfold resolveHead
  cases ctx.scopes.declaredMembers? s name with
  | none => exact ⟨rfl, Types.refl ctx⟩
  | some body =>
    have hsignature := types_resolveSignature m s ctx body params ret
    exact ⟨rfl, hsignature.trans (types_setSignature ..)⟩

theorem resolveMethodHead_filling (receiver : Param) (name : Ident) (params : List Param)
    (ret : Option TypeExpr) :
    (ctx.resolveMethodHead m s receiver name params ret).1 =
        ctx.scopes.methodBody? s receiver name ∧
      ctx.Types (ctx.resolveMethodHead m s receiver name params ret).2 := by
  unfold resolveMethodHead
  split
  · next typeName hty =>
    simp only [ScopeForest.methodBody?, methodScope, hty]
    cases ctx.scopes.typeMembers? s typeName.name with
    | none => exact ⟨rfl, Types.refl ctx⟩
    | some members =>
      dsimp only [Option.bind_some]
      cases ctx.scopes.declaredMembers? members name with
      | none => exact ⟨rfl, Types.refl ctx⟩
      | some body =>
        have hreceiver := types_denoteIn_then m s ctx (.named typeName)
          fun t ctx => types_setDeclaredType ctx body receiver.name t
        exact ⟨rfl, hreceiver.trans ((types_resolveSignature ..).trans (types_setSignature ..))⟩
  · next hother =>
    have hnone : methodScope ctx.scopes s receiver = none := by
      unfold methodScope
      split
      · next typeName hty => exact absurd hty (hother typeName)
      · rfl
    exact ⟨by rw [ScopeForest.methodBody?, hnone, Option.bind_none], Types.refl ctx⟩

/-- Resolution only fills in types. -/
theorem filling_resolver : Filling (resolver m) where
  function s name params ret ctx := resolveHead_filling m s ctx name params ret
  method s receiver name params ret ctx :=
    resolveMethodHead_filling m s ctx receiver name params ret
  typeDecl s d ctx := types_resolveTypeDecl m s ctx d
  declaring s _ targets _ _ ctx := by
    have h := types_resolveTargets m s ctx targets
    simp only [resolver]
    split
    · exact h
    · exact h.trans (types_resolveArity ..)
  declared _ _ _ ctx := Types.refl ctx
  assigning _ _ _ _ := types_resolveArity ..
  name s name ctx := by
    simp only [resolver, resolveName]
    split
    · exact Types.refl ctx
    · exact types_reportIn _ m (Or.inl rfl) _ _
  qualified s module name ctx := by
    simp only [resolver, resolveQualified]
    split
    · exact types_reportIn _ m (Or.inl rfl) _ _
    · split
      · exact Types.refl ctx
      · exact types_reportIn _ m (Or.inl rfl) _ _

/-! ### Checking -/

theorem types_checkTarget (target : VarBinder) (value : Expr) :
    ctx.Types (ctx.checkTarget m s target value) := by
  unfold checkTarget
  split
  · split
    · exact Types.refl ctx
    · split
      · split
        · exact types_setType ..
        · exact Types.refl ctx
      · split
        · exact Types.refl ctx
        · exact types_reportIn _ m (Or.inr rfl) _ _
  · exact Types.refl ctx

/-- Checking only fills in types. -/
theorem filling_checker : Filling (checker m) where
  function _ _ _ _ ctx := ⟨rfl, Types.refl ctx⟩
  method _ _ _ _ _ ctx := ⟨rfl, Types.refl ctx⟩
  typeDecl _ _ ctx := Types.refl ctx
  declaring _ _ _ _ _ ctx := Types.refl ctx
  declared s _ _ ctx :=
    Types.foldl (fun ctx (target, value) => types_checkTarget m s ctx target value) _ ctx
  assigning _ _ _ ctx := Types.refl ctx
  name _ _ ctx := Types.refl ctx
  qualified _ _ _ ctx := Types.refl ctx

end Sable.Context
