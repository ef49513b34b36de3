import Sable.Context.Resolution
import Sable.Context.Typing
import Sable.Proofs.Context.Progress
import Sable.Proofs.Module.Omitting

/-!
# Contexts without a declaration

The same context is known without a declaration: the programs of the modules are changed, and no report
says that the declaration is refused. Nothing else is touched, so all that the passes do to a context
can as well be done to what is left of it.
-/

namespace Sable

/-- Whether a report says that a declaration of a name is refused. -/
def Diagnostic.refuses (x : Ident) (e : Diagnostic) : Bool :=
  e = ⟨e.file, x.span, (DuplicateSymbol.mk x.name x.span).message, .semanticError, .collecting, none⟩

/-- The reports that do not say that a declaration of a name is refused. -/
def Diagnostics.without (x : Ident) (ds : Diagnostics) : Diagnostics where
  items := ds.items.filter fun e => !e.refuses x
  hasFatal := ds.hasFatal
  hasFatal_eq := by
    rw [ds.hasFatal_eq, List.any_filter]
    refine congrArg (List.any ds.items) (funext fun e => ?_)
    cases hrefuses : e.refuses x with
    | false => rfl
    | true =>
      rw [of_decide_eq_true hrefuses]
      rfl

/-- A module with a program that is changed in a way that depends on the key of the module. -/
def Module.recast (g : String → Program → Program) (m : Module) : Module :=
  { m with program := g m.key m.program }

namespace Context

/-- A context with changed programs, and without reports that a declaration of a name is refused. -/
def recast (x : Ident) (g : String → Program → Program) (ctx : Context) : Context :=
  { ctx with diagnostics := ctx.diagnostics.without x, modules := ctx.modules.map (Module.recast g) }

/-- A context whose programs do not hold a declaration, and in which it is not refused. -/
abbrev without (x : Ident) (ctx : Context) : Context := ctx.recast x fun _ => Program.without x

variable {x : Ident} {g : String → Program → Program} {ctx : Context}

@[simp] theorem scopes_recast : (ctx.recast x g).scopes = ctx.scopes := rfl

/-! ### Modules and phases -/

@[simp] theorem module?_recast (key : String) :
    (ctx.recast x g).module? key = (ctx.module? key).map (Module.recast g) := by
  rw [module?, module?, recast, List.find?_map]
  rfl

@[simp] theorem hasModule_recast (key : String) :
    (ctx.recast x g).hasModule key = ctx.hasModule key := by
  rw [hasModule, hasModule, module?_recast, Option.isSome_map]

@[simp] theorem phase_recast (key : String) : (ctx.recast x g).phase key = ctx.phase key := by
  rw [phase, phase, module?_recast, Option.map_map]
  rfl

@[simp] theorem canProcess_recast (key : String) (target : Phase) :
    (ctx.recast x g).canProcess key target = ctx.canProcess key target := by
  rw [canProcess, canProcess, phase_recast]

@[simp] theorem canAdvance_recast (key : String) (target : Phase) :
    (ctx.recast x g).canAdvance key target = ctx.canAdvance key target := by
  rw [canAdvance, canAdvance, module?_recast]
  cases ctx.module? key <;> rfl

theorem setPhase_recast (key : String) (target : Phase) :
    (ctx.recast x g).setPhase key target = (ctx.setPhase key target).recast x g := by
  rw [setPhase, setPhase, canAdvance_recast]
  split
  · simp only [recast, List.map_map]
    congr 1
    refine List.map_congr_left fun m _ => ?_
    simp only [Function.comp, apply_ite (Module.recast g)]
    rfl
  · rfl

/-- A module may be registered with its changed program. -/
theorem addModule_recast {key : String} (hg : ctx.hasModule key = false → ∀ p, g key p = p)
    (file : Path) (program : Program) :
    ((ctx.recast x g).addModule key file program).2 = (ctx.addModule key file program).2.recast x g := by
  rw [addModule, addModule, hasModule_recast]
  split
  · rfl
  · next hfree =>
    simp only [recast, List.map_append, List.map_singleton, Module.recast,
      hg (Bool.eq_false_iff.mpr hfree)]

/-! ### Reports -/

/-- What does not refuse the declaration is reported either way. -/
theorem report_recast {e : Diagnostic} (he : e.refuses x = false) :
    (ctx.recast x g).report e = (ctx.report e).recast x g := by
  simp [recast, report, Diagnostics.without, Diagnostics.add, List.filter_append, he]

/-- What refuses it is not. -/
theorem report_recast_of_refuses {e : Diagnostic} (he : e.refuses x = true) :
    (ctx.report e).recast x g = ctx.recast x g := by
  have hfatal : e.severity.isFatal = false := by
    rw [of_decide_eq_true he]
    rfl
  simp [recast, report, Diagnostics.without, Diagnostics.add, List.filter_append, he, hfatal]

/-- The later passes refuse no declaration. -/
theorem reportIn_recast (m : Module) {pass : Pass} (hpass : pass ≠ .collecting) (span : Span)
    (message : String) :
    (ctx.recast x g).reportIn m pass span message = (ctx.reportIn m pass span message).recast x g :=
  report_recast (decide_eq_false fun he => hpass (congrArg Diagnostic.pass he))

/-- A fatal problem refuses none. -/
theorem report_recast_of_isFatal {e : Diagnostic} (he : e.severity.isFatal = true) :
    (ctx.recast x g).report e = (ctx.report e).recast x g := by
  refine report_recast (decide_eq_false fun heq => ?_)
  rw [heq] at he
  cases he

/-- The same modules may be processed. -/
theorem enter_recast (key : String) (target : Phase) (pass : Pass) (activity : String) :
    (ctx.recast x g).enter key target pass activity =
      ((ctx.enter key target pass activity).1.map (Module.recast g),
        (ctx.enter key target pass activity).2.recast x g) := by
  have hready : (ctx.recast x g).notReady key pass activity = ctx.notReady key pass activity := by
    rw [notReady, notReady, module?_recast, phase_recast, Option.map_map]
    rfl
  rw [enter, enter, canProcess_recast, phase_recast, module?_recast, hready]
  split
  · rfl
  · split
    · rfl
    · rw [report_recast_of_isFatal (by rfl)]
      rfl

/-! ### Resolution

A problem is reported in the file of a module, whether the declaration is struck out of it or not.
-/

variable (m : Module)

theorem setDeclaredType_recast (s : ScopeId) (name : Ident) (ty : Ty) :
    (ctx.recast x g).setDeclaredType s name ty = (ctx.setDeclaredType s name ty).recast x g := by
  rw [setDeclaredType, setDeclaredType, scopes_recast]
  split <;> rfl

theorem denoteIn_recast (s : ScopeId) (ty : TypeExpr) :
    (ctx.recast x g).denoteIn (m.without x) s ty =
      ((ctx.denoteIn m s ty).1, (ctx.denoteIn m s ty).2.recast x g) := by
  rw [denoteIn, denoteIn, scopes_recast]
  cases Ty.ofTypeExpr ctx.scopes s ty with
  | ok t => rfl
  | error e => exact congrArg _ (reportIn_recast m (by decide) ..)

theorem resolveTargets_recast (s : ScopeId) (targets : List VarBinder) :
    (ctx.recast x g).resolveTargets (m.without x) s targets =
      (ctx.resolveTargets m s targets).recast x g := by
  rw [resolveTargets, resolveTargets]
  refine List.foldl_hom (recast x g) fun ctx target => ?_
  cases target.ty? with
  | none => rfl
  | some ty =>
    dsimp only
    rw [denoteIn_recast]
    generalize ctx.denoteIn m s ty = r
    obtain ⟨_ | t, d⟩ := r
    · rfl
    · exact setDeclaredType_recast s target.name t

theorem resolveFields_recast (members : ScopeId) (t : Ty) :
    (ctx.recast x g).resolveFields members t = (ctx.resolveFields members t).recast x g := by
  rw [resolveFields, resolveFields]
  cases t.unwrap with
  | struct name fields => exact List.foldl_hom (recast x g) fun ctx field => rfl
  | _ => rfl

theorem resolveTypeDecl_recast (s : ScopeId) (D : TypeDecl) :
    (ctx.recast x g).resolveTypeDecl (m.without x) s D = (ctx.resolveTypeDecl m s D).recast x g := by
  rw [resolveTypeDecl, resolveTypeDecl, scopes_recast]
  cases ctx.scopes.declaredMembers? s D.name with
  | none => rfl
  | some members =>
    cases Ty.ofTypeDecl ctx.scopes s D.name.name D.ty with
    | ok t => exact congrArg (setType · s D.name.name t) (resolveFields_recast members t)
    | error e => exact reportIn_recast m (by decide) ..

theorem resolveParams_recast (s body : ScopeId) (params : List Param) :
    resolveParams (m.without x) s body params (ctx.recast x g) =
      ((resolveParams m s body params ctx).1, (resolveParams m s body params ctx).2.recast x g) := by
  induction params generalizing ctx with
  | nil => rfl
  | cons p params ih =>
    rw [resolveParams, resolveParams, denoteIn_recast]
    generalize ctx.denoteIn m s p.ty = r
    obtain ⟨_ | t, d⟩ := r
    · dsimp only
      rw [ih]
    · dsimp only
      rw [setDeclaredType_recast, ih]

theorem resolveResult_recast (s : ScopeId) (ret : Option TypeExpr) :
    (ctx.recast x g).resolveResult (m.without x) s ret =
      ((ctx.resolveResult m s ret).1, (ctx.resolveResult m s ret).2.recast x g) := by
  cases ret with
  | none => rfl
  | some ty =>
    rw [resolveResult, resolveResult]
    dsimp only
    rw [denoteIn_recast]

theorem resolveSignature_recast (s body : ScopeId) (params : List Param) (ret : Option TypeExpr) :
    (ctx.recast x g).resolveSignature (m.without x) s body params ret =
      ((ctx.resolveSignature m s body params ret).1,
        (ctx.resolveSignature m s body params ret).2.recast x g) := by
  rw [resolveSignature, resolveSignature, resolveParams_recast]
  generalize resolveParams m s body params ctx = r
  dsimp only
  rw [resolveResult_recast]
  generalize resolveResult m s ret r.2 = q
  obtain ⟨_ | ts, d⟩ := r
  · rfl
  · obtain ⟨_ | t, e⟩ := q <;> rfl

theorem setSignature_recast (s : ScopeId) (name : Ident) (t? : Option Ty) :
    (ctx.recast x g).setSignature s name t? = (ctx.setSignature s name t?).recast x g := by
  cases t? <;> rfl

theorem resolveHead_recast (s : ScopeId) (name : Ident) (params : List Param)
    (ret : Option TypeExpr) :
    (ctx.recast x g).resolveHead (m.without x) s name params ret =
      ((ctx.resolveHead m s name params ret).1, (ctx.resolveHead m s name params ret).2.recast x g) := by
  rw [resolveHead, resolveHead, scopes_recast]
  cases ctx.scopes.declaredMembers? s name with
  | none => rfl
  | some body =>
    dsimp only
    rw [resolveSignature_recast, setSignature_recast]

theorem resolveMethodHead_recast (s : ScopeId) (receiver : Param) (name : Ident)
    (params : List Param) (ret : Option TypeExpr) :
    (ctx.recast x g).resolveMethodHead (m.without x) s receiver name params ret =
      ((ctx.resolveMethodHead m s receiver name params ret).1,
        (ctx.resolveMethodHead m s receiver name params ret).2.recast x g) := by
  rw [resolveMethodHead, resolveMethodHead]
  cases receiver.ty with
  | named typeName =>
    dsimp only
    rw [scopes_recast]
    cases ctx.scopes.typeMembers? s typeName.name with
    | none => rfl
    | some members =>
      dsimp only
      cases ctx.scopes.declaredMembers? members name with
      | none => rfl
      | some body =>
        dsimp only
        rw [denoteIn_recast]
        generalize ctx.denoteIn m s (.named typeName) = r
        obtain ⟨_ | t, d⟩ := r
        · dsimp only
          rw [resolveSignature_recast, setSignature_recast]
        · dsimp only
          rw [setDeclaredType_recast, resolveSignature_recast, setSignature_recast]
  | _ => rfl

theorem resolveName_recast (s : ScopeId) (name : Ident) :
    (ctx.recast x g).resolveName (m.without x) s name = (ctx.resolveName m s name).recast x g := by
  rw [resolveName, resolveName, scopes_recast]
  split
  · rfl
  · exact reportIn_recast m (by decide) ..

theorem resolveQualified_recast (s : ScopeId) (module name : Ident) :
    (ctx.recast x g).resolveQualified (m.without x) s module name =
      (ctx.resolveQualified m s module name).recast x g := by
  rw [resolveQualified, resolveQualified, scopes_recast]
  cases ctx.scopes.importedRoot s module.name with
  | error e => exact reportIn_recast m (by decide) ..
  | ok root =>
    dsimp only
    split
    · rfl
    · exact reportIn_recast m (by decide) ..

theorem resolveArity_recast (span : Span) (targets values : Nat) :
    (ctx.recast x g).resolveArity (m.without x) span targets values =
      (ctx.resolveArity m span targets values).recast x g := by
  rw [resolveArity, resolveArity]
  split
  · rfl
  · exact reportIn_recast m (by decide) ..

/-! ### Type checking -/

theorem infer_without (F : ScopeForest) (s : ScopeId) : ∀ e : Expr,
    infer F s (e.without x) = infer F s e
  | .literal _ _ => rfl
  | .ident _ => rfl
  | .qualified _ _ _ => rfl
  | .binary _ _ _ _ => rfl
  | .unary _ _ _ => rfl
  | .call _ _ _ => rfl
  | .field _ _ _ => rfl
  | .index _ _ _ => rfl
  | .array _ _ => rfl
  | .function (.mk _ _ _ _ _) => rfl

theorem checkTarget_recast (s : ScopeId) (target : VarBinder) (value : Expr) :
    (ctx.recast x g).checkTarget (m.without x) s target (value.without x) =
      (ctx.checkTarget m s target value).recast x g := by
  rw [checkTarget, checkTarget, scopes_recast, infer_without, Expr.span_without]
  split
  · cases infer ctx.scopes s value with
    | none => rfl
    | some t =>
      dsimp only
      cases (ctx.scopes.symbol? s target.name.name).bind Symbol.ty? with
      | none =>
        dsimp only
        split <;> rfl
      | some expected =>
        dsimp only
        split
        · rfl
        · exact reportIn_recast m (by decide) ..
  · rfl

theorem checkTargets_recast (s : ScopeId) (targets : List VarBinder) (values : List Expr) :
    (ctx.recast x g).checkTargets (m.without x) s targets (Expr.withoutAll x values) =
      (ctx.checkTargets m s targets values).recast x g := by
  rw [checkTargets, checkTargets, Expr.withoutAll_eq_map, List.zip_map_right, List.foldl_map]
  exact List.foldl_hom (recast x g) fun ctx pair => checkTarget_recast m s pair.1 pair.2

end Context

end Sable
