import Sable.Proofs.Compilation.Editing
import Sable.Proofs.Context.Recasting
import Sable.Proofs.Scope.Binding

/-!
# Passes over programs without a declaration

The passes behind collection come to a declaration that has been refused again, and recognize it by
its place: no scope binds the name there. So they go on to what stands behind it, and leave the same
behind as where the declaration has been struck out. They neither open scopes nor change programs, so
a declaration that cannot be struck out goes on to cling to the context.
-/

namespace Sable.Context

variable {ctx d e : Context} {x : Ident} {m : Module} {p : Program} {key : String}

/-! ### Programs of modules -/

/-- The program of the module under a key. -/
def program? (ctx : Context) (key : String) : Option Program := (ctx.module? key).map Module.program

theorem program?_congr (h : d.modules = ctx.modules) (key : String) :
    d.program? key = ctx.program? key := by
  rw [program?, program?, module?, module?, h]

/-- A module keeps its program in all phases. -/
theorem program?_setPhase (ctx : Context) (key : String) (target : Phase) (k : String) :
    (ctx.setPhase key target).program? k = ctx.program? k := by
  unfold setPhase
  split
  · have hkey : ((fun m : Module => m.key == k) ∘ fun m : Module =>
        if m.key = key then { m with phase := target } else m) = fun m => m.key == k := by
      funext m
      simp only [Function.comp]
      split <;> rfl
    rw [program?, program?, module?, module?, List.find?_map, Option.map_map, hkey]
    refine congrArg (Option.map · _) (funext fun m => ?_)
    simp only [Function.comp]
    split <;> rfl
  · rfl

/-- Scopes, names and programs stay. -/
structure Retains (ctx d : Context) : Prop where
  /-- Scopes stay, with what is declared in them. -/
  scopes : ctx.scopes.Precedes d.scopes
  /-- A module keeps its program. -/
  programs : ∀ {key p}, ctx.program? key = some p → d.program? key = some p

namespace Retains

theorem refl (ctx : Context) : ctx.Retains ctx := ⟨.refl _, id⟩

theorem trans (h : ctx.Retains d) (h' : d.Retains e) : ctx.Retains e :=
  ⟨h.scopes.trans h'.scopes, h'.programs ∘ h.programs⟩

/-- Where modules stay, programs do. -/
theorem of_modules (h : d.modules = ctx.modules) (hscopes : ctx.scopes.Precedes d.scopes) :
    ctx.Retains d := ⟨hscopes, (program?_congr h _).trans⟩

end Retains

theorem Extends.retains (h : ctx.Extends d) : ctx.Retains d := by
  refine ⟨h.scopes, fun hp => ?_⟩
  obtain ⟨m, hm, rfl⟩ := Option.map_eq_some_iff.mp hp
  obtain ⟨-, rfl⟩ := mem_of_module? hm
  obtain ⟨q, -, hq⟩ := h.modules (knows_of_module? hm)
  rw [Context.program?, hq]
  rfl

theorem Types.retains (h : ctx.Types d) : ctx.Retains d := .of_modules h.modules h.scopes.toPrecedes

theorem retains_setPhase (ctx : Context) (key : String) (target : Phase) :
    ctx.Retains (ctx.setPhase key target) :=
  ⟨scopes_setPhase ctx key target ▸ .refl _, (program?_setPhase ctx key target _).trans⟩

/--
A declaration cannot be struck out: some scope binds its name at its place, or some program declares
the name by something else than a statement.
-/
def Clings (x : Ident) (ctx : Context) : Prop :=
  ctx.scopes.Bears x ∨ ∃ key p, ctx.program? key = some p ∧ .inner x ∈ p.binders

theorem Retains.clings (h : ctx.Retains d) (hx : ctx.Clings x) : d.Clings x := by
  rcases hx with hbears | ⟨key, p, hp, hx⟩
  · exact Or.inl (h.scopes.bears hbears)
  · exact Or.inr ⟨key, p, h.programs hp, hx⟩

/-! ### Visits of the later passes -/

theorem nextModule_recast {g : String → Program → Program} (target : Phase) (s : ScopeId)
    (i : Import) : nextModule target s i (ctx.recast x g) =
      ((nextModule target s i ctx).1, (nextModule target s i ctx).2.recast x g) := by
  simp only [nextModule, canProcess_recast, scopes_recast]

/-- Where a declaration has left no trace, its head is passed over. -/
structure Ignores (x : Ident) (v : Visitor Context) : Prop where
  /-- A function is. -/
  function : ∀ {s ctx} params ret, ¬ ctx.scopes.Bears x → v.function s x params ret ctx = (none, ctx)
  /-- A method is. -/
  method : ∀ {s ctx} receiver params ret, ¬ ctx.scopes.Bears x →
    v.method s receiver x params ret ctx = (none, ctx)
  /-- A type is. -/
  typeDecl : ∀ {s ctx D}, D.name = x → ¬ ctx.scopes.Bears x → v.typeDecl s D ctx = ctx

theorem ignores_resolver (m : Module) : Ignores x (resolver m) where
  function {s ctx} params ret h := by
    change ctx.resolveHead m s x params ret = _
    rw [resolveHead, ScopeForest.declaredMembers?_of_not_bears h]
  method {s ctx} receiver params ret h := by
    change ctx.resolveMethodHead m s receiver x params ret = _
    rw [resolveMethodHead]
    cases receiver.ty with
    | named typeName =>
      dsimp only
      cases ctx.scopes.typeMembers? s typeName.name with
      | none => rfl
      | some members =>
        dsimp only
        rw [ScopeForest.declaredMembers?_of_not_bears h]
    | _ => rfl
  typeDecl {s ctx D} hname h := by
    change ctx.resolveTypeDecl m s D = _
    rw [resolveTypeDecl, hname, ScopeForest.declaredMembers?_of_not_bears h]

theorem ignores_checker (m : Module) : Ignores x (checker m) where
  function params ret h := Prod.ext (ScopeForest.declaredMembers?_of_not_bears h _) rfl
  method {s ctx} receiver params ret h := by
    refine Prod.ext ?_ rfl
    change (methodScope ctx.scopes s receiver).bind _ = none
    cases methodScope ctx.scopes s receiver with
    | none => rfl
    | some members => exact ScopeForest.declaredMembers?_of_not_bears h members
  typeDecl _ _ := rfl

/-- A context is another one without a declaration. -/
def Omitted (x : Ident) (ctx d : Context) : Prop := d = ctx.without x

/-- What acts alike without a declaration leads to the same scope or module. -/
private theorem omitted_head {α : Type} {r r' : Option α × Context} (h : r' = (r.1, r.2.without x)) :
    r.1 = r'.1 ∧ Omitted x r.2 r'.2 := by
  subst h
  exact ⟨rfl, rfl⟩

/-- A head that is passed over has no body, unless the declaration clings to the context. -/
private theorem omitted_ignored {r : Option ScopeId × Context} (h : Omitted x ctx d)
    (hr : ¬ ctx.scopes.Bears x → r = (none, ctx)) (hretains : ctx.Retains r.2) :
    (r.1 = none ∧ Omitted x r.2 d) ∨ r.2.Clings x := by
  by_cases hbears : ctx.scopes.Bears x
  · exact Or.inr (hretains.clings (Or.inl hbears))
  · rw [hr hbears]
    exact Or.inl ⟨rfl, h⟩

/-- A type that is passed over is the same, unless it clings to the context. -/
private theorem omitted_type (h : Omitted x ctx d) (he : ¬ ctx.scopes.Bears x → e = ctx)
    (hretains : ctx.Retains e) : InStepOr (Omitted x) (Clings x) e d := by
  by_cases hbears : ctx.scopes.Bears x
  · exact Or.inr (hretains.clings (Or.inl hbears))
  · rw [he hbears]
    exact Or.inl h

/-- Resolution omits a declaration. -/
theorem omits_resolver (m : Module) :
    (resolver m).Omits x (Omitted x) (Clings x) (resolver (m.without x)) where
  importing i h := h ▸ omitted_head (nextModule_recast _ _ i)
  function ret h _ _ := h ▸ omitted_head (resolveHead_recast m ..)
  method ret h _ _ := h ▸ omitted_head (resolveMethodHead_recast m ..)
  typeDecl h _ _ := h ▸ resolveTypeDecl_recast m ..
  declaring {s ctx d targets} isConst values span h _ := by
    obtain rfl := h
    have hempty : (Expr.withoutAll x values).isEmpty = values.isEmpty := by
      rw [Expr.withoutAll_eq_map, List.isEmpty_map]
    have hlength : (Expr.withoutAll x values).length = values.length := by
      rw [Expr.withoutAll_eq_map, List.length_map]
    simp only [resolver, hempty, hlength, resolveTargets_recast, resolveArity_recast]
    split <;> rfl
  declared _ _ h := h
  assigning targets values span h := by
    obtain rfl := h
    simp only [resolver, Expr.withoutAll_eq_map, List.length_map, resolveArity_recast]
    rfl
  name name h := h ▸ resolveName_recast m ..
  qualified module name h := h ▸ resolveQualified_recast m ..
  omittedFunction ret h _ := omitted_ignored h ((ignores_resolver m).function _ ret)
    ((filling_resolver m).function ..).2.retains
  omittedMethod ret h _ := omitted_ignored h ((ignores_resolver m).method _ _ ret)
    ((filling_resolver m).method ..).2.retains
  omittedType h hname _ := omitted_type h ((ignores_resolver m).typeDecl hname)
    ((filling_resolver m).typeDecl ..).retains

/-- Type checking omits a declaration. -/
theorem omits_checker (m : Module) :
    (checker m).Omits x (Omitted x) (Clings x) (checker (m.without x)) where
  importing i h := h ▸ omitted_head (nextModule_recast _ _ i)
  function _ h _ _ := h ▸ ⟨rfl, rfl⟩
  method _ h _ _ := h ▸ ⟨rfl, rfl⟩
  typeDecl h _ _ := h
  declaring _ _ _ h _ := h
  declared _ _ h := h ▸ checkTargets_recast m ..
  assigning _ _ _ h := h
  name _ h := h
  qualified _ _ h := h
  omittedFunction ret h _ := omitted_ignored h ((ignores_checker m).function _ ret) (.refl _)
  omittedMethod ret h _ := omitted_ignored h ((ignores_checker m).method _ _ ret) (.refl _)
  omittedType h _ _ := Or.inl h

/-! ### Passes -/

/-- A pass omits a declaration if its visits do. -/
theorem omits_traversal {visitor : Module → Visitor Context} (target : Phase) (pass : Pass)
    (activity : String) (hv : ∀ m, Filling (visitor m))
    (hi : ∀ m, (visitor m).importing = nextModule target)
    (hvisits : ∀ m, (visitor m).Omits x (Omitted x) (Clings x) (visitor (m.without x))) :
    (traversal target pass activity visitor).Omits x (Omitted x) (Clings x)
      (traversal target pass activity visitor) where
  enter key ctx d h := by
    obtain rfl := h
    have henter := @enter_recast x (fun _ => Program.without x) ctx key target
      pass activity
    by_cases hinner : ∀ m ∈ (ctx.enter key target pass activity).1, .inner x ∉ m.program.binders
    · exact Or.inl ⟨congrArg Prod.snd henter, congrArg Prod.fst henter, hinner⟩
    · simp only [not_forall, not_not] at hinner
      obtain ⟨m, hm, hx⟩ := hinner
      obtain ⟨hmodule, -, hsame⟩ :=
        enter_eq_some (d := (ctx.enter key target pass activity).2) (Prod.ext hm rfl)
      refine Or.inr (Or.inr ⟨key, m.program, ?_, hx⟩)
      change Context.program? (ctx.enter key target pass activity).2 key = _
      rw [hsame, program?, hmodule]
      rfl
  visitor := hvisits
  leave key _ _ h := h ▸ setPhase_recast key target
  giveUp _ _ _ h := h
  off := by
    have hretains : (traversal target pass activity visitor).Respects Retains :=
      respects_traversal hv hi Retains.refl Retains.trans Types.retains
        (fun ctx r _ => .of_modules rfl (.refl _)) retains_setPhase
    exact hretains.preserves Retains.clings

end Sable.Context
