import Sable.Proofs.Context.Passing
import Sable.Proofs.Module.Script

/-!
# Names that a visit leaves alone

Behind the first pass, a visit gives types to names in two scopes at most: the one that it is made
in, or that of the members of the type that a receiver names, and the scope of the members of the
declaration at hand. All of them lie in the tree of the module that is walked, so the names in all
other trees stay what they are.
-/

namespace Sable.Context

/-- A visitor that gives types to names only where the declaration at hand stands. -/
structure Local (v : Visitor Context) : Prop where
  /-- A function changes names next to its own, and in its body. -/
  function : ∀ s name params ret ctx t, t ≠ s → ctx.scopes.declaredMembers? s name ≠ some t →
    (v.function s name params ret ctx).2.scopes.symbols t = ctx.scopes.symbols t
  /-- A method changes names next to its own, and in its body. -/
  method : ∀ s receiver name params ret ctx t, methodScope ctx.scopes s receiver ≠ some t →
    ctx.scopes.methodBody? s receiver name ≠ some t →
      (v.method s receiver name params ret ctx).2.scopes.symbols t = ctx.scopes.symbols t
  /-- A declared type changes names next to its own, and its members. -/
  typeDecl : ∀ s d ctx t, t ≠ s → ctx.scopes.declaredMembers? s d.name ≠ some t →
    (v.typeDecl s d ctx).scopes.symbols t = ctx.scopes.symbols t
  /-- What stands in front of values changes names where it stands. -/
  declaring : ∀ s isConst targets values span ctx t, t ≠ s →
    (v.declaring s isConst targets values span ctx).scopes.symbols t = ctx.scopes.symbols t
  /-- What stands behind values changes names where it stands. -/
  declared : ∀ s targets values ctx t, t ≠ s →
    (v.declared s targets values ctx).scopes.symbols t = ctx.scopes.symbols t
  /-- An assignment changes nothing. -/
  assigning : ∀ targets values span ctx,
    (v.assigning targets values span ctx).scopes = ctx.scopes
  /-- A name changes nothing. -/
  name : ∀ s name ctx, (v.name s name ctx).scopes = ctx.scopes
  /-- A qualified name changes nothing. -/
  qualified : ∀ s module name ctx, (v.qualified s module name ctx).scopes = ctx.scopes

variable {m : Module} {s t : ScopeId}

/-! ### Single steps -/

theorem symbols_setType (h : t ≠ s) (name : String) (ty : Ty) (ctx : Context) :
    (ctx.setType s name ty).scopes.symbols t = ctx.scopes.symbols t := by
  rw [setType, ScopeForest.setType, ScopeForest.modifySymbol, ScopeForest.symbols,
    ScopeForest.scope?_modify, if_neg h, ScopeForest.symbols]

theorem symbols_setDeclaredType (h : t ≠ s) (name : Ident) (ty : Ty) (ctx : Context) :
    (ctx.setDeclaredType s name ty).scopes.symbols t = ctx.scopes.symbols t := by
  unfold setDeclaredType
  split
  · exact symbols_setType h name.name ty ctx
  · rfl

theorem scopes_denoteIn (m : Module) (s : ScopeId) (ty : TypeExpr) (ctx : Context) :
    (ctx.denoteIn m s ty).2.scopes = ctx.scopes := by
  unfold denoteIn
  split <;> rfl

/-- Steps that leave the names of a scope alone do so one after the other. -/
private theorem symbols_foldl {α : Type} {f : Context → α → Context}
    (h : ∀ (ctx : Context) (x : α), (f ctx x).scopes.symbols t = ctx.scopes.symbols t)
    (xs : List α) (ctx : Context) :
    (xs.foldl f ctx).scopes.symbols t = ctx.scopes.symbols t := by
  induction xs generalizing ctx with
  | nil => rfl
  | cons x xs ih => exact (ih (f ctx x)).trans (h ctx x)

/-- A written type may be given to a name in another scope. -/
private theorem symbols_denoteIn_then (m : Module) (s : ScopeId) (ty : TypeExpr) (ctx : Context)
    {f : Ty → Context → Context} (hf : ∀ u d, (f u d).scopes.symbols t = d.scopes.symbols t) :
    (match ctx.denoteIn m s ty with
      | (some u, d) => f u d
      | (none, d) => d).scopes.symbols t = ctx.scopes.symbols t := by
  have h := scopes_denoteIn m s ty ctx
  generalize ctx.denoteIn m s ty = r at h ⊢
  obtain ⟨_ | u, d⟩ := r
  · exact congrArg (ScopeForest.symbols · t) h
  · exact (hf u d).trans (congrArg (ScopeForest.symbols · t) h)

/-! ### Resolution -/

theorem symbols_resolveTargets (h : t ≠ s) (targets : List VarBinder) (ctx : Context) :
    (ctx.resolveTargets m s targets).scopes.symbols t = ctx.scopes.symbols t := by
  refine symbols_foldl (fun ctx target => ?_) targets ctx
  cases target.ty? with
  | none => rfl
  | some ty => exact symbols_denoteIn_then m s ty ctx fun _ _ => symbols_setDeclaredType h ..

theorem symbols_resolveFields {members : ScopeId} (h : t ≠ members) (u : Ty) (ctx : Context) :
    (ctx.resolveFields members u).scopes.symbols t = ctx.scopes.symbols t := by
  unfold resolveFields
  split
  · exact symbols_foldl (fun _ _ => symbols_setType h ..) _ ctx
  · rfl

theorem symbols_resolveParams {body : ScopeId} (h : t ≠ body) (params : List Param)
    (ctx : Context) :
    (resolveParams m s body params ctx).2.scopes.symbols t = ctx.scopes.symbols t := by
  induction params generalizing ctx with
  | nil => rfl
  | cons p ps ih =>
    have hd := congrArg (ScopeForest.symbols · t) (scopes_denoteIn m s p.ty ctx)
    rw [resolveParams]
    generalize ctx.denoteIn m s p.ty = r at hd ⊢
    obtain ⟨_ | u, d⟩ := r
    · exact (ih d).trans hd
    · exact (ih _).trans ((symbols_setDeclaredType h ..).trans hd)

theorem scopes_resolveResult (m : Module) (s : ScopeId) (ret : Option TypeExpr) (ctx : Context) :
    (ctx.resolveResult m s ret).2.scopes = ctx.scopes := by
  cases ret with
  | none => rfl
  | some ty => exact scopes_denoteIn m s ty ctx

theorem symbols_resolveSignature {body : ScopeId} (h : t ≠ body) (params : List Param)
    (ret : Option TypeExpr) (ctx : Context) :
    (ctx.resolveSignature m s body params ret).2.scopes.symbols t = ctx.scopes.symbols t := by
  have hparams := symbols_resolveParams (m := m) (s := s) h params ctx
  have hret := congrArg (ScopeForest.symbols · t)
    (scopes_resolveResult m s ret (resolveParams m s body params ctx).2)
  simp only [resolveSignature]
  split <;> exact hret.trans hparams

theorem symbols_setSignature (h : t ≠ s) (name : Ident) (u? : Option Ty) (ctx : Context) :
    (ctx.setSignature s name u?).scopes.symbols t = ctx.scopes.symbols t := by
  cases u? with
  | none => rfl
  | some u => exact symbols_setType h ..

theorem scopes_resolveArity (m : Module) (span : Span) (targets values : Nat) (ctx : Context) :
    (ctx.resolveArity m span targets values).scopes = ctx.scopes := by
  unfold resolveArity
  split <;> rfl

/-- Resolution gives types to names where the declaration at hand stands. -/
theorem local_resolver (m : Module) : Local (resolver m) where
  function s name params ret ctx t hs hbody := by
    simp only [resolver, resolveHead]
    cases hmembers : ctx.scopes.declaredMembers? s name with
    | none => rfl
    | some body =>
      have hne : t ≠ body := fun he => hbody (he ▸ hmembers)
      exact (symbols_setSignature hs ..).trans (symbols_resolveSignature hne ..)
  method s receiver name params ret ctx t hscope hbody := by
    simp only [resolver, resolveMethodHead]
    split
    · next typeName hty =>
      rw [methodScope, hty] at hscope
      cases hmembers : ctx.scopes.typeMembers? s typeName.name with
      | none => rfl
      | some members =>
        have hne : t ≠ members := fun he => hscope (he ▸ hmembers)
        cases hdecl : ctx.scopes.declaredMembers? members name with
        | none => simp [hdecl]
        | some body =>
          have hne' : t ≠ body := by
            rintro rfl
            refine hbody ?_
            simp only [ScopeForest.methodBody?, methodScope, hty, hmembers, Option.bind_some, hdecl]
          have hreceiver := symbols_denoteIn_then m s receiver.ty ctx
            fun u d => symbols_setDeclaredType hne' receiver.name u d
          simp only [hdecl]
          exact (symbols_setSignature hne ..).trans
            ((symbols_resolveSignature hne' ..).trans hreceiver)
    · rfl
  typeDecl s d ctx t hs hmembers := by
    simp only [resolver, resolveTypeDecl]
    split
    · rfl
    · next members hdecl =>
      have hne : t ≠ members := fun he => hmembers (he ▸ hdecl)
      split
      · exact (symbols_setType hs ..).trans (symbols_resolveFields hne ..)
      · rfl
  declaring s _ targets values span ctx t hs := by
    have h := symbols_resolveTargets (m := m) hs targets ctx
    simp only [resolver]
    split
    · exact h
    · exact (congrArg (ScopeForest.symbols · t) (scopes_resolveArity ..)).trans h
  declared _ _ _ _ _ _ := rfl
  assigning _ _ _ _ := scopes_resolveArity ..
  name s name ctx := by
    simp only [resolver, resolveName]
    split <;> rfl
  qualified s module name ctx := by
    simp only [resolver, resolveQualified]
    split
    · rfl
    · split <;> rfl

/-! ### Checking -/

theorem symbols_checkTarget (h : t ≠ s) (target : VarBinder) (value : Expr) (ctx : Context) :
    (ctx.checkTarget m s target value).scopes.symbols t = ctx.scopes.symbols t := by
  unfold checkTarget
  split
  · split
    · rfl
    · split
      · split
        · exact symbols_setType h ..
        · rfl
      · split <;> rfl
  · rfl

/-- Checking gives types to names where the declaration at hand stands. -/
theorem local_checker (m : Module) : Local (checker m) where
  function _ _ _ _ _ _ _ _ := rfl
  method _ _ _ _ _ _ _ _ _ := rfl
  typeDecl _ _ _ _ _ _ := rfl
  declaring _ _ _ _ _ _ _ _ := rfl
  declared _ _ _ ctx _ hs := symbols_foldl (fun _ _ => symbols_checkTarget hs ..) _ ctx
  assigning _ _ _ _ := rfl
  name _ _ _ := rfl
  qualified _ _ _ _ := rfl

/-! ### Visits in a tree -/

/-- A visit leaves the names outside the tree of its module alone. -/
theorem visits_local {target p : Phase} {v : Module → Visitor Context} (hv : ∀ m, Filling (v m))
    (hlocal : ∀ m, Local (v m)) (c₀ : Context) (stack : List String) (m : Module) :
    (v m).Visits ((passing target p c₀).Admits m) ((passing target p c₀).Stands m)
      ((passing target p c₀).At stack m) fun c d =>
        ∀ t, m.root ∉ c.scopes.chain t → d.scopes.symbols t = c.scopes.symbols t := by
  have hvisits : (v m).Visits ((passing target p c₀).Admits m) ((passing target p c₀).Stands m)
      ((passing target p c₀).At stack m) Types := visits_types hv c₀ stack m
  have hself : ∀ {s t c}, (passing target p c₀).At stack m s c → m.root ∉ c.scopes.chain t →
      t ≠ s := by
    rintro s t c hs htree rfl
    exact htree hs.2.2.2
  constructor
  · intro s c name params ret hs
    refine ⟨fun t htree => ?_, (hvisits.function name params ret hs).2⟩
    refine (hlocal m).function s name params ret c t (hself hs htree) fun hbody => ?_
    exact htree (ScopeForest.declaredMembers?_mem hs.2.1.scopes hs.2.2.2 hbody)
  · intro s c receiver name params ret hr hs
    have hparsed := hs.2.2.places hs.2.1 _ hr
    have hroot := hs.2.2.root hs.2.1
    refine ⟨fun t htree => ?_, (hvisits.method receiver name params ret hr hs).2⟩
    refine (hlocal m).method s receiver name params ret c t (fun hscope => ?_) fun hbody => ?_
    · exact htree (ScopeForest.methodScope_mem hs.2.1.scopes hroot hs.2.2.2 hparsed hscope)
    · exact htree (ScopeForest.methodBody?_mem hs.2.1.scopes hroot hs.2.2.2 hparsed hbody)
  · intro s c d hs t htree
    refine (hlocal m).typeDecl s d c t (hself hs htree) fun hmembers => ?_
    exact htree (ScopeForest.declaredMembers?_mem hs.2.1.scopes hs.2.2.2 hmembers)
  · exact fun isConst targets values span hs t htree =>
      (hlocal m).declaring _ isConst targets values span _ t (hself hs htree)
  · exact fun targets values hs t htree =>
      (hlocal m).declared _ targets values _ t (hself hs htree)
  · exact fun targets values span _ t _ =>
      congrArg (ScopeForest.symbols · t) ((hlocal m).assigning targets values span _)
  · exact fun name _ t _ => congrArg (ScopeForest.symbols · t) ((hlocal m).name _ name _)
  · exact fun module name _ t _ =>
      congrArg (ScopeForest.symbols · t) ((hlocal m).qualified _ module name _)

section

variable {target p : Phase} {v : Module → Visitor Context} (hv : ∀ m, Filling (v m))
  (hlocal : ∀ m, Local (v m)) {c₀ c : Context} {stack : List String} {m : Module} {s t : ScopeId}
  (hs : (passing target p c₀).At stack m s c) (ht : m.root ∉ c.scopes.chain t)

include hv hlocal hs ht

/-- A place that stays in its scope leaves the names in other trees alone. -/
theorem symbols_stop (x : Stop) : ((v m).stop s x c).scopes.symbols t = c.scopes.symbols t := by
  have hvisits := @visits_local target p v hv hlocal c₀ stack m
  cases x with
  | typeDecl d => exact hvisits.typeDecl d hs t ht
  | declaring isConst targets values span =>
    exact hvisits.declaring isConst targets values span hs t ht
  | declared targets values => exact hvisits.declared targets values hs t ht
  | assigning targets values span => exact hvisits.assigning targets values span hs t ht
  | name name => exact hvisits.name name hs t ht
  | qualified module name => exact hvisits.qualified module name hs t ht

/-- So does the head of a function or a method of the module. -/
theorem symbols_head {hd : Head} {ys : List Step}
    (hocc : (Step.body hd ys).Occurs m.program.steps) :
    ((v m).head s hd c).2.scopes.symbols t = c.scopes.symbols t := by
  have hvisits := @visits_local target p v hv hlocal c₀ stack m
  have hplace : ∀ r, hd.receiver? = some r → Place.receiver r ∈ m.program.places := by
    intro r hr
    rw [← m.program.placesAll_steps]
    exact hocc.places_subset (by simp [Step.places, hr])
  obtain ⟨_ | receiver, name, params, ret⟩ := hd
  · exact (hvisits.function name params ret hs).1 t ht
  · exact (hvisits.method receiver name params ret (hplace receiver rfl) hs).1 t ht

end

end Sable.Context
