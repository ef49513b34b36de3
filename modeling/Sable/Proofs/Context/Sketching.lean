import Sable.Proofs.Context.Reporting
import Sable.Proofs.Context.Writing

/-!
# What resolution gives but for definitions

When resolution comes to a place, the types that are named there may have been defined or not. This
makes no difference but for the definitions in the types that are given there: the name of a type is
read in the same way before and after. So each place gives the same types but for definitions,
whenever resolution comes there.
-/

namespace Sable

namespace ScopeForest

/-- Tables that differ in types only, and have the same readings for the names of types. -/
structure SameReadings (F G : ScopeForest) : Prop where
  /-- Only types differ. -/
  untyped : G.untyped = F.untyped
  /-- The names of types mean the same but for definitions. -/
  readings : ∀ {s kind x t?}, F.Shows s kind x t? → kind.isType = true →
    G.reading s x.name = F.reading s x.name

variable {F G : ScopeForest}

theorem SameReadings.refl (F : ScopeForest) : F.SameReadings F := ⟨rfl, fun _ _ => rfl⟩

/-- Written types mean the same there but for definitions. -/
theorem SameReadings.meaning (h : F.SameReadings G) (s : ScopeId) : Ty.SameMeaning F G s := by
  refine .of_readings h.untyped (fun {u name x} hx htype => ?_) s
  obtain ⟨-, rfl⟩ := mem_symbols_of_symbol? hx
  exact h.readings (shows_of_symbol? hx) htype

end ScopeForest

theorem Visit.Furnished.of_untyped {F G : ScopeForest} {v : Visit} (h : v.Furnished F)
    (hG : G.untyped = F.untyped) : v.Furnished G := by
  cases v with
  | stop s x =>
    cases x with
    | typeDecl d =>
      intro t ht kind x t? hx
      exact h t ((ScopeForest.declaredMembers?_of_untyped hG ..).symm.trans ht)
        (hx.of_untyped hG.symm)
    | _ => trivial
  | _ => trivial

namespace Context

/-- Two steps that give the same types to names other than methods, but for definitions. -/
structure Copies (c c' d d' : Context) : Prop where
  /-- The one step changes types only. -/
  untyped : d.scopes.untyped = c.scopes.untyped
  /-- So does the other step. -/
  untyped' : d'.scopes.untyped = c'.scopes.untyped
  /-- A name has the same type behind both of them, or is given none by either of them. -/
  types : ∀ {s kind x t?}, c.scopes.Shows s kind x t? → kind ≠ .method →
    d'.scopes.bareType? s x.name = d.scopes.bareType? s x.name ∨
      d.scopes.bareType? s x.name = c.scopes.bareType? s x.name ∧
        d'.scopes.bareType? s x.name = c'.scopes.bareType? s x.name

variable {c c' d d' e e' : Context} {m n : Module} {s : ScopeId}

namespace Copies

theorem of_scopes (h : d.scopes = c.scopes) (h' : d'.scopes = c'.scopes) : Copies c c' d d' :=
  ⟨by rw [h], by rw [h'], fun _ _ => Or.inr ⟨by rw [h], by rw [h']⟩⟩

theorem refl (c c' : Context) : Copies c c' c c' := .of_scopes rfl rfl

theorem trans (h : Copies c c' d d') (h' : Copies d d' e e') : Copies c c' e e' where
  untyped := h'.untyped.trans h.untyped
  untyped' := h'.untyped'.trans h.untyped'
  types hx hkind := by
    rcases h'.types (hx.of_untyped h.untyped) hkind with hsame | ⟨hkept, hkept'⟩
    · exact Or.inl hsame
    · rw [hkept, hkept']
      exact h.types hx hkind

/-- Steps that give types to methods only copy each other. -/
theorem of_marks (hc : c'.scopes.untyped = c.scopes.untyped) (h : Marks [] c d)
    (h' : Marks [] c' d') : Copies c c' d d' where
  untyped := h.untyped
  untyped' := h'.untyped
  types hx hkind := by
    have hkept := h.types hx hkind List.not_mem_nil
    have hkept' := h'.types (hx.of_untyped hc) hkind List.not_mem_nil
    exact Or.inr ⟨congrArg (Option.map Ty.bare) hkept, congrArg (Option.map Ty.bare) hkept'⟩

/-- Behind such steps the names of types have the same readings if they had them before. -/
theorem sameReadings (h : Copies c c' d d') (hc : c.scopes.SameReadings c'.scopes) :
    d.scopes.SameReadings d'.scopes where
  untyped := by rw [h.untyped', hc.untyped, h.untyped]
  readings {s kind x t?} hx htype := by
    have hbefore := hx.of_untyped h.untyped.symm
    have hkind : kind ≠ .method := by
      rintro rfl
      cases htype
    rw [ScopeForest.reading, ScopeForest.reading]
    rcases h.types hbefore hkind with hsame | ⟨hkept, hkept'⟩
    · rw [hsame]
    · rw [hkept, hkept']
      exact hc.readings hbefore htype

end Copies

/-! ### Types that are given -/

theorem copies_setType (h : c'.scopes.untyped = c.scopes.untyped) (s : ScopeId) (name : String)
    {t u : Ty} (htu : u.bare = t.bare) :
    Copies c c' (c.setType s name t) (c'.setType s name u) where
  untyped := ScopeForest.untyped_setType ..
  untyped' := ScopeForest.untyped_setType ..
  types {s' kind x t?} hx _ := by
    by_cases hsame : s' = s ∧ x.name = name
    · obtain ⟨rfl, rfl⟩ := hsame
      have hgiven : (c.setType s' x.name t).scopes.typeOf? s' x.name = some t :=
        ScopeForest.typeOf?_setType_self t (ScopeForest.isSome_symbol?_of_binds hx.binds)
      have hgiven' : (c'.setType s' x.name u).scopes.typeOf? s' x.name = some u :=
        ScopeForest.typeOf?_setType_self u
          (ScopeForest.isSome_symbol?_of_binds (hx.of_untyped h).binds)
      refine Or.inl ?_
      rw [ScopeForest.bareType?, hgiven', ScopeForest.bareType?, hgiven, Option.map_some,
        Option.map_some, htu]
    · have hkept := ScopeForest.typeOf?_setType_of_ne (F := c.scopes) t hsame
      have hkept' := ScopeForest.typeOf?_setType_of_ne (F := c'.scopes) u hsame
      exact Or.inr ⟨congrArg (Option.map Ty.bare) hkept, congrArg (Option.map Ty.bare) hkept'⟩

theorem copies_setDeclaredType (h : c'.scopes.untyped = c.scopes.untyped) (s : ScopeId)
    (name : Ident) {t u : Ty} (htu : u.bare = t.bare) :
    Copies c c' (c.setDeclaredType s name t) (c'.setDeclaredType s name u) := by
  rw [setDeclaredType, setDeclaredType, ScopeForest.binds_congr h]
  split
  · exact copies_setType h s name.name htu
  · exact .refl c c'

/-- Fields that are the same but for definitions give the same types. -/
private theorem copies_foldl_setType (members : ScopeId) :
    ∀ {ts us : List (String × Ty)} {c c' : Context}, c'.scopes.untyped = c.scopes.untyped →
      Ty.bareFields us = Ty.bareFields ts →
      Copies c c' (ts.foldl (fun c field => c.setType members field.1 field.2) c)
        (us.foldl (fun c field => c.setType members field.1 field.2) c')
  | [], [], c, c', _, _ => .refl c c'
  | [], _ :: _, _, _, _, hfields => nomatch hfields
  | _ :: _, [], _, _, _, hfields => nomatch hfields
  | (name, t) :: ts, (name', u) :: us, c, c', h, hfields => by
    rw [Ty.bareFields, Ty.bareFields, List.cons.injEq, Prod.mk.injEq] at hfields
    obtain ⟨⟨rfl, htu⟩, hfields⟩ := hfields
    have hfirst := copies_setType h members name' htu
    have huntyped := hfirst.untyped'.trans (h.trans hfirst.untyped.symm)
    exact hfirst.trans (copies_foldl_setType members huntyped hfields)

section

variable (h : c.scopes.SameReadings c'.scopes)

include h

/-! ### Written types -/

/-- The same written types mean the same but for definitions. -/
private theorem bare_denoteIn (m n : Module) (s : ScopeId) (ty : TypeExpr) :
    (c'.denoteIn n s ty).1.map Ty.bare = (c.denoteIn m s ty).1.map Ty.bare := by
  simp only [denoteIn, Ty.ofTypeExpr]
  rcases Ty.map_eq_map_cases ((h.meaning s).bare_denote anonymousStruct ty) with
    ⟨e, hG, hF⟩ | ⟨u, t, hG, hF, htu⟩ <;> rw [hG, hF]
  exact congrArg some htu

/-- What a written type means is given to a name. -/
private theorem copies_denoteIn_then (m n : Module) (s body : ScopeId) (x : Ident)
    (ty : TypeExpr) :
    Copies c c'
      (match c.denoteIn m s ty with
      | (some t, d) => d.setDeclaredType body x t
      | (none, d) => d)
      (match c'.denoteIn n s ty with
      | (some t, d) => d.setDeclaredType body x t
      | (none, d) => d) := by
  have hbare := bare_denoteIn h m n s ty
  have hscopes : Copies c c' (c.denoteIn m s ty).2 (c'.denoteIn n s ty).2 :=
    .of_scopes (scopes_denoteIn m s ty c) (scopes_denoteIn n s ty c')
  generalize c.denoteIn m s ty = r, c'.denoteIn n s ty = r' at hbare hscopes ⊢
  obtain ⟨_ | t, d⟩ := r <;> obtain ⟨_ | u, d'⟩ := r'
  · exact hscopes
  · cases hbare
  · cases hbare
  · exact hscopes.trans (copies_setDeclaredType (hscopes.sameReadings h).untyped body x
      (Option.some.inj hbare))

private theorem copies_resolveTargets (m n : Module) (s : ScopeId) (targets : List VarBinder) :
    Copies c c' (c.resolveTargets m s targets) (c'.resolveTargets n s targets) := by
  induction targets generalizing c c' with
  | nil => exact .refl c c'
  | cons target targets ih =>
    have htarget : Copies c c' (c.resolveTargets m s [target])
        (c'.resolveTargets n s [target]) := by
      simp only [resolveTargets, List.foldl_cons, List.foldl_nil]
      cases target.ty? with
      | none => exact .refl c c'
      | some ty => exact copies_denoteIn_then h m n s s target.name ty
    exact htarget.trans (ih (htarget.sameReadings h))

/-- A declared type means the same, and its members are given the same, but for definitions. -/
private theorem copies_resolveTypeDecl (m n : Module) (s : ScopeId) (d : TypeDecl)
    (hd : (Visit.stop s (.typeDecl d)).Furnished c.scopes) :
    Copies c c' (c.resolveTypeDecl m s d) (c'.resolveTypeDecl n s d) := by
  have hmembers := ScopeForest.declaredMembers?_of_untyped h.untyped s d.name
  simp only [resolveTypeDecl, hmembers]
  cases hm : c.scopes.declaredMembers? s d.name with
  | none => exact .refl c c'
  | some members =>
    dsimp only
    rcases Ty.map_eq_map_cases ((h.meaning s).bare_denote d.name.name d.ty) with
      ⟨e, hG, hF⟩ | ⟨u, t, hG, hF, -⟩
    · simp only [Ty.ofTypeDecl, hG, hF, Except.map]
      exact .of_scopes rfl rfl
    · have ht : Ty.ofTypeDecl c.scopes s d.name.name d.ty = .ok (.named d.name.name (some t)) := by
        rw [Ty.ofTypeDecl, hF]
        rfl
      have hu : Ty.ofTypeDecl c'.scopes s d.name.name d.ty = .ok (.named d.name.name (some u)) := by
        rw [Ty.ofTypeDecl, hG]
        rfl
      have hfields : Copies c c' (c.resolveFields members (.named d.name.name (some t)))
          (c'.resolveFields members (.named d.name.name (some u))) := by
        cases hty : d.ty with
        | struct fields span =>
          obtain ⟨ts, us, hts, hus, hsame⟩ :=
            (h.meaning s).bareFields_of_ofTypeDecl (hty ▸ ht) (hty ▸ hu)
          simp only [resolveFields, hts, hus]
          exact copies_foldl_setType members h.untyped hsame
        | _ =>
          -- There are no fields, so only methods may be given types.
          have hnone : d.fieldNames = [] := by rw [TypeDecl.fieldNames, hty]
          refine .of_marks h.untyped (marks_resolveFields (fun hx => ?_) _)
            (marks_resolveFields (fun hx => ?_) _)
          · exact hnone ▸ hd members hm hx
          · exact hnone ▸ hd members hm (hx.of_untyped h.untyped.symm)
      simp only [ht, hu]
      exact hfields.trans (copies_setType (hfields.sameReadings h).untyped s d.name.name rfl)

/-! ### Signatures -/

private theorem copies_resolveParams (m n : Module) (s body : ScopeId) (params : List Param) :
    (resolveParams n s body params c').1.map Ty.bareList =
        (resolveParams m s body params c).1.map Ty.bareList ∧
      Copies c c' (resolveParams m s body params c).2 (resolveParams n s body params c').2 := by
  induction params generalizing c c' with
  | nil => exact ⟨rfl, .refl c c'⟩
  | cons p ps ih =>
    have hbare := bare_denoteIn h m n s p.ty
    have hscopes : Copies c c' (c.denoteIn m s p.ty).2 (c'.denoteIn n s p.ty).2 :=
      .of_scopes (scopes_denoteIn m s p.ty c) (scopes_denoteIn n s p.ty c')
    rw [resolveParams, resolveParams]
    generalize c.denoteIn m s p.ty = r, c'.denoteIn n s p.ty = r' at hbare hscopes ⊢
    obtain ⟨_ | t, d⟩ := r <;> obtain ⟨_ | u, d'⟩ := r'
    · exact ⟨rfl, hscopes.trans (ih (hscopes.sameReadings h)).2⟩
    · cases hbare
    · cases hbare
    · have htu : u.bare = t.bare := Option.some.inj hbare
      have hset := copies_setDeclaredType (hscopes.sameReadings h).untyped body p.name htu
      have hfirst := hscopes.trans hset
      obtain ⟨hlist, hrest⟩ := ih (hfirst.sameReadings h)
      refine ⟨?_, hfirst.trans hrest⟩
      have hcons : ∀ (t : Ty) (ts? : Option (List Ty)),
          (ts?.map (t :: ·)).map Ty.bareList = (ts?.map Ty.bareList).map (t.bare :: ·) := by
        intro t ts?
        cases ts? <;> rfl
      simp only [hcons, hlist, htu]

/-- A result type means the same but for definitions. -/
private theorem bare_resolveResult (m n : Module) (s : ScopeId) (ret : Option TypeExpr) :
    (c'.resolveResult n s ret).1.map Ty.bareOption =
      (c.resolveResult m s ret).1.map Ty.bareOption := by
  cases ret with
  | none => rfl
  | some ty =>
    have hbare := bare_denoteIn h m n s ty
    have hsome : ∀ t? : Option Ty, (t?.map some).map Ty.bareOption = (t?.map Ty.bare).map some := by
      intro t?
      cases t? <;> rfl
    simp only [resolveResult, hsome, hbare]

private theorem copies_resolveSignature (m n : Module) (s body : ScopeId) (params : List Param)
    (ret : Option TypeExpr) :
    (c'.resolveSignature n s body params ret).1.map Ty.bare =
        (c.resolveSignature m s body params ret).1.map Ty.bare ∧
      Copies c c' (c.resolveSignature m s body params ret).2
        (c'.resolveSignature n s body params ret).2 := by
  obtain ⟨hparams, hcopies⟩ := copies_resolveParams h m n s body params
  have hret := bare_resolveResult (hcopies.sameReadings h) m n s ret
  have hscopes := hcopies.trans (.of_scopes
    (scopes_resolveResult m s ret (resolveParams m s body params c).2)
    (scopes_resolveResult n s ret (resolveParams n s body params c').2))
  simp only [resolveSignature]
  generalize resolveParams m s body params c = r, resolveParams n s body params c' = r'
    at hparams hret hscopes ⊢
  generalize r.2.resolveResult m s ret = q, r'.2.resolveResult n s ret = q' at hret hscopes ⊢
  obtain ⟨_ | ts, d⟩ := r <;> obtain ⟨_ | us, d'⟩ := r'
  · exact ⟨rfl, hscopes⟩
  · cases hparams
  · cases hparams
  · obtain ⟨_ | t?, e⟩ := q <;> obtain ⟨_ | u?, e'⟩ := q'
    · exact ⟨rfl, hscopes⟩
    · cases hret
    · cases hret
    · have htype := congrArg₂ Ty.function (Option.some.inj hparams) (Option.some.inj hret)
      exact ⟨congrArg some htype, hscopes⟩

private theorem copies_setSignature (s : ScopeId) (name : Ident) {t? u? : Option Ty}
    (htu : u?.map Ty.bare = t?.map Ty.bare) :
    Copies c c' (c.setSignature s name t?) (c'.setSignature s name u?) := by
  cases t? <;> cases u?
  · exact .refl c c'
  · cases htu
  · cases htu
  · exact copies_setType h.untyped s name.name (Option.some.inj htu)

private theorem copies_resolveHead (m n : Module) (s : ScopeId) (name : Ident)
    (params : List Param) (ret : Option TypeExpr) :
    Copies c c' (c.resolveHead m s name params ret).2 (c'.resolveHead n s name params ret).2 := by
  simp only [resolveHead, ScopeForest.declaredMembers?_of_untyped h.untyped s name]
  cases c.scopes.declaredMembers? s name with
  | none => exact .refl c c'
  | some body =>
    obtain ⟨hty, hsignature⟩ := copies_resolveSignature h m n s body params ret
    exact hsignature.trans (copies_setSignature (hsignature.sameReadings h) s name hty)

private theorem copies_resolveMethodHead (m n : Module) (s : ScopeId) (receiver : Param)
    (name : Ident) (params : List Param) (ret : Option TypeExpr) :
    Copies c c' (c.resolveMethodHead m s receiver name params ret).2
      (c'.resolveMethodHead n s receiver name params ret).2 := by
  unfold resolveMethodHead
  split
  · next typeName _ =>
    have htype : c'.scopes.typeMembers? s typeName.name =
        c.scopes.typeMembers? s typeName.name := by
      rw [← ScopeForest.typeMembers?_untyped, h.untyped, ScopeForest.typeMembers?_untyped]
    rw [htype]
    cases c.scopes.typeMembers? s typeName.name with
    | none => exact .refl c c'
    | some members =>
      simp only [ScopeForest.declaredMembers?_of_untyped h.untyped members name]
      cases c.scopes.declaredMembers? members name with
      | none => exact .refl c c'
      | some body =>
        have hreceiver := copies_denoteIn_then h m n s body receiver.name receiver.ty
        obtain ⟨hty, hsignature⟩ :=
          copies_resolveSignature (hreceiver.sameReadings h) m n s body params ret
        have hboth := hreceiver.trans hsignature
        exact hboth.trans (copies_setSignature (hboth.sameReadings h) members name hty)
  · exact .refl c c'

end

/-! ### Visits -/

/-- What resolution makes of a context on a visit. -/
def visit (m : Module) (c : Context) : Visit → Context
  | .importing _ _ => c
  | .stop s x => (resolver m).stop s x c
  | .head s h _ => ((resolver m).head s h c).2

/-- On a visit the same types are given but for definitions. -/
theorem copies_visit (h : c.scopes.SameReadings c'.scopes) (m n : Module) {v : Visit}
    (hv : v.Furnished c.scopes) : Copies c c' (visit m c v) (visit n c' v) := by
  cases v with
  | importing s i => exact .refl c c'
  | stop s x =>
    cases x with
    | typeDecl d => exact copies_resolveTypeDecl h m n s d hv
    | declaring isConst targets values span =>
      have htargets := copies_resolveTargets h m n s targets
      simp only [visit, Visitor.stop, resolver]
      split
      · exact htargets
      · exact htargets.trans (.of_scopes (scopes_resolveArity ..) (scopes_resolveArity ..))
    | declared targets values => exact .refl c c'
    | assigning targets values span =>
      exact .of_scopes (scopes_resolveArity ..) (scopes_resolveArity ..)
    | name name => exact .of_scopes ((local_resolver m).name ..) ((local_resolver n).name ..)
    | qualified module name =>
      exact .of_scopes ((local_resolver m).qualified ..) ((local_resolver n).qualified ..)
  | head s hd inner? =>
    obtain ⟨_ | receiver, name, params, ret⟩ := hd
    · exact copies_resolveHead h m n s name params ret
    · exact copies_resolveMethodHead h m n s receiver name params ret

/-- A visit gives types to no names but its own. -/
theorem marks_visit (m : Module) {v : Visit} (hv : v.Furnished c.scopes) :
    Marks v.names c (visit m c v) := by
  cases v with
  | importing s i => exact .refl c
  | stop s x => exact marks_stop hv m
  | head s hd inner? => exact marks_head m s hd c

/-- Where a type is declared, no name of a type is read otherwise, but for the one that is given. -/
private theorem reading_resolveTypeDecl {d : TypeDecl}
    (hd : (Visit.stop s (.typeDecl d)).Furnished c.scopes) {u : ScopeId} {kind : SymbolKind}
    {x : Ident} {t? : Option ScopeId} (hx : c.scopes.Shows u kind x t?) (hkind : kind ≠ .method)
    (hfresh : x ∉ d.fieldNames) (m : Module) :
    (c.resolveTypeDecl m s d).scopes.reading u x.name = c.scopes.reading u x.name ∨
      u = s ∧ x.name = d.name.name ∧
        (c.resolveTypeDecl m s d).scopes.reading u x.name = .named x.name none := by
  unfold resolveTypeDecl
  split
  · exact Or.inl rfl
  · next members hmembers =>
    split
    · next t ht =>
      have hfields := marks_resolveFields (hd members hmembers) t
      by_cases hsame : u = s ∧ x.name = d.name.name
      · obtain ⟨rfl, hname⟩ := hsame
        have hgiven := ScopeForest.typeOf?_setType_self (F := (c.resolveFields members t).scopes) t
          (ScopeForest.isSome_symbol?_of_binds (hx.of_untyped hfields.untyped).binds)
        obtain ⟨v, rfl⟩ : ∃ v, t = .named d.name.name v := by
          rw [Ty.ofTypeDecl] at ht
          cases hdenote : Ty.denote c.scopes u d.name.name d.ty with
          | error e => simp [hdenote, Except.map] at ht
          | ok v =>
            rw [hdenote] at ht
            exact ⟨some v, (Except.ok.inj ht).symm⟩
        refine Or.inr ⟨rfl, hname, ?_⟩
        rw [hname] at hgiven ⊢
        exact congrArg (fun t? => (Option.map Ty.bare t?).getD (.named d.name.name none)) hgiven
      · refine Or.inl ?_
        have hkept := (ScopeForest.typeOf?_setType_of_ne
          (F := (c.resolveFields members t).scopes) t hsame).trans (hfields.types hx hkind hfresh)
        exact congrArg (fun t? => (Option.map Ty.bare t?).getD (.named x.name none)) hkept
    · exact Or.inl rfl

/-! ### Runs of resolution -/

/--
Visits to modules, each of which is known by its root, that may be made in any order: they come to
different names, and the types that they come to have not been defined.
-/
structure Orderly (F : ScopeForest) (V : ScopeId → Visit → Prop) : Prop where
  /-- No two visits come to the same name. -/
  unique : ∀ {r r' v w x}, V r v → V r' w → x ∈ v.names → x ∈ w.names → v = w
  /-- The members of types are their fields and methods. -/
  furnished : ∀ {r v}, V r v → v.Furnished F
  /-- Whoever comes to the name of a type in its tree declares it. -/
  types : ∀ {r v s kind x t?}, V r v → x ∈ v.names → r ∈ F.chain s → F.Shows s kind x t? →
    kind.isType = true → ∃ s' d, v = .stop s' (.typeDecl d) ∧ x ∉ d.fieldNames
  /-- It has no type where it is declared. -/
  undefined : ∀ {r s d}, V r (.stop s (.typeDecl d)) → F.typeOf? s d.name.name = none

/-- What the log of a run of resolution from some tables says of the types behind it. -/
structure Copied (F : ScopeForest) (W : List Entry) (c : Context) : Prop where
  /-- The names of types have the same readings. -/
  readings : F.SameReadings c.scopes
  /-- A name that no visit has come to has the same type. -/
  kept : ∀ {s kind x t?}, F.Shows s kind x t? → kind ≠ .method →
    (∀ m v, .visited m v ∈ W → x ∉ v.names) →
      c.scopes.bareType? s x.name = F.bareType? s x.name
  /-- A name has the type that the visit would have given to it right at the beginning. -/
  given : ∀ {s kind x t?}, F.Shows s kind x t? → kind ≠ .method → ∀ {m v}, .visited m v ∈ W →
    x ∈ v.names → ∀ n,
      c.scopes.bareType? s x.name = (visit n (ofScopes F) v).scopes.bareType? s x.name

variable {F : ScopeForest} {V : ScopeId → Visit → Prop} {W : List Entry}

/-- Behind a visit that stays in its tree the names of types are read as before. -/
private theorem reading_visit (hV : Orderly F V) (hc : F.SameReadings c.scopes) {v : Visit}
    (hv : V m.root v) (houtside : ∀ t, m.root ∉ c.scopes.chain t →
      (visit m c v).scopes.symbols t = c.scopes.symbols t) :
    F.SameReadings (visit m c v).scopes := by
  have hfurnished := (hV.furnished hv).of_untyped hc.untyped
  have hmarks := marks_visit m hfurnished
  refine ⟨hmarks.untyped.trans hc.untyped, fun {s kind x t?} hx htype => ?_⟩
  have hkind : kind ≠ .method := by
    rintro rfl
    cases htype
  have hx' := hx.of_untyped hc.untyped
  have hsame : ∀ {t? u? : Option Ty}, t? = u? → (t?.map Ty.bare).getD (.named x.name none) =
      (u?.map Ty.bare).getD (.named x.name none) := fun h => by rw [h]
  by_cases hmem : x ∈ v.names
  · by_cases htree : m.root ∈ F.chain s
    · obtain ⟨s', d, rfl, hfresh⟩ := hV.types hv hmem htree hx htype
      rcases reading_resolveTypeDecl hfurnished hx' hkind hfresh m with hkept | ⟨rfl, hname, hnow⟩
      · exact hkept.trans (hc.readings hx htype)
      · refine hnow.trans ?_
        rw [ScopeForest.reading, ScopeForest.bareType?, hname, hV.undefined hv]
        rfl
    · rw [← ScopeForest.chain_of_untyped hc.untyped] at htree
      exact (hsame (ScopeForest.typeOf?_congr (houtside s htree) x.name)).trans
        (hc.readings hx htype)
  · exact (hsame (hmarks.types hx' hkind hmem)).trans (hc.readings hx htype)

namespace Copied

/-- One more visit is noted. -/
private theorem visit (h : Copied F W c) (hV : Orderly F V) {v : Visit}
    (hW : ∀ m' v', .visited m' v' ∈ W ++ [.visited m v] → V m'.root v')
    (houtside : ∀ t, m.root ∉ c.scopes.chain t →
      (Context.visit m c v).scopes.symbols t = c.scopes.symbols t) :
    Copied F (W ++ [.visited m v]) (Context.visit m c v) := by
  have hv : V m.root v := hW m v (List.mem_append_right _ (List.mem_singleton_self _))
  have hfurnished := hV.furnished hv
  have hmarks := marks_visit m (hfurnished.of_untyped h.readings.untyped)
  have hkept : ∀ {s kind x t?}, F.Shows s kind x t? → kind ≠ .method → x ∉ v.names →
      (Context.visit m c v).scopes.bareType? s x.name = c.scopes.bareType? s x.name :=
    fun hx hkind hmem => congrArg (Option.map Ty.bare)
      (hmarks.types (hx.of_untyped h.readings.untyped) hkind hmem)
  refine ⟨reading_visit hV h.readings hv houtside, fun hx hkind hnone => ?_,
    fun {s kind x t?} hx hkind {m' w} hw hmem n => ?_⟩
  · rw [hkept hx hkind (hnone m v (List.mem_append_right _ (List.mem_singleton_self _)))]
    exact h.kept hx hkind fun m' w hw => hnone m' w (List.mem_append_left _ hw)
  · by_cases hnow : x ∈ v.names
    · -- The name is one of the visit at hand, which is made from the first tables for comparison.
      obtain rfl := hV.unique (hW m' w hw) hv hmem hnow
      have hcopies := copies_visit (c := ofScopes F) h.readings n m hfurnished
      rcases hcopies.types hx hkind with hsame | ⟨hfirst, hlast⟩
      · exact hsame
      · rw [hfirst, hlast]
        by_cases hbefore : ∃ m'' u, .visited m'' u ∈ W ∧ x ∈ u.names
        · obtain ⟨m'', u, hu, hxu⟩ := hbefore
          obtain rfl := hV.unique (hW m'' u (List.mem_append_left _ hu)) hv hxu hnow
          exact (h.given hx hkind hu hxu n).trans hfirst
        · exact h.kept hx hkind fun m'' u hu hxu => hbefore ⟨m'', u, hu, hxu⟩
    · rw [hkept hx hkind hnow]
      rcases List.mem_append.mp hw with hw | hw
      · exact h.given hx hkind hw hmem n
      · obtain ⟨-, rfl⟩ := Entry.visited.inj (List.mem_singleton.mp hw)
        exact absurd hmem hnow

end Copied

section

variable {ctx : Context} {key : String} (hl : ctx.Linked) (hle : Phase.collected ≤ ctx.phase key)
include hl hle

end

end Context

end Sable
