import Sable.Context.Resolution
import Sable.Context.Typing
import Sable.Proofs.Module.Sites

/-!
# Where reports point to

A pass reports what it finds at a place of a module in the file of that module, at one of the sites
that the place shows. So a report never points into another file than the one that it names.
-/

namespace Sable

/-! ### Errors in written types -/

/-- A name among some sites is what an error points to. -/
def TypeError.Names (e : TypeError) (xs : List Site) : Prop :=
  ∃ name, .name name ∈ xs ∧ e.span = name.span

section

variable {F : ScopeForest} {s : ScopeId} {e : TypeError} {xs ys : List Site}

theorem TypeError.Names.mono (h : e.Names xs) (hsub : xs ⊆ ys) : e.Names ys :=
  h.imp fun _ hname => hname.imp_left (hsub ·)

private theorem Ty.names_of_ofSymbol {x : Symbol} {name : Ident}
    (h : Ty.ofSymbol x name = .error e) : e.Names [.name name] := by
  refine ⟨name, List.mem_singleton_self _, ?_⟩
  unfold Ty.ofSymbol at h
  split at h
  · cases h
  · exact Except.error.inj h ▸ rfl

private theorem Ty.names_of_ofName {name : Ident} (h : Ty.ofName F s name = .error e) :
    e.Names [.name name] := by
  unfold Ty.ofName at h
  split at h
  · exact Ty.names_of_ofSymbol h
  · exact ⟨name, List.mem_singleton_self _, Except.error.inj h ▸ rfl⟩

private theorem Ty.names_of_ofQualified {module name : Ident}
    (h : Ty.ofQualified F s module name = .error e) : e.Names [.name module, .name name] := by
  unfold Ty.ofQualified at h
  split at h
  · exact ⟨module, List.mem_cons_self .., Except.error.inj h ▸ rfl⟩
  · split at h
    · exact (Ty.names_of_ofSymbol h).mono (List.subset_cons_self ..)
    · exact ⟨name, by simp, Except.error.inj h ▸ rfl⟩

private theorem Except.error_of_map {ε α β : Type} {f : α → β} {r : Except ε α} {e : ε}
    (h : r.map f = .error e) : r = .error e := by
  cases r with
  | error e' => exact congrArg Except.error (Except.error.inj h)
  | ok a => cases h

mutual

/-- A written type that means nothing is reported at one of the names in it. -/
theorem Ty.names_of_denote : ∀ (ty : TypeExpr) {structName : String},
    Ty.denote F s structName ty = .error e → e.Names ty.sites
  | .primitive _ _, _, h => nomatch h
  | .array elem _, _, h =>
    (Ty.names_of_denote elem (Except.error_of_map h)).mono (List.subset_cons_self ..)
  | .struct fields _, _, h =>
    (Ty.names_of_denoteFields fields (Except.error_of_map h)).mono (List.subset_cons_self ..)
  | .function params ret span, _, h => by
    rw [Ty.denote] at h
    have hnames : e.Names (TypeExpr.sitesAll params ++ ret.toList.flatMap TypeExpr.sites) := by
      split at h
      · next he =>
        rw [Except.error.inj h] at he
        exact (Ty.names_of_denoteList params he).mono (List.subset_append_left ..)
      · exact (Ty.names_of_denoteOption ret (Except.error_of_map h)).mono
          (List.subset_append_right ..)
    refine hnames.mono fun x hx => ?_
    cases ret <;> simpa [TypeExpr.sites] using Or.inr hx
  | .named name, _, h => Ty.names_of_ofName h
  | .qualified _ _ _, _, h => (Ty.names_of_ofQualified h).mono (List.subset_cons_self ..)

private theorem Ty.names_of_denoteFields : ∀ fields : List FieldDecl,
    Ty.denoteFields F s fields = .error e → e.Names (FieldDecl.sitesAll fields)
  | [], h => nomatch h
  | .mk name ty span :: fields, h => by
    rw [Ty.denoteFields] at h
    split at h
    · next he =>
      rw [Except.error.inj h] at he
      refine (Ty.names_of_denote ty he).mono fun x hx => ?_
      simp [FieldDecl.sitesAll, FieldDecl.sites, hx]
    · refine (Ty.names_of_denoteFields fields (Except.error_of_map h)).mono ?_
      exact List.subset_append_right ..

private theorem Ty.names_of_denoteList : ∀ tys : List TypeExpr,
    Ty.denoteList F s tys = .error e → e.Names (TypeExpr.sitesAll tys)
  | [], h => nomatch h
  | ty :: tys, h => by
    rw [Ty.denoteList] at h
    split at h
    · next he =>
      rw [Except.error.inj h] at he
      exact (Ty.names_of_denote ty he).mono (List.subset_append_left ..)
    · refine (Ty.names_of_denoteList tys (Except.error_of_map h)).mono ?_
      exact List.subset_append_right ..

private theorem Ty.names_of_denoteOption : ∀ ty? : Option TypeExpr,
    Ty.denoteOption F s ty? = .error e → e.Names (ty?.toList.flatMap TypeExpr.sites)
  | none, h => nomatch h
  | some ty, h => by simpa using Ty.names_of_denote ty (Except.error_of_map h)

end

end

namespace Context

/-- All that is reported between two contexts is in the file of a module, each at one of some sites. -/
structure Points (m : Module) (xs : List Site) (ctx d : Context) : Prop where
  /-- Such reports are added behind those that were there. -/
  added : ∃ es, d.diagnostics.items = ctx.diagnostics.items ++ es ∧
    ∀ x ∈ es, x.file = m.file.text ∧ x.span ∈ xs.map Site.span

variable {m : Module} {xs ys : List Site} {ctx d e : Context} {s : ScopeId}

/-- A report was there before, or it is in the file of the module. -/
theorem Points.reports (h : ctx.Points m xs d) : ∀ x ∈ d.diagnostics.items,
    x ∈ ctx.diagnostics.items ∨ (x.file = m.file.text ∧ x.span ∈ xs.map Site.span) := by
  obtain ⟨es, hes, hnew⟩ := h.added
  intro x hx
  rw [hes] at hx
  exact (List.mem_append.mp hx).imp_right (hnew x)

theorem points_of_eq (h : d.diagnostics = ctx.diagnostics) : ctx.Points m xs d :=
  ⟨[], by rw [h, List.append_nil], by simp⟩

theorem Points.refl (m : Module) (xs : List Site) (ctx : Context) : ctx.Points m xs ctx :=
  points_of_eq rfl

theorem Points.trans (h : ctx.Points m xs d) (h' : d.Points m xs e) : ctx.Points m xs e := by
  obtain ⟨es, hes, hnew⟩ := h.added
  obtain ⟨es', hes', hnew'⟩ := h'.added
  exact ⟨es ++ es', by rw [hes', hes, List.append_assoc],
    List.forall_mem_append.mpr ⟨hnew, hnew'⟩⟩

theorem Points.mono (h : ctx.Points m xs d) (hsub : xs ⊆ ys) : ctx.Points m ys d := by
  obtain ⟨es, hes, hnew⟩ := h.added
  exact ⟨es, hes, fun x hx => (hnew x hx).imp_right (List.map_subset _ hsub ·)⟩

theorem points_reportIn {pass : Pass} {span : Span} {message : String}
    (h : span ∈ xs.map Site.span) :
    ctx.Points m xs (ctx.reportIn m pass span message) :=
  ⟨[⟨m.file.text, span, message, .semanticError, pass, none⟩], rfl,
    List.forall_mem_singleton.mpr ⟨rfl, h⟩⟩

/-- A name is reported where it stands. -/
theorem points_name {pass : Pass} {name : Ident} {message : String} (h : .name name ∈ xs) :
    ctx.Points m xs (ctx.reportIn m pass name.span message) :=
  points_reportIn (List.mem_map_of_mem (f := Site.span) h)

/-- A node is reported where it stands. -/
theorem points_node {pass : Pass} {span : Span} {message : String} (h : .node span ∈ xs) :
    ctx.Points m xs (ctx.reportIn m pass span message) :=
  points_reportIn (List.mem_map_of_mem (f := Site.span) h)

/-- A type is reported at a name in it. -/
theorem points_type {pass : Pass} {e : TypeError} {message : String} (h : e.Names xs) :
    ctx.Points m xs (ctx.reportIn m pass e.span message) := by
  obtain ⟨name, hname, he⟩ := h
  exact he ▸ points_name hname

theorem Points.foldl {α : Type} {f : Context → α → Context} {as : List α}
    (h : ∀ a ∈ as, ∀ c : Context, c.Points m xs (f c a)) (ctx : Context) :
    ctx.Points m xs (as.foldl f ctx) := by
  induction as generalizing ctx with
  | nil => exact .refl m xs ctx
  | cons a as ih =>
    rw [List.forall_mem_cons] at h
    exact (h.1 ctx).trans (ih h.2 _)

theorem points_setType (s : ScopeId) (name : String) (t : Ty) :
    ctx.Points m xs (ctx.setType s name t) := points_of_eq rfl

theorem points_setDeclaredType (s : ScopeId) (name : Ident) (t : Ty) :
    ctx.Points m xs (ctx.setDeclaredType s name t) := by
  unfold setDeclaredType
  split
  · exact points_of_eq rfl
  · exact .refl m xs ctx

/-! ### Resolution -/

theorem points_denoteIn {ty : TypeExpr} (h : ty.sites ⊆ xs) :
    ctx.Points m xs (ctx.denoteIn m s ty).2 := by
  unfold denoteIn
  split
  · exact .refl m xs ctx
  · next e he => exact points_type ((Ty.names_of_denote ty he).mono h)

/-- A written type that means something is given to a name. -/
private theorem points_denoteIn_then {ty : TypeExpr} (h : ty.sites ⊆ xs) {f : Ty → Context → Context}
    (hf : ∀ t (c : Context), c.Points m xs (f t c)) :
    ctx.Points m xs (match ctx.denoteIn m s ty with
      | (some t, ctx) => f t ctx
      | (none, ctx) => ctx) := by
  have hdenote : ctx.Points m xs (ctx.denoteIn m s ty).2 := points_denoteIn h
  generalize ctx.denoteIn m s ty = r at hdenote ⊢
  obtain ⟨_ | t, d⟩ := r
  · exact hdenote
  · exact hdenote.trans (hf t d)

theorem points_resolveTargets (targets : List VarBinder) :
    ctx.Points m (targets.flatMap VarBinder.sites) (ctx.resolveTargets m s targets) := by
  refine Points.foldl (fun target htarget c => ?_) ctx
  cases hty : target.ty? with
  | none => exact .refl m _ c
  | some ty =>
    have hsub : ty.sites ⊆ targets.flatMap VarBinder.sites := fun x hx =>
      List.mem_flatMap.mpr ⟨target, htarget, by simp [VarBinder.sites, hty, hx]⟩
    exact points_denoteIn_then hsub fun t c => points_setDeclaredType s target.name t

theorem points_resolveFields (members : ScopeId) (t : Ty) :
    ctx.Points m xs (ctx.resolveFields members t) := by
  unfold resolveFields
  split
  · exact Points.foldl (fun _ _ _ => points_setType ..) ctx
  · exact .refl m xs ctx

theorem points_resolveTypeDecl (d : TypeDecl) :
    ctx.Points m d.sites (ctx.resolveTypeDecl m s d) := by
  unfold resolveTypeDecl
  split
  · exact .refl m _ ctx
  · split
    · exact (points_resolveFields ..).trans (points_setType ..)
    · next e he =>
      refine points_type ((Ty.names_of_denote d.ty (Except.error_of_map he)).mono fun x hx => ?_)
      simp [TypeDecl.sites, hx]

theorem points_resolveParams {params : List Param} (h : params.flatMap Param.sites ⊆ xs)
    (body : ScopeId) : ctx.Points m xs (resolveParams m s body params ctx).2 := by
  induction params generalizing ctx with
  | nil => exact .refl m xs ctx
  | cons p ps ih =>
    rw [List.flatMap_cons, List.append_subset] at h
    have hty : p.ty.sites ⊆ xs := fun x hx => h.1 (by simp [Param.sites, hx])
    have hdenote : ctx.Points m xs (ctx.denoteIn m s p.ty).2 := points_denoteIn hty
    rw [resolveParams]
    generalize ctx.denoteIn m s p.ty = r at hdenote ⊢
    obtain ⟨_ | t, d⟩ := r
    · exact hdenote.trans (ih h.2)
    · exact hdenote.trans ((points_setDeclaredType body p.name t).trans (ih h.2))

theorem points_resolveSignature {params : List Param} {ret : Option TypeExpr}
    (hparams : params.flatMap Param.sites ⊆ xs) (hret : ret.toList.flatMap TypeExpr.sites ⊆ xs)
    (body : ScopeId) : ctx.Points m xs (ctx.resolveSignature m s body params ret).2 := by
  have hresult : ∀ d : Context, d.Points m xs (d.resolveResult m s ret).2 := by
    intro d
    cases ret with
    | none => exact .refl m xs d
    | some ty => exact points_denoteIn (by simpa using hret)
  have hps : ctx.Points m xs (resolveParams m s body params ctx).2 :=
    points_resolveParams hparams body
  have h := hps.trans (hresult _)
  simp only [resolveSignature]
  split <;> exact h

theorem points_setSignature (name : Ident) (t? : Option Ty) :
    ctx.Points m xs (ctx.setSignature s name t?) := by
  cases t? with
  | none => exact .refl m xs ctx
  | some t => exact points_setType ..

/-- The head of a function or a method is resolved with reports at what it shows. -/
theorem points_head_resolver (hd : Head) :
    ctx.Points m hd.sites ((resolver m).head s hd ctx).2 := by
  have hparams : hd.params.flatMap Param.sites ⊆ hd.sites := fun x hx => by simp [Head.sites, hx]
  have hret : hd.ret.toList.flatMap TypeExpr.sites ⊆ hd.sites := fun x hx => by
    simp [Head.sites, hx]
  have hsignature : ∀ (t body : ScopeId) (c : Context), c.Points m hd.sites
      ((c.resolveSignature m s body hd.params hd.ret).2.setSignature t hd.name
        (c.resolveSignature m s body hd.params hd.ret).1) := fun t body c =>
    (points_resolveSignature hparams hret body).trans (points_setSignature ..)
  cases hr : hd.receiver? with
  | none =>
    simp only [Visitor.head, hr, resolver, resolveHead]
    split
    · exact .refl m _ ctx
    · exact hsignature s _ ctx
  | some receiver =>
    simp only [Visitor.head, hr, resolver, resolveMethodHead]
    split
    · split
      · exact .refl m _ ctx
      · split
        · exact .refl m _ ctx
        · next body _ =>
          have hsub : receiver.ty.sites ⊆ hd.sites := fun x hx => by
            simp [Head.sites, hr, Param.sites, hx]
          have hreceiver := @points_denoteIn_then m hd.sites ctx s _ hsub _
            fun t c => points_setDeclaredType body receiver.name t
          exact hreceiver.trans (hsignature _ body _)
    · exact .refl m _ ctx

/-- What stays in its scope is resolved with reports at what it shows. -/
theorem points_stop_resolver (x : Stop) : ctx.Points m x.sites ((resolver m).stop s x ctx) := by
  have harity : ∀ {xs : List Site} {span : Span} {n k : Nat} {c : Context}, .node span ∈ xs →
      c.Points m xs (c.resolveArity m span n k) := by
    intro xs span n k c h
    unfold resolveArity
    split
    · exact .refl m xs c
    · exact points_node h
  cases x with
  | typeDecl d => exact points_resolveTypeDecl d
  | declaring isConst targets values span =>
    have htargets : ctx.Points m (Stop.declaring isConst targets values span).sites
        (ctx.resolveTargets m s targets) := (points_resolveTargets targets).mono fun x hx => by
      simp only [Stop.sites, List.mem_cons, List.mem_append, hx, true_or, or_true]
    simp only [Visitor.stop, resolver]
    split
    · exact htargets
    · exact htargets.trans (harity (List.mem_cons_self ..))
  | declared targets values => exact .refl m _ ctx
  | assigning targets values span => exact harity (List.mem_cons_self ..)
  | name name =>
    simp only [Visitor.stop, resolver, resolveName]
    split
    · exact .refl m _ ctx
    · exact points_name (List.mem_singleton_self _)
  | qualified module name =>
    simp only [Visitor.stop, resolver, resolveQualified]
    split
    · exact points_name (List.mem_cons_self ..)
    · split
      · exact .refl m _ ctx
      · exact points_name (List.mem_cons_of_mem _ (List.mem_singleton_self _))

/-! ### Checking -/

theorem points_checkTarget {value : Expr} (h : value.sites ⊆ xs) (target : VarBinder) :
    ctx.Points m xs (ctx.checkTarget m s target value) := by
  unfold checkTarget
  split
  · split
    · exact .refl m xs ctx
    · split
      · split
        · exact points_setType ..
        · exact .refl m xs ctx
      · split
        · exact .refl m xs ctx
        · exact points_reportIn (List.map_subset _ h value.span_mem_spans)
  · exact .refl m xs ctx

/-- The head of a function or a method is not checked. -/
theorem points_head_checker (hd : Head) :
    ctx.Points m hd.sites ((checker m).head s hd ctx).2 := by
  obtain ⟨_ | receiver, name, params, ret⟩ := hd <;> exact .refl m _ ctx

/-- What stays in its scope is checked with reports at what it shows. -/
theorem points_stop_checker (x : Stop) : ctx.Points m x.sites ((checker m).stop s x ctx) := by
  cases x with
  | declared targets values =>
    refine Points.foldl (fun pair hpair c => ?_) ctx
    obtain ⟨target, value⟩ := pair
    have hvalue := (List.of_mem_zip hpair).2
    have hsub : value.sites ⊆ (Stop.declared targets values).sites := by
      intro x hx
      rw [Stop.sites, Expr.sitesAll_eq_flatMap]
      exact List.mem_append_right _ (List.mem_flatMap.mpr ⟨value, hvalue, hx⟩)
    exact points_checkTarget hsub target
  | _ => exact .refl m _ ctx

end Context

end Sable
