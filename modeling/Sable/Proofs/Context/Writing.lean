import Sable.Proofs.Context.Attaching
import Sable.Proofs.Context.Framing
import Sable.Proofs.Module.Bound
import Sable.Proofs.Ty.Fields
import Sable.Proofs.Ty.Sense

/-!
# What resolution writes twice

What a signature says of a parameter is written into the type of the function and into that of the
parameter, and what a definition says of a field into the type of the name and into that of the
field. A visit writes both, and gives no other names types than those that are declared at its
place, but for methods: a method may have the name of a field behind an alias.
-/

namespace Sable

/-! ### Struct types -/

namespace Ty

variable {F : ScopeForest} {s : ScopeId}

private theorem map_fst_of_denoteFields : ∀ {fields : List FieldDecl} {ts : List (String × Ty)},
    denoteFields F s fields = .ok ts → ts.map Prod.fst = fields.map fun f => f.name.name
  | [], ts, h => by
    obtain rfl := Except.ok.inj h
    rfl
  | .mk name ty span :: fields, ts, h => by
    rw [denoteFields] at h
    cases hty : denote F s anonymousStruct ty with
    | error e => simp [hty] at h
    | ok u =>
      cases hrest : denoteFields F s fields with
      | error e => simp [hty, hrest, Except.map] at h
      | ok us =>
        simp only [hty, hrest, Except.map, Except.ok.injEq] at h
        subst h
        exact congrArg (name.name :: ·) (map_fst_of_denoteFields hrest)

/-- A declared struct type has the fields that are written, each of them once. -/
theorem exists_struct_of_ofTypeDecl {name : String} {fields : List FieldDecl} {span : Span} {t : Ty}
    (h : ofTypeDecl F s name (.struct fields span) = .ok t) :
    ∃ table, t = .named name (some (.struct name table)) ∧ (table.map Prod.fst).Nodup ∧
      ∀ field, field ∈ table.map Prod.fst ↔ field ∈ fields.map fun f => f.name.name := by
  simp only [ofTypeDecl, denote] at h
  cases hfields : denoteFields F s fields with
  | error e => simp [hfields, Except.map] at h
  | ok ts =>
    simp only [hfields, Except.map, Except.ok.injEq] at h
    obtain ⟨table, hstruct, htable⟩ := exists_structOf name ts
    refine ⟨table, by rw [← h, hstruct], ?_, fun field => ?_⟩
    · rw [List.Nodup, List.pairwise_map]
      exact htable.ascending.imp ne_of_lt
    · rw [htable.mem_names_iff, map_fst_of_denoteFields hfields]

end Ty

/-! ### Agreement -/

theorem Head.mem_argumentNames {h : Head} {p : Param} (hp : p ∈ h.params) :
    p.name ∈ h.argumentNames := List.mem_map_of_mem (List.mem_append_right _ hp)

/-- The types in the head of a function mean something where it stands. -/
structure Head.Derives (F : ScopeForest) (s : ScopeId) (h : Head) : Prop where
  /-- The type of each parameter means something. -/
  params : ∀ p ∈ h.params, (Ty.ofTypeExpr F s p.ty).isOk = true
  /-- The type of the result means something, if one is written. -/
  ret : ∀ ty ∈ h.ret, (Ty.ofTypeExpr F s ty).isOk = true

/-- The type of a function says which types its parameters have in its body. -/
def Head.Agrees (F : ScopeForest) (s : ScopeId) (h : Head) (t : ScopeId) : Prop :=
  ∃ ps r, F.typeOf? s h.name.name = some (.function ps r) ∧
    (h.params.map fun p => F.typeOf? t p.name.name) = ps.map some

/-- The type of a name says which fields there are among its members, and their types. -/
def TypeDecl.Agrees (F : ScopeForest) (s : ScopeId) (d : TypeDecl) (t : ScopeId) : Prop :=
  ∃ fs, F.typeOf? s d.name.name = some (.named d.name.name (some (.struct d.name.name fs))) ∧
    (∀ name, name ∈ fs.map Prod.fst ↔ name ∈ d.fieldNames.map Ident.name) ∧
      ∀ f ∈ fs, F.typeOf? t f.1 = some f.2

/-- The members of a type that is declared at the place of a visit are its fields and methods. -/
def Visit.Furnished (F : ScopeForest) : Visit → Prop
  | stop s (.typeDecl d) => ∀ t, F.declaredMembers? s d.name = some t →
      ∀ {kind x t?}, F.Shows t kind x t? → kind = .method ∨ x ∈ d.fieldNames
  | _ => True

theorem Visit.Bound.furnished {F : ScopeForest} {v : Visit} (h : v.Bound F) : v.Furnished F := by
  cases v with
  | stop s x =>
    cases x with
    | typeDecl d =>
      obtain ⟨t, hbound⟩ := h
      intro u hu kind x t? hx
      obtain rfl := Option.some.inj (hbound.name.declaredMembers?.symm.trans hu)
      exact (hbound.only hx).imp_right And.right
    | _ => trivial
  | _ => trivial

/-- What is written twice at the place of a visit is the same, if it means anything. -/
def Visit.Agrees (F : ScopeForest) : Visit → Prop
  | head s h inner? => ∀ t, inner? = some t → h.receiver? = none → h.Derives F s → h.Agrees F s t
  | stop s (.typeDecl d) => ∀ t, F.declaredMembers? s d.name = some t →
      (∃ fields span, d.ty = .struct fields span) →
        (Ty.ofTypeDecl F s d.name.name d.ty).isOk = true → d.Agrees F s t
  | _ => True

namespace ScopeForest

variable {F G : ScopeForest} {s : ScopeId} {kind : SymbolKind} {x : Ident} {t? : Option ScopeId}

/-- What is shown does not depend on types. -/
theorem Shows.of_untyped (h : F.Shows s kind x t?) (hG : G.untyped = F.untyped) :
    G.Shows s kind x t? := by
  rwa [Shows, hG]

/-- A name that its declaration binds is shown. -/
theorem exists_shows_of_binds (h : F.binds s x = true) : ∃ kind t?, F.Shows s kind x t? := by
  unfold binds at h
  split at h
  · next y hy =>
    obtain ⟨-, hname⟩ := mem_symbols_of_symbol? hy
    have hident : (⟨y.name, y.span⟩ : Ident) = x :=
      Ident.mk.injEq .. ▸ ⟨hname, beq_iff_eq.mp h⟩
    exact ⟨y.kind, y.members?, hident ▸ shows_of_symbol? hy⟩
  · cases h

/-- A name that has a scope of members where it is declared is shown. -/
theorem exists_shows_of_declaredMembers? {t : ScopeId} (h : F.declaredMembers? s x = some t) :
    ∃ kind t?, F.Shows s kind x t? := by
  refine exists_shows_of_binds ?_
  unfold declaredMembers? at h
  unfold binds
  split at h
  · split at h
    · next hspan => exact beq_iff_eq.mpr hspan
    · cases h
  · cases h

end ScopeForest

namespace Visit.Agrees

variable {F G : ScopeForest} {v : Visit}

/-- What has been written twice stays the same while no type that is there changes. -/
theorem later (h : v.Agrees F) (hv : v.Bound F) (hF : F.Sound)
    (hsame : G.declarations v.scope = F.declarations v.scope) (hsense : Ty.SameSense F G v.scope)
    (htypes : ∀ {s kind x t? ty}, v.scope ∈ F.chain s → F.Shows s kind x t? → kind ≠ .method →
      x ∈ v.names → F.typeOf? s x.name = some ty → G.typeOf? s x.name = some ty) : v.Agrees G := by
  cases v with
  | importing s i => trivial
  | stop s x =>
    cases x with
    | typeDecl d =>
      intro t ht hstruct hok
      have hmembers : F.declaredMembers? s d.name = some t :=
        (ScopeForest.declaredMembers?_congr hsame d.name).symm.trans ht
      obtain ⟨t', hbound⟩ := hv
      obtain rfl := Option.some.inj (hbound.name.declaredMembers?.symm.trans hmembers)
      have hself : s ∈ F.chain s := ScopeForest.mem_chain_self hbound.name.lt_size
      obtain ⟨fs, hname, hnames, hfields⟩ :=
        h t' hmembers hstruct ((hsense.isOk_ofTypeDecl ..).symm.trans hok)
      refine ⟨fs, htypes hself hbound.name nofun (List.mem_cons_self ..) hname, hnames, ?_⟩
      intro f hf
      obtain ⟨x, hx, hfx⟩ := List.mem_map.mp ((hnames f.1).mp (List.mem_map_of_mem hf))
      have hfield := hfields f hf
      rw [← hfx] at hfield ⊢
      exact htypes (hbound.name.mem_chain hF hself) (hbound.fields x hx) nofun
        (List.mem_cons_of_mem _ hx) hfield
    | _ => trivial
  | head s hd inner? =>
    intro t ht hnone hderives
    obtain ⟨t', ht', hbound⟩ := hv
    obtain rfl := Option.some.inj (ht'.symm.trans ht)
    have hbound := hbound hnone
    have hself : s ∈ F.chain s := ScopeForest.mem_chain_self hbound.name.lt_size
    obtain ⟨ps, r, hname, hparams⟩ := h t' ht hnone
      ⟨fun p hp => (hsense.isOk_denote ..).symm.trans (hderives.params p hp),
        fun ty hty => (hsense.isOk_denote ..).symm.trans (hderives.ret ty hty)⟩
    refine ⟨ps, r, htypes hself hbound.name nofun (List.mem_cons_self ..) hname, ?_⟩
    refine (List.map_congr_left fun p hp => ?_).trans hparams
    -- Each parameter has been given a type, so it keeps this one.
    obtain ⟨ty, -, hty⟩ := List.mem_map.mp (hparams ▸ List.mem_map_of_mem
      (f := fun p : Param => F.typeOf? t' p.name.name) hp)
    have harg := Head.mem_argumentNames hp
    rw [← hty]
    exact htypes (hbound.name.mem_chain hF hself) (hbound.arguments _ harg) nofun
      (List.mem_cons_of_mem _ harg) hty.symm

end Visit.Agrees

namespace Context

variable {c d e : Context} {m : Module} {s t : ScopeId} {names : List Ident} {x : Ident}

/-- Of all names but methods, only some are given types on the way from one context to another. -/
structure Marks (names : List Ident) (c d : Context) : Prop where
  /-- Only types change. -/
  untyped : d.scopes.untyped = c.scopes.untyped
  /-- All other names keep theirs. -/
  types : ∀ {s kind x t?}, c.scopes.Shows s kind x t? → kind ≠ .method → x ∉ names →
    d.scopes.typeOf? s x.name = c.scopes.typeOf? s x.name

namespace Marks

theorem of_scopes (h : d.scopes = c.scopes) : Marks names c d :=
  ⟨by rw [h], fun _ _ _ => by rw [h]⟩

theorem refl (c : Context) : Marks names c c := .of_scopes rfl

theorem trans (h : Marks names c d) (h' : Marks names d e) : Marks names c e :=
  ⟨h'.untyped.trans h.untyped, fun hx hkind hmem =>
    (h'.types (hx.of_untyped h.untyped) hkind hmem).trans (h.types hx hkind hmem)⟩

theorem mono {names' : List Ident} (h : Marks names c d) (hsub : names ⊆ names') :
    Marks names' c d :=
  ⟨h.untyped, fun hx hkind hmem => h.types hx hkind fun hmem' => hmem (hsub hmem')⟩

/-- Steps that give types to some names one after the other give them together. -/
theorem foldl {α : Type} {f : Context → α → Context} {xs : List α} (c : Context)
    (h : ∀ d, d.scopes.untyped = c.scopes.untyped → ∀ x ∈ xs, Marks names d (f d x)) :
    Marks names c (xs.foldl f c) := by
  induction xs generalizing c with
  | nil => exact refl c
  | cons x xs ih =>
    have hfirst := h c rfl x (List.mem_cons_self ..)
    refine hfirst.trans (ih _ fun d hd y hy => ?_)
    exact h d (hd.trans hfirst.untyped) y (List.mem_cons_of_mem _ hy)

end Marks

/-! ### What steps write -/

theorem marks_setType (name : String) (ty : Ty) (hname : ∀ {kind x t?},
    c.scopes.Shows s kind x t? → x.name = name → kind = .method ∨ x ∈ names) :
    Marks names c (c.setType s name ty) := by
  refine ⟨ScopeForest.untyped_setType .., fun hx hkind hmem => ?_⟩
  refine ScopeForest.typeOf?_setType_of_ne ty fun ⟨hscope, hsame⟩ => ?_
  exact (hname (hscope ▸ hx) hsame).elim hkind hmem

/-- A name that is shown is the only one of its text. -/
theorem marks_setType_of_shows {kind : SymbolKind} {t? : Option ScopeId}
    (hx : c.scopes.Shows s kind x t?) (hmem : x ∈ names) (ty : Ty) :
    Marks names c (c.setType s x.name ty) :=
  marks_setType x.name ty fun hy hname => Or.inr ((hy.unique hx hname).2.1 ▸ hmem)

theorem marks_setDeclaredType (hmem : x ∈ names) (s : ScopeId) (ty : Ty) (c : Context) :
    Marks names c (c.setDeclaredType s x ty) := by
  unfold setDeclaredType
  split
  · next hbinds =>
    obtain ⟨kind, t?, hx⟩ := ScopeForest.exists_shows_of_binds hbinds
    exact marks_setType_of_shows hx hmem ty
  · exact .refl c

/-- A written type that means something is given to a name. -/
private theorem marks_denoteIn_then (hmem : x ∈ names) (m : Module) (s body : ScopeId)
    (ty : TypeExpr) (c : Context) : Marks names c
      (match c.denoteIn m s ty with
      | (some u, d) => d.setDeclaredType body x u
      | (none, d) => d) := by
  have h := scopes_denoteIn m s ty c
  generalize c.denoteIn m s ty = r at h ⊢
  obtain ⟨_ | u, d⟩ := r
  · exact .of_scopes h
  · exact (Marks.of_scopes h).trans (marks_setDeclaredType hmem body u d)

theorem marks_resolveTargets (m : Module) (s : ScopeId) (targets : List VarBinder) (c : Context) :
    Marks (targets.map VarBinder.name) c (c.resolveTargets m s targets) := by
  refine Marks.foldl c fun d _ target htarget => ?_
  cases target.ty? with
  | none => exact .refl d
  | some ty => exact marks_denoteIn_then (List.mem_map_of_mem htarget) m s s ty d

theorem marks_resolveParams (m : Module) (s body : ScopeId) (params : List Param) (c : Context) :
    Marks (params.map Param.name) c (resolveParams m s body params c).2 := by
  induction params generalizing c with
  | nil => exact .refl c
  | cons p ps ih =>
    have hfirst : p.name ∈ (p :: ps).map Param.name := List.mem_cons_self ..
    have hrest : ∀ d, Marks ((p :: ps).map Param.name) d (resolveParams m s body ps d).2 :=
      fun d => (ih d).mono (List.subset_cons_self ..)
    have hd : Marks ((p :: ps).map Param.name) c (c.denoteIn m s p.ty).2 :=
      .of_scopes (scopes_denoteIn m s p.ty c)
    rw [resolveParams]
    generalize c.denoteIn m s p.ty = r at hd ⊢
    obtain ⟨_ | u, d⟩ := r
    · exact hd.trans (hrest d)
    · exact hd.trans ((marks_setDeclaredType hfirst body u d).trans (hrest _))

/-- Only the types of parameters are written on the way to that of a signature. -/
theorem scopes_resolveSignature (m : Module) (s body : ScopeId) (params : List Param)
    (ret : Option TypeExpr) (c : Context) :
    (c.resolveSignature m s body params ret).2.scopes =
      (resolveParams m s body params c).2.scopes := by
  have hret := scopes_resolveResult m s ret (resolveParams m s body params c).2
  simp only [resolveSignature]
  split <;> exact hret

theorem marks_resolveSignature (m : Module) (s body : ScopeId) (params : List Param)
    (ret : Option TypeExpr) (c : Context) :
    Marks (params.map Param.name) c (c.resolveSignature m s body params ret).2 :=
  (marks_resolveParams m s body params c).trans (.of_scopes (scopes_resolveSignature ..))

/-- The signature is given to the name that the head declares. -/
theorem marks_setSignature (hx : c.scopes.declaredMembers? s x = some t) (hmem : x ∈ names)
    (ty? : Option Ty) : Marks names c (c.setSignature s x ty?) := by
  cases ty? with
  | none => exact .refl c
  | some ty =>
    obtain ⟨kind, t?, hshows⟩ := ScopeForest.exists_shows_of_declaredMembers? hx
    exact marks_setType_of_shows hshows hmem ty

/-- A head is resolved: its parameters are given their types, and then its name the signature. -/
private theorem marks_resolve_then (m : Module) (s : ScopeId) {u body : ScopeId} {name : Ident}
    (hname : c.scopes.declaredMembers? u name = some body) (params : List Param)
    (ret : Option TypeExpr) (hmem : name ∈ names) (hsub : params.map Param.name ⊆ names) :
    Marks names c ((c.resolveSignature m s body params ret).2.setSignature u name
      (c.resolveSignature m s body params ret).1) := by
  have hsignature := (marks_resolveSignature m s body params ret c).mono hsub
  refine hsignature.trans (marks_setSignature (t := body) ?_ hmem _)
  exact (ScopeForest.declaredMembers?_of_untyped hsignature.untyped u name).trans hname

theorem marks_resolveHead (m : Module) (s : ScopeId) (name : Ident) (params : List Param)
    (ret : Option TypeExpr) (c : Context) :
    Marks (name :: params.map Param.name) c (c.resolveHead m s name params ret).2 := by
  unfold resolveHead
  split
  · exact .refl c
  · next body hbody =>
    exact marks_resolve_then m s hbody params ret (List.mem_cons_self ..)
      (List.subset_cons_self ..)

theorem marks_resolveMethodHead (m : Module) (s : ScopeId) (receiver : Param) (name : Ident)
    (params : List Param) (ret : Option TypeExpr) (c : Context) :
    Marks (name :: receiver.name :: params.map Param.name) c
      (c.resolveMethodHead m s receiver name params ret).2 := by
  unfold resolveMethodHead
  split
  · next typeName hty =>
    cases hmembers : c.scopes.typeMembers? s typeName.name with
    | none => exact .refl c
    | some members =>
      dsimp only
      cases hbody : c.scopes.declaredMembers? members name with
      | none => exact .refl c
      | some body =>
        have hreceiver : Marks (name :: receiver.name :: params.map Param.name) c _ :=
          marks_denoteIn_then (x := receiver.name) (by simp) m s body receiver.ty c
        have hname := (ScopeForest.declaredMembers?_of_untyped hreceiver.untyped ..).trans hbody
        refine hreceiver.trans (marks_resolve_then m s hname params ret (by simp) ?_)
        exact List.subset_cons_of_subset _ (List.subset_cons_self ..)
  · exact .refl c

/-- Where only some names and methods are members of a type, no other names are given types. -/
theorem marks_resolveFields {members : ScopeId} (hmembers : ∀ {kind x t?},
    c.scopes.Shows members kind x t? → kind = .method ∨ x ∈ names) (ty : Ty) :
    Marks names c (c.resolveFields members ty) := by
  unfold resolveFields
  split
  · exact Marks.foldl c fun e he field _ => marks_setType _ _ fun hx _ =>
      hmembers (hx.of_untyped he.symm)
  · exact .refl c

/-- A place that stays in its scope gives types to no names but its own. -/
theorem marks_stop {y : Stop} (hy : (Visit.stop s y).Furnished c.scopes) (m : Module) :
    Marks y.names c ((resolver m).stop s y c) := by
  cases y with
  | typeDecl d =>
    simp only [Visitor.stop, resolver, resolveTypeDecl]
    split
    · exact .refl c
    · next members hmembers =>
      split
      · next ty _ =>
        have hfields : Marks (d.name :: d.fieldNames) c (c.resolveFields members ty) :=
          (marks_resolveFields (hy members hmembers) ty).mono (List.subset_cons_self ..)
        obtain ⟨kind, t?, hshows⟩ := ScopeForest.exists_shows_of_declaredMembers? hmembers
        exact hfields.trans (marks_setType_of_shows (hshows.of_untyped hfields.untyped)
          (List.mem_cons_self ..) _)
      · exact .of_scopes rfl
  | declaring isConst targets values span =>
    have htargets := marks_resolveTargets m s targets c
    simp only [Visitor.stop, resolver]
    split
    · exact htargets
    · exact htargets.trans (.of_scopes (scopes_resolveArity ..))
  | declared targets values => exact .refl c
  | assigning targets values span => exact .of_scopes (scopes_resolveArity ..)
  | name name => exact .of_scopes ((local_resolver m).name s name c)
  | qualified module name => exact .of_scopes ((local_resolver m).qualified s module name c)

/-- The head of a function or a method gives types to no names but its own. -/
theorem marks_head (m : Module) (s : ScopeId) (hd : Head) (c : Context) :
    Marks hd.names c ((resolver m).head s hd c).2 := by
  obtain ⟨_ | receiver, name, params, ret⟩ := hd
  · exact marks_resolveHead m s name params ret c
  · exact marks_resolveMethodHead m s receiver name params ret c

/-! ### What is written twice -/

private theorem denoteIn_of_isOk {ty : TypeExpr} (h : (Ty.ofTypeExpr c.scopes s ty).isOk = true)
    (m : Module) : ∃ t, c.denoteIn m s ty = (some t, c) := by
  unfold denoteIn
  cases hty : Ty.ofTypeExpr c.scopes s ty with
  | ok t => exact ⟨t, rfl⟩
  | error e =>
    rw [hty] at h
    cases h

private theorem isOk_ofTypeExpr_of_untyped (h : d.scopes.untyped = c.scopes.untyped) (s : ScopeId)
    (ty : TypeExpr) :
    (Ty.ofTypeExpr d.scopes s ty).isOk = (Ty.ofTypeExpr c.scopes s ty).isOk :=
  (Ty.SameSense.of_untyped h s).isOk_denote anonymousStruct ty

/-- The types that are yielded for parameters are those that the parameters are given. -/
theorem typeOf?_resolveParams {params : List Param} (hnodup : (params.map Param.name).Nodup)
    (hshows : ∀ p ∈ params, c.scopes.Shows t .var p.name none)
    (hok : ∀ p ∈ params, (Ty.ofTypeExpr c.scopes s p.ty).isOk = true) (m : Module) :
    ∃ ps, (resolveParams m s t params c).1 = some ps ∧
      (params.map fun p => (resolveParams m s t params c).2.scopes.typeOf? t p.name.name) =
        ps.map some := by
  induction params generalizing c with
  | nil => exact ⟨[], rfl, rfl⟩
  | cons p params ih =>
    obtain ⟨hfresh, hnodup⟩ := List.nodup_cons.mp hnodup
    obtain ⟨hp, hshows⟩ := List.forall_mem_cons.mp hshows
    obtain ⟨hpok, hok⟩ := List.forall_mem_cons.mp hok
    obtain ⟨u, hu⟩ := denoteIn_of_isOk hpok m
    have hgiven : (c.setDeclaredType t p.name u).scopes.typeOf? t p.name.name = some u := by
      rw [setDeclaredType, if_pos hp.binds]
      exact ScopeForest.typeOf?_setType_self u (ScopeForest.isSome_symbol?_of_binds hp.binds)
    have huntyped := (marks_setDeclaredType (List.mem_singleton_self p.name) t u c).untyped
    obtain ⟨ps, hps, htypes⟩ := ih (c := c.setDeclaredType t p.name u) hnodup
      (fun q hq => (hshows q hq).of_untyped huntyped)
      fun q hq => (isOk_ofTypeExpr_of_untyped huntyped s q.ty).trans (hok q hq)
    simp only [resolveParams, hu, hps]
    refine ⟨u :: ps, rfl, ?_⟩
    rw [List.map_cons, List.map_cons, htypes]
    -- The parameters behind this one are given types, and have other names.
    have hkept := (marks_resolveParams m s t params (c.setDeclaredType t p.name u)).types
      (hp.of_untyped huntyped) (by decide) hfresh
    rw [hkept, hgiven]

/-- The type of a signature that means something says which types its parameters are given. -/
theorem typeOf?_resolveSignature {h : Head} (hnodup : (h.params.map Param.name).Nodup)
    (hshows : ∀ p ∈ h.params, c.scopes.Shows t .var p.name none) (hok : h.Derives c.scopes s)
    (m : Module) :
    ∃ ps r, (c.resolveSignature m s t h.params h.ret).1 = some (.function ps r) ∧
      (h.params.map fun p => (c.resolveSignature m s t h.params h.ret).2.scopes.typeOf? t
        p.name.name) = ps.map some := by
  obtain ⟨ps, hps, htypes⟩ := typeOf?_resolveParams hnodup hshows hok.params m
  have huntyped := (marks_resolveParams m s t h.params c).untyped
  have hret : ∃ r, ((resolveParams m s t h.params c).2.resolveResult m s h.ret).1 = some r := by
    cases hr : h.ret with
    | none => exact ⟨none, rfl⟩
    | some ty =>
      obtain ⟨u, hu⟩ := denoteIn_of_isOk
        ((isOk_ofTypeExpr_of_untyped huntyped s ty).trans (hok.ret ty hr)) m
      exact ⟨some u, by rw [resolveResult, hu]; rfl⟩
  obtain ⟨r, hr⟩ := hret
  refine ⟨ps, r, ?_, ?_⟩
  · simp only [resolveSignature, hps, hr]
  · rw [scopes_resolveSignature]
    exact htypes

/-- Behind its visit, the head of a function agrees with the types of its parameters. -/
theorem agrees_resolveHead {h : Head} (hbound : h.Bound c.scopes s t) (hnone : h.receiver? = none)
    (hnodup : h.names.Nodup) (hok : h.Derives c.scopes s) (m : Module) :
    h.Agrees ((resolver m).head s h c).2.scopes s t := by
  obtain ⟨_ | receiver, name, params, ret⟩ := h
  swap
  · cases hnone
  have hshows : ∀ p ∈ params, c.scopes.Shows t .var p.name none := fun p hp =>
    hbound.arguments _ (Head.mem_argumentNames hp)
  obtain ⟨ps, r, hsignature, hparams⟩ :=
    typeOf?_resolveSignature (h := ⟨none, name, params, ret⟩) (List.nodup_cons.mp hnodup).2 hshows
      hok m
  have hmarks := marks_resolveSignature m s t params ret c
  have hname := hbound.name.of_untyped hmarks.untyped
  simp only [Visitor.head, resolver, resolveHead, hbound.name.declaredMembers?]
  dsimp only at hsignature hparams
  refine ⟨ps, r, ?_, ?_⟩
  · rw [hsignature]
    exact ScopeForest.typeOf?_setType_self _ (ScopeForest.isSome_symbol?_of_binds hname.binds)
  · refine (List.map_congr_left fun p hp => ?_).trans hparams
    rw [hsignature]
    refine ScopeForest.typeOf?_setType_of_ne _ ?_
    -- A parameter is no function.
    rintro ⟨rfl, hsame⟩
    have hp' := (hshows p hp).of_untyped hmarks.untyped
    exact SymbolKind.noConfusion (hp'.unique hname hsame).1

/-- Fields of different names that are given their types have them. -/
private theorem typeOf?_foldl_setType {fields : List (String × Ty)}
    (hnodup : (fields.map Prod.fst).Nodup) (hbound : ∀ f ∈ fields, (c.scopes.symbol? t f.1).isSome) :
    ∀ f ∈ fields, (fields.foldl (fun d field => d.setType t field.1 field.2) c).scopes.typeOf? t
      f.1 = some f.2 := by
  induction fields generalizing c with
  | nil => exact nofun
  | cons field fields ih =>
    obtain ⟨hfresh, hnodup⟩ := List.nodup_cons.mp hnodup
    obtain ⟨hfield, hbound⟩ := List.forall_mem_cons.mp hbound
    have hsome : ∀ name, ((c.setType t field.1 field.2).scopes.symbol? t name).isSome =
        (c.scopes.symbol? t name).isSome := fun name => by
      rw [setType, ScopeForest.symbol?_setType]
      split
      · exact Option.isSome_map
      · rfl
    have hrest := ih (c := c.setType t field.1 field.2) hnodup fun f hf =>
      (hsome f.1).trans (hbound f hf)
    refine List.forall_mem_cons.mpr ⟨?_, hrest⟩
    -- The fields behind this one are given types, and have other names.
    have hkept : ∀ gs ⊆ fields, ∀ e : Context, (gs.foldl
        (fun d field => d.setType t field.1 field.2) e).scopes.typeOf? t field.1 =
          e.scopes.typeOf? t field.1 := by
      intro gs
      induction gs with
      | nil => exact fun _ _ => rfl
      | cons g gs ihg =>
        intro hsub e
        obtain ⟨hg, hgs⟩ := List.cons_subset.mp hsub
        refine (ihg hgs _).trans (ScopeForest.typeOf?_setType_of_ne g.2 fun hsame => hfresh ?_)
        exact hsame.2 ▸ List.mem_map_of_mem hg
    exact (hkept fields (List.Subset.refl _) _).trans
      (ScopeForest.typeOf?_setType_self field.2 hfield)

/-- Behind its visit, a declared type agrees with the types of its fields. -/
theorem agrees_resolveTypeDecl {d : TypeDecl} (hbound : d.Bound c.scopes s t)
    (hstruct : ∃ fields span, d.ty = .struct fields span)
    (hok : (Ty.ofTypeDecl c.scopes s d.name.name d.ty).isOk = true) (m : Module) :
    d.Agrees (c.resolveTypeDecl m s d).scopes s t := by
  obtain ⟨fields, span, hty⟩ := hstruct
  cases hmeans : Ty.ofTypeDecl c.scopes s d.name.name d.ty with
  | error e =>
    rw [hmeans] at hok
    cases hok
  | ok ty =>
    obtain ⟨fs, rfl, hnodup, hnames⟩ := Ty.exists_struct_of_ofTypeDecl (hty ▸ hmeans)
    have hfieldNames : d.fieldNames = fields.map FieldDecl.name := by
      rw [TypeDecl.fieldNames, hty]
    have hshown : ∀ f ∈ fs, ∃ x ∈ d.fieldNames, x.name = f.1 := fun f hf => by
      rw [hfieldNames]
      simpa using (hnames f.1).mp (List.mem_map_of_mem hf)
    have hwritten := typeOf?_foldl_setType (c := c) (t := t) hnodup fun f hf => by
      obtain ⟨x, hx, hfx⟩ := hshown f hf
      exact hfx ▸ ScopeForest.isSome_symbol?_of_binds (hbound.fields x hx).binds
    have htypes : c.Types (fs.foldl (fun d field => d.setType t field.1 field.2) c) :=
      Types.foldl (fun d field => types_setType d t field.1 field.2) fs c
    have huntyped := htypes.untyped
    simp only [resolveTypeDecl, hbound.name.declaredMembers?, hmeans, resolveFields, Ty.unwrap]
    generalize fs.foldl (fun d field => d.setType t field.1 field.2) c = e at hwritten huntyped ⊢
    have hname := hbound.name.of_untyped huntyped
    refine ⟨fs, ?_, fun name => ?_, fun f hf => ?_⟩
    · exact ScopeForest.typeOf?_setType_self _ (ScopeForest.isSome_symbol?_of_binds hname.binds)
    · rw [hnames, hfieldNames, List.map_map]
      rfl
    · refine (ScopeForest.typeOf?_setType_of_ne _ ?_).trans (hwritten f hf)
      -- A field is no type.
      rintro ⟨rfl, hsame⟩
      obtain ⟨x, hx, hfx⟩ := hshown f hf
      have hfield := (hbound.fields x hx).of_untyped huntyped
      exact SymbolKind.noConfusion (hfield.unique hname (hfx.trans hsame)).1

/-- What is written twice at a place that stays in its scope is the same behind its visit. -/
theorem agrees_stop {y : Stop} (hy : (Visit.stop s y).Bound c.scopes) (m : Module) :
    (Visit.stop s y).Agrees ((resolver m).stop s y c).scopes := by
  have hmarks := marks_stop hy.furnished m
  cases y with
  | typeDecl d =>
    intro t ht hstruct hok
    obtain ⟨u, hbound⟩ := hy
    have hu := (hbound.name.of_untyped hmarks.untyped).declaredMembers?
    obtain rfl := Option.some.inj (hu.symm.trans ht)
    refine agrees_resolveTypeDecl hbound hstruct ?_ m
    exact ((Ty.SameSense.of_untyped hmarks.untyped s).isOk_ofTypeDecl ..).symm.trans hok
  | _ => trivial

/-- So is what is written twice for the head of a function. -/
theorem agrees_head {hd : Head} (hbound : (Visit.head s hd (some t)).Bound c.scopes)
    (hnodup : hd.names.Nodup) (m : Module) :
    (Visit.head s hd (some t)).Agrees ((resolver m).head s hd c).2.scopes := by
  rintro _ ⟨rfl⟩ hnone hok
  obtain ⟨_, ⟨rfl⟩, hbound⟩ := hbound
  have hsense := Ty.SameSense.of_untyped (marks_head m s hd c).untyped s
  refine agrees_resolveHead (hbound hnone) hnone hnodup ⟨fun p hp => ?_, fun ty hty => ?_⟩ m
  · exact (hsense.isOk_denote ..).symm.trans (hok.params p hp)
  · exact (hsense.isOk_denote ..).symm.trans (hok.ret ty hty)

end Context

end Sable
