import Sable.Proofs.Context.Alike
import Sable.Proofs.Scope.Meaning

/-!
# The later passes in lockstep

Resolution and type checking look names up, compare the places of declarations, give types to names
and report problems. So if two contexts tally where two walks in step look, and the relation between
them survives a type given to the same name and a report in related places, both passes treat them
alike: they find the scopes of the same bodies, give the same types and report the same problems.

This is so in particular for contexts that differ in spans only, throughout a whole pass.
-/

namespace Sable.Context

/-- What the later passes need of a relation between contexts in which they walk two modules. -/
structure Corresponds (N R T : Span → Span → Prop) (K : ScopeId → ScopeId → Prop)
    (looked : SymbolKind → Prop) (m n : Module) (L : Context → Context → Prop) : Prop where
  /-- A name stands where a node may stand. -/
  names : T ≤ N
  /-- The places of names are among those of declarations. -/
  places : T ≤ R
  /-- The same is found in scopes that belong together. -/
  tallies : ∀ {c d}, L c d → c.scopes.Tallies R K looked d.scopes
  /-- The same name may be given the same type. -/
  setType : ∀ {c d s t}, L c d → K s t → ∀ name ty, L (c.setType s name ty) (d.setType t name ty)
  /-- The same problem may be reported. -/
  reportIn : ∀ {c d x y message message'}, L c d → ∀ pass, N x y → message = message' →
    L (c.reportIn m pass x message) (d.reportIn n pass y message')

section

variable {N R T : Span → Span → Prop} {K : ScopeId → ScopeId → Prop} {looked : SymbolKind → Prop}
  {m n : Module} {L : Context → Context → Prop} {c d : Context} {s t : ScopeId}

namespace Corresponds

theorem binds (h : Corresponds N R T K looked m n L) (hcd : L c d) (hst : K s t)
    {name name' : Ident} (hname : name.Alike T name') :
    c.scopes.binds s name = d.scopes.binds t name' :=
  (h.tallies hcd).binds hst (hname.mono h.places)

theorem declaredMembers? (h : Corresponds N R T K looked m n L) (hcd : L c d) (hst : K s t)
    {name name' : Ident} (hname : name.Alike T name') :
    Option.Rel K (c.scopes.declaredMembers? s name) (d.scopes.declaredMembers? t name') :=
  (h.tallies hcd).declaredMembers? hst (hname.mono h.places)

theorem setDeclaredType (h : Corresponds N R T K looked m n L) (hcd : L c d) (hst : K s t)
    {name name' : Ident} (hname : name.Alike T name') (ty : Ty) :
    L (c.setDeclaredType s name ty) (d.setDeclaredType t name' ty) := by
  rw [Context.setDeclaredType, Context.setDeclaredType, h.binds hcd hst hname, hname.name]
  split
  · exact h.setType hcd hst name'.name ty
  · exact hcd

end Corresponds

/-! ### Resolution -/

section

variable (h : Corresponds N R T K looked m n L) (hlooked : ∀ k, k.isType = true → looked k)
include h hlooked

/-- A written type means the same, or the same is reported. -/
theorem sameStep_denoteIn (hcd : L c d) (hst : K s t) {ty ty' : TypeExpr}
    (hty : ty.Paired N T ty') :
    SameStep Eq L (c.denoteIn m s ty) (d.denoteIn n t ty') := by
  have hdenote := Ty.outcomes_denote (h.tallies hcd) hlooked h.names hst anonymousStruct hty
  rw [denoteIn, denoteIn, Ty.ofTypeExpr, Ty.ofTypeExpr]
  generalize Ty.denote c.scopes s anonymousStruct ty = x,
    Ty.denote d.scopes t anonymousStruct ty' = y at hdenote
  cases hdenote with
  | ok hxy => exact ⟨rel_eq (congrArg some hxy), hcd⟩
  | error he => exact ⟨.none, h.reportIn hcd _ he.span he.message⟩

/-- A name is given the type that is written for it, if that means something. -/
theorem corresponds_denoteIn_then (hcd : L c d) {u v : ScopeId} (hst : K s t) (huv : K u v)
    {ty ty' : TypeExpr} (hty : ty.Paired N T ty') {name name' : Ident}
    (hname : name.Alike T name') :
    L (match c.denoteIn m s ty with
        | (some r, c) => c.setDeclaredType u name r
        | (none, c) => c)
      (match d.denoteIn n t ty' with
        | (some r, d) => d.setDeclaredType v name' r
        | (none, d) => d) := by
  obtain ⟨ht, hstates⟩ := sameStep_denoteIn h hlooked hcd hst hty
  generalize c.denoteIn m s ty = r, d.denoteIn n t ty' = r' at ht hstates
  obtain ⟨t?, c'⟩ := r
  obtain ⟨t?', d'⟩ := r'
  obtain rfl : t? = t?' := eq_of_rel ht
  cases t? with
  | none => exact hstates
  | some r => exact h.setDeclaredType hstates huv hname r

theorem corresponds_resolveTargets (hcd : L c d) (hst : K s t) {targets targets' : List VarBinder}
    (htargets : List.Forall₂ (VarBinder.Paired N T) targets targets') :
    L (c.resolveTargets m s targets) (d.resolveTargets n t targets') := by
  refine List.rel_foldl (P := L) (R := VarBinder.Paired N T) ?_ hcd htargets
  intro c d hcd target target' htarget
  have hty? := htarget.ty?
  beta_reduce
  generalize target.ty? = ty?, target'.ty? = ty?' at hty?
  cases hty? with
  | none => exact hcd
  | some hty => exact corresponds_denoteIn_then h hlooked hcd hst hst hty htarget.name

theorem sameStep_resolveParams (hst : K s t) {body body' : ScopeId} (hbody : K body body')
    {params params' : List Param} (hparams : List.Forall₂ (Param.Paired N T) params params') :
    ∀ {c d : Context}, L c d →
      SameStep Eq L (resolveParams m s body params c) (resolveParams n t body' params' d) := by
  induction hparams with
  | nil => exact fun hcd => ⟨.some rfl, hcd⟩
  | @cons p q ps qs hp _ ih =>
    intro c d hcd
    obtain ⟨ht, hstates⟩ := sameStep_denoteIn h hlooked hcd hst hp.ty
    rw [resolveParams, resolveParams]
    generalize c.denoteIn m s p.ty = r, d.denoteIn n t q.ty = r' at ht hstates
    obtain ⟨t?, c'⟩ := r
    obtain ⟨t?', d'⟩ := r'
    obtain rfl : t? = t?' := eq_of_rel ht
    cases t? with
    | none => exact ⟨.none, (ih hstates).2⟩
    | some r =>
      have hrest := ih (h.setDeclaredType hstates hbody hp.name r)
      exact ⟨rel_map hrest.1 fun hab => congrArg _ hab, hrest.2⟩

theorem sameStep_resolveResult (hcd : L c d) (hst : K s t) {ret ret' : Option TypeExpr}
    (hret : Option.Rel (TypeExpr.Paired N T) ret ret') :
    SameStep Eq L (c.resolveResult m s ret) (d.resolveResult n t ret') := by
  cases hret with
  | none => exact ⟨.some rfl, hcd⟩
  | some hty =>
    have hstep := sameStep_denoteIn h hlooked hcd hst hty
    exact ⟨rel_map hstep.1 fun hab => congrArg _ hab, hstep.2⟩

/-- The signature of a function has the same type, if any. -/
theorem sameStep_resolveSignature (hcd : L c d) (hst : K s t) {body body' : ScopeId}
    (hbody : K body body') {params params' : List Param} {ret ret' : Option TypeExpr}
    (hparams : List.Forall₂ (Param.Paired N T) params params')
    (hret : Option.Rel (TypeExpr.Paired N T) ret ret') :
    SameStep Eq L (c.resolveSignature m s body params ret)
      (d.resolveSignature n t body' params' ret') := by
  obtain ⟨hts, hstates⟩ := sameStep_resolveParams h hlooked hst hbody hparams hcd
  obtain ⟨hresult, hends⟩ := sameStep_resolveResult h hlooked hstates hst hret
  rw [resolveSignature, resolveSignature]
  simp only [eq_of_rel hts, eq_of_rel hresult]
  split
  · exact ⟨.some rfl, hends⟩
  · exact ⟨.none, hends⟩

omit hlooked in
theorem corresponds_setSignature {r r' : Option Ty × Context} (hstep : SameStep Eq L r r')
    (hst : K s t) {name name' : Ident} (hname : name.Alike T name') :
    L (r.2.setSignature s name r.1) (r'.2.setSignature t name' r'.1) := by
  obtain ⟨ht, hstates⟩ := hstep
  rw [eq_of_rel ht]
  cases r'.1 with
  | none => exact hstates
  | some ty =>
    rw [setSignature, setSignature, hname.name]
    exact h.setType hstates hst name'.name ty

/-- The head of a function leads to scopes that belong together. -/
theorem sameStep_resolveHead (hcd : L c d) (hst : K s t) {name name' : Ident}
    {params params' : List Param} {ret ret' : Option TypeExpr} (hname : name.Alike T name')
    (hparams : List.Forall₂ (Param.Paired N T) params params')
    (hret : Option.Rel (TypeExpr.Paired N T) ret ret') :
    SameStep K L (c.resolveHead m s name params ret) (d.resolveHead n t name' params' ret') := by
  have hmembers := h.declaredMembers? hcd hst hname
  rw [resolveHead, resolveHead]
  generalize c.scopes.declaredMembers? s name = x, d.scopes.declaredMembers? t name' = y
    at hmembers
  cases hmembers with
  | none => exact ⟨.none, hcd⟩
  | some hbody =>
    have hsignature := sameStep_resolveSignature h hlooked hcd hst hbody hparams hret
    exact ⟨.some hbody, corresponds_setSignature h hsignature hst hname⟩

/-- The head of a method leads to scopes that belong together. -/
theorem sameStep_resolveMethodHead (hcd : L c d) (hst : K s t) {receiver receiver' : Param}
    {name name' : Ident} {params params' : List Param} {ret ret' : Option TypeExpr}
    (hreceiver : receiver.Paired N T receiver') (hname : name.Alike T name')
    (hparams : List.Forall₂ (Param.Paired N T) params params')
    (hret : Option.Rel (TypeExpr.Paired N T) ret ret') :
    SameStep K L (c.resolveMethodHead m s receiver name params ret)
      (d.resolveMethodHead n t receiver' name' params' ret') := by
  have hty := hreceiver.ty
  have htyped {u v : ScopeId} (huv : K u v) :=
    corresponds_denoteIn_then h hlooked hcd hst huv hty hreceiver.name
  rw [resolveMethodHead, resolveMethodHead]
  generalize receiver.ty = ty, receiver'.ty = ty' at hty htyped
  cases hty with
  | @named typeName typeName' htypeName =>
    have hmembers := (h.tallies hcd).typeMembers? hst typeName.name
    simp only [← htypeName.name]
    generalize c.scopes.typeMembers? s typeName.name = x,
      d.scopes.typeMembers? t typeName.name = y at hmembers
    cases hmembers with
    | none => exact ⟨.none, hcd⟩
    | @some members members' hmembers =>
      have hdeclared := h.declaredMembers? hcd hmembers hname
      dsimp only
      generalize c.scopes.declaredMembers? members name = x,
        d.scopes.declaredMembers? members' name' = y at hdeclared
      cases hdeclared with
      | none => exact ⟨.none, hcd⟩
      | some hbody =>
        have hsignature :=
          sameStep_resolveSignature h hlooked (htyped hbody) hst hbody hparams hret
        exact ⟨.some hbody, corresponds_setSignature h hsignature hmembers hname⟩
  | _ => exact ⟨.none, hcd⟩

omit hlooked in
theorem corresponds_resolveFields (hcd : L c d) {members members' : ScopeId}
    (hmembers : K members members') (ty : Ty) :
    L (c.resolveFields members ty) (d.resolveFields members' ty) := by
  rw [resolveFields, resolveFields]
  split
  · exact List.foldl_rel hcd fun field _ _ _ hcd => h.setType hcd hmembers field.1 field.2
  · exact hcd

theorem corresponds_resolveTypeDecl (hcd : L c d) (hst : K s t) {D E : TypeDecl}
    (hD : D.Paired N T E) : L (c.resolveTypeDecl m s D) (d.resolveTypeDecl n t E) := by
  have hmembers := h.declaredMembers? hcd hst hD.name
  rw [resolveTypeDecl, resolveTypeDecl]
  generalize c.scopes.declaredMembers? s D.name = x, d.scopes.declaredMembers? t E.name = y
    at hmembers
  cases hmembers with
  | none => exact hcd
  | some hmembers =>
    have hdenote := Ty.outcomes_denote (h.tallies hcd) hlooked h.names hst D.name.name hD.ty
    rw [Ty.ofTypeDecl, Ty.ofTypeDecl, ← hD.name.name]
    generalize Ty.denote c.scopes s D.name.name D.ty = x,
      Ty.denote d.scopes t D.name.name E.ty = y at hdenote
    cases hdenote with
    | ok hxy =>
      rw [hxy]
      exact h.setType (corresponds_resolveFields h hcd hmembers _) hst D.name.name _
    | error he => exact h.reportIn hcd _ he.span he.message

omit hlooked in
theorem corresponds_resolveName (hcd : L c d) (hst : K s t) {name name' : Ident}
    (hname : name.Alike T name') : L (c.resolveName m s name) (d.resolveName n t name') := by
  rw [resolveName, resolveName, ← hname.name,
    isSome_eq_of_rel ((h.tallies hcd).visible? hst name.name)]
  split
  · exact hcd
  · exact h.reportIn hcd _ (h.names _ _ hname.span) rfl

omit hlooked in
theorem corresponds_resolveQualified (hcd : L c d) (hst : K s t)
    {module module' name name' : Ident} (hmodule : module.Alike T module')
    (hname : name.Alike T name') :
    L (c.resolveQualified m s module name) (d.resolveQualified n t module' name') := by
  have hx := (h.tallies hcd).qualified hst module.name name.name
  rw [resolveQualified, resolveQualified, ← hmodule.name, ← hname.name]
  generalize c.scopes.importedRoot s module.name = r, d.scopes.importedRoot t module.name = r'
    at hx
  cases r with
  | error e =>
    cases r' with
    | error e' =>
      cases hx with
      | error he => exact h.reportIn hcd _ (h.names _ _ hmodule.span) (by rw [he])
    | ok root' => cases hx
  | ok root =>
    cases r' with
    | error e' => cases hx
    | ok root' =>
      have hsome : (c.scopes.symbol? root name.name).isSome =
          (d.scopes.symbol? root' name.name).isSome := by
        cases hx with
        | ok hx => exact isSome_eq_of_rel hx
      dsimp only
      rw [hsome]
      split
      · exact hcd
      · exact h.reportIn hcd _ (h.names _ _ hname.span) rfl

omit hlooked in
theorem corresponds_resolveArity (hcd : L c d) {span span' : Span} (hspan : N span span')
    (targets values : Nat) :
    L (c.resolveArity m span targets values) (d.resolveArity n span' targets values) := by
  rw [resolveArity, resolveArity]
  split
  · exact hcd
  · exact h.reportIn hcd _ hspan rfl

/-- Resolution visits alike where the same is found. -/
theorem accords_resolver : (resolver m).Accords N T (fun _ _ => K) L (resolver n) where
  function hst hname hparams hret hcd := by
    obtain ⟨hbody, hstates⟩ := sameStep_resolveHead h hlooked hcd hst hname hparams hret
    exact ⟨hbody, hstates, id⟩
  method hst hreceiver hname hparams hret hcd := by
    obtain ⟨hbody, hstates⟩ :=
      sameStep_resolveMethodHead h hlooked hcd hst hreceiver hname hparams hret
    exact ⟨hbody, hstates, id⟩
  typeDecl hst hD hcd := ⟨corresponds_resolveTypeDecl h hlooked hcd hst hD, id⟩
  declaring _ hst htargets hvalues hspan hcd := by
    refine ⟨?_, id⟩
    have hresolved := corresponds_resolveTargets h hlooked hcd hst htargets
    have hempty := isEmpty_eq_of_forall₂ hvalues
    simp only [resolver, hempty, htargets.length_eq, hvalues.length_eq]
    split
    · exact hresolved
    · exact corresponds_resolveArity h hresolved hspan _ _
  declared _ _ _ hcd := .refl hcd
  assigning htargets hvalues hspan hcd := by
    refine ⟨?_, id⟩
    simp only [resolver, htargets.length_eq, hvalues.length_eq]
    exact corresponds_resolveArity h hcd hspan _ _
  name hst hname hcd := ⟨corresponds_resolveName h hcd hst hname, id⟩
  qualified hst hmodule hname hcd := ⟨corresponds_resolveQualified h hcd hst hmodule hname, id⟩

end

/-! ### Type checking -/

section

variable (h : Corresponds N R T K looked m n L) (hlooked : ∀ k, looked k)
include h hlooked

/-- The type of an expression is known alike. -/
theorem infer_eq (hcd : L c d) (hst : K s t) {e e' : Expr} (he : e.Paired N T e') :
    infer c.scopes s e = infer d.scopes t e' := by
  have htallies := h.tallies hcd
  cases he with
  | literal => rfl
  | ident hname =>
    rw [infer, infer, ← hname.name]
    exact bind_eq_of_rel (htallies.visible? hst _) fun hxy => hxy.ty?
  | @qualified module _ name _ _ _ _ hmodule hname =>
    have hx := htallies.qualified hst module.name name.name
    rw [infer, infer, ← hmodule.name, ← hname.name]
    generalize c.scopes.importedRoot s module.name = r,
      d.scopes.importedRoot t module.name = r' at hx
    cases r with
    | error e =>
      cases r' with
      | error e' => rfl
      | ok root' => cases hx
    | ok root =>
      cases r' with
      | error e' => cases hx
      | ok root' =>
        cases hx with
        | ok hx => exact bind_eq_of_rel hx fun hxy => hxy.ty? (hlooked _)
  | function hf =>
    cases hf with
    | mk _ hname _ _ _ =>
      simp only [infer, FunctionDef.name, ← hname.name]
      exact bind_eq_of_rel (htallies.symbol? hst _) fun hxy => hxy.ty?
  | _ => rfl

theorem corresponds_checkTarget (hcd : L c d) (hst : K s t) {target target' : VarBinder}
    {value value' : Expr} (htarget : target.Paired N T target')
    (hvalue : value.Paired N T value') :
    L (c.checkTarget m s target value) (d.checkTarget n t target' value') := by
  have hname := htarget.name
  have hty : ((c.scopes.symbol? s target.name.name).bind Symbol.ty?) =
      (d.scopes.symbol? t target'.name.name).bind Symbol.ty? := by
    rw [hname.name]
    exact bind_eq_of_rel ((h.tallies hcd).symbol? hst _) fun hxy => hxy.ty?
  have hwritten : target.ty?.isNone = target'.ty?.isNone := by
    rw [← Option.not_isSome, ← Option.not_isSome, isSome_eq_of_rel htarget.ty?]
  rw [checkTarget, checkTarget, h.binds hcd hst hname, infer_eq h hlooked hcd hst hvalue, hty,
    hwritten, hname.name]
  split
  · split
    · exact hcd
    · split
      · split
        · exact h.setType hcd hst _ _
        · exact hcd
      · split
        · exact hcd
        · exact h.reportIn hcd _ (hvalue.span h.names) rfl
  · exact hcd

theorem corresponds_checkTargets (hcd : L c d) (hst : K s t) {targets targets' : List VarBinder}
    {values values' : List Expr}
    (htargets : List.Forall₂ (VarBinder.Paired N T) targets targets')
    (hvalues : List.Forall₂ (Expr.Paired N T) values values') :
    L (c.checkTargets m s targets values) (d.checkTargets n t targets' values') := by
  rw [checkTargets, checkTargets]
  induction htargets generalizing c d values values' with
  | nil => exact hcd
  | cons htarget _ ih =>
    cases hvalues with
    | nil => exact hcd
    | cons hvalue hvalues =>
      exact ih (corresponds_checkTarget h hlooked hcd hst htarget hvalue) hvalues

omit hlooked in
/-- A receiver leads to members that belong together. -/
theorem rel_methodScope (hcd : L c d) (hst : K s t) {receiver receiver' : Param}
    (hreceiver : receiver.Paired N T receiver') :
    Option.Rel K (methodScope c.scopes s receiver) (methodScope d.scopes t receiver') := by
  have hty := hreceiver.ty
  rw [methodScope, methodScope]
  generalize receiver.ty = ty, receiver'.ty = ty' at hty
  cases hty with
  | named hname =>
    simp only [← hname.name]
    exact (h.tallies hcd).typeMembers? hst _
  | _ => exact .none

/-- Type checking visits alike where the same is found. -/
theorem accords_checker : (checker m).Accords N T (fun _ _ => K) L (checker n) where
  function hst hname _ _ hcd := ⟨h.declaredMembers? hcd hst hname, .refl hcd⟩
  method hst hreceiver hname _ _ hcd :=
    ⟨rel_bind (rel_methodScope h hcd hst hreceiver) fun hmembers =>
      h.declaredMembers? hcd hmembers hname, .refl hcd⟩
  typeDecl _ _ hcd := .refl hcd
  declaring _ _ _ _ _ hcd := .refl hcd
  declared hst htargets hvalues hcd :=
    ⟨corresponds_checkTargets h hlooked hcd hst htargets hvalues, id⟩
  assigning _ _ _ hcd := .refl hcd
  name _ _ hcd := .refl hcd
  qualified _ _ _ hcd := .refl hcd

end

end

/-! ### Contexts that differ in spans only -/

variable {R T : Span → Span → Prop} {c d : Context} {m n : Module}

/-- Contexts that differ in spans only tally in scopes of the same number. -/
theorem corresponds_alike (hm : m.Alike R n) (hT : T ≤ R) :
    Corresponds Span.Free R T Eq (fun _ => True) m n (Context.Alike R) where
  names _ _ _ := trivial
  places := hT
  tallies h := h.scopes.tallies h.places _
  setType h hst name ty := h.setType hst name ty
  reportIn h pass _ hmessage := h.reportIn hm pass hmessage

theorem localAlias_eq {N : Span → Span → Prop} {i j : Import} (hi : i.Paired N T j) :
    i.localAlias = j.localAlias := by
  have halias? := hi.alias?
  rw [Import.localAlias, Import.localAlias, hi.path]
  generalize i.alias? = x, j.alias? = y at halias?
  cases halias? with
  | none => rfl
  | some hname => exact hname.name

/-- An import is followed to the same module. -/
theorem sameStep_nextModule {N : Span → Span → Prop} (h : c.Alike R d) (target : Phase)
    {s t : ScopeId} (hst : s = t) {i j : Import} (hi : i.Paired N T j) :
    SameStep Eq (Onward SameScopes (Context.Alike R) c d) (nextModule target s i c)
      (nextModule target t j d) := by
  obtain rfl := hst
  refine ⟨rel_eq ?_, .refl h⟩
  simp only [nextModule, localAlias_eq hi, h.scopes.importedKey?, h.canProcess]

/-- Resolution visits alike what differs in spans only. -/
theorem mirrors_resolver (hm : m.Alike R n) (hT : T ≤ R) :
    (resolver m).Mirrors Span.Free T SameScopes (Context.Alike R) (resolver n) where
  toAccords := accords_resolver (corresponds_alike hm hT) fun _ _ => trivial
  importing hst hi h := sameStep_nextModule h _ hst hi

/-- Type checking visits alike what differs in spans only. -/
theorem mirrors_checker (hm : m.Alike R n) (hT : T ≤ R) :
    (checker m).Mirrors Span.Free T SameScopes (Context.Alike R) (checker n) where
  toAccords := accords_checker (corresponds_alike hm hT) fun _ => trivial
  importing hst hi h := sameStep_nextModule h _ hst hi

/-! ### The passes -/

/-- Contexts that are alike at one fixed relation of places. -/
private def AlikeAt (R S : Span → Span → Prop) (c d : Context) : Prop := S = R ∧ c.Alike R d

private theorem after_alikeAt : After (AlikeAt R) R = Context.Alike R := by
  funext c d
  refine propext ⟨?_, fun h => .of ⟨rfl, h⟩⟩
  rintro ⟨S, -, -, h⟩
  exact h

private theorem mirrors_traversal (target : Phase) (pass : Pass) (activity : String)
    {visitor : Module → Visitor Context}
    (hvisitor : ∀ {T m n}, m.Alike R n → T ≤ R →
      (visitor m).Mirrors Span.Free T SameScopes (Context.Alike R) (visitor n)) :
    (traversal target pass activity visitor).Mirrors (AlikeAt R) where
  enter key h := by
    obtain ⟨rfl, h⟩ := h
    obtain ⟨hentered, hstates⟩ := h.enter key target pass activity
    exact ⟨hentered, rfl, hstates⟩
  visitor h hm hT := by
    obtain ⟨rfl, h⟩ := h
    rw [after_alikeAt]
    exact hvisitor hm hT
  leave key h := ⟨h.1, h.2.setPhase key target⟩
  giveUp _ h := h

private theorem alike_traverse (target : Phase) (pass : Pass) (activity : String)
    {visitor : Module → Visitor Context}
    (hvisitor : ∀ {T m n}, m.Alike R n → T ≤ R →
      (visitor m).Mirrors Span.Free T SameScopes (Context.Alike R) (visitor n))
    (key : String) (h : c.Alike R d) :
    (traverse (traversal target pass activity visitor) key c).Alike R
      (traverse (traversal target pass activity visitor) key d) := by
  have hends := (mirrors_traversal target pass activity hvisitor).runWithin
    (c.modules.length + 1) key ⟨rfl, h⟩
  rw [after_alikeAt] at hends
  rw [traverse, traverse, ← h.modules.length_eq]
  exact hends

/-- Resolution keeps contexts alike. -/
theorem Alike.resolve (h : c.Alike R d) (key : String) : (c.resolve key).Alike R (d.resolve key) :=
  alike_traverse _ _ _ mirrors_resolver key h

/-- Type checking keeps contexts alike. -/
theorem Alike.check (h : c.Alike R d) (key : String) : (c.check key).Alike R (d.check key) :=
  alike_traverse _ _ _ mirrors_checker key h

end Sable.Context
