import Sable.Context.Collection
import Sable.Proofs.Module.Lockstep
import Sable.Proofs.Scope.Alike

/-!
# Declarations in lockstep

Two walks of the first pass over trees that differ in spans only declare the same names in the same
order. So it is enough to know of a relation between compilations that it survives one declaration,
which opens scopes that belong together, and one report in related places. What an import does is
left open.
-/

namespace Sable.Compilation

/-- What the first pass needs of a relation between compilations in which it walks two modules. -/
structure Corresponds (N T : Span → Span → Prop)
    (K : Compilation → Compilation → ScopeId → ScopeId → Prop) (m n : Module)
    (L : Compilation → Compilation → Prop) : Prop where
  /-- A name stands where a node may stand. -/
  names : T ≤ N
  /-- The nearest declarations of a name have the same kind, and members that belong together. -/
  visible? : ∀ {c d s t}, L c d → K c d s t → ∀ name,
    Option.Rel (fun x y => x.kind = y.kind ∧ Option.Rel (K c d) x.members? y.members?)
      (c.context.scopes.visible? s name) (d.context.scopes.visible? t name)
  /-- The same name may be declared; the scopes of its members belong together. -/
  declare : ∀ {c d s t name name'}, L c d → K c d s t → ∀ kind, name.Alike T name' →
    SameStep (K (c.declare m s kind name).2 (d.declare n t kind name').2) (Onward K L c d)
      (c.declare m s kind name) (d.declare n t kind name')
  /-- The same problem may be reported. -/
  reportIn : ∀ {c d x y message message'}, L c d → N x y → message = message' →
    Onward K L c d (c.reportIn m x message) (d.reportIn n y message')

variable {N T : Span → Span → Prop} {K : Compilation → Compilation → ScopeId → ScopeId → Prop}
  {m n : Module} {L : Compilation → Compilation → Prop} {c d : Compilation} {s t : ScopeId}

/-- The names of parts that differ in spans only stand in related places. -/
theorem alike_names {α : Type} {Q : α → α → Prop} {name : α → Ident} {xs ys : List α}
    (h : List.Forall₂ Q xs ys) (hname : ∀ {x y}, Q x y → (name x).Alike T (name y)) :
    List.Forall₂ (Ident.Alike T) (xs.map name) (ys.map name) :=
  List.forall₂_map_left_iff.mpr (List.forall₂_map_right_iff.mpr (h.imp fun _ _ => hname))

section

variable (h : Corresponds N T K m n L)
include h

theorem onward_declareAll (hcd : L c d) (hst : K c d s t) (kind : SymbolKind)
    {names names' : List Ident} (hnames : List.Forall₂ (Ident.Alike T) names names') :
    Onward K L c d (c.declareAll m s kind names) (d.declareAll n t kind names') := by
  rw [declareAll, declareAll]
  induction hnames generalizing c d with
  | nil => exact .refl hcd
  | cons hname _ ih =>
    have hfirst := (h.declare hcd hst kind hname).2
    exact hfirst.trans (ih hfirst.related (hfirst.scopes hst))

theorem onward_collectTypeDecl (hcd : L c d) (hst : K c d s t) {D E : TypeDecl}
    (hD : D.Paired N T E) : Onward K L c d (c.collectTypeDecl m s D) (d.collectTypeDecl n t E) := by
  obtain ⟨hmembers, hstates⟩ := h.declare hcd hst .type hD.name
  have hty := hD.ty
  rw [collectTypeDecl, collectTypeDecl]
  generalize c.declare m s .type D.name = r, d.declare n t .type E.name = r' at hmembers hstates
  obtain ⟨members?, c'⟩ := r
  obtain ⟨members?', d'⟩ := r'
  cases hmembers with
  | none => exact hstates
  | some hmembers =>
    generalize D.ty = ty, E.ty = ty' at hty
    cases hty with
    | struct _ hfields =>
      refine hstates.trans (onward_declareAll h hstates.related hmembers .field ?_)
      refine alike_names hfields ?_
      rintro _ _ ⟨_, hname, _⟩
      exact hname
    | _ => exact hstates

/-- A receiver leads to members that belong together, or is wrong for the same reason. -/
theorem outcomes_receiverMembers (hcd : L c d) (hst : K c d s t) {receiver receiver' : Param}
    (hreceiver : receiver.Paired N T receiver') :
    Outcomes (fun e f => N e.1 f.1 ∧ e.2 = f.2) (K c d)
      (receiverMembers c.context.scopes s receiver)
      (receiverMembers d.context.scopes t receiver') := by
  have hty := hreceiver.ty
  have hspan := hty.span h.names
  rw [receiverMembers, receiverMembers]
  generalize receiver.ty = ty, receiver'.ty = ty' at hty hspan
  cases hty with
  | @named name name' hname =>
    have hx := h.visible? hcd hst name.name
    have hplace := h.names _ _ hname.span
    simp only [← hname.name]
    generalize c.context.scopes.visible? s name.name = x?,
      d.context.scopes.visible? t name.name = y? at hx
    cases hx with
    | none => exact .error ⟨hplace, rfl⟩
    | @some x y hxy =>
      obtain ⟨hkind, hmembers⟩ := hxy
      simp only [hkind]
      split
      · generalize x.members? = u?, y.members? = v? at hmembers
        cases hmembers with
        | none => exact .error ⟨hplace, rfl⟩
        | some huv => exact .ok huv
      · exact .error ⟨hplace, rfl⟩
  | _ => exact .error ⟨hspan, rfl⟩

/-- A method is declared among members that belong together. -/
theorem sameStep_declareMethod (hcd : L c d) (hst : K c d s t) {receiver receiver' : Param}
    {name name' : Ident} (hreceiver : receiver.Paired N T receiver') (hname : name.Alike T name') :
    SameStep (K (c.declareMethod m s receiver name).2 (d.declareMethod n t receiver' name').2)
      (Onward K L c d) (c.declareMethod m s receiver name)
      (d.declareMethod n t receiver' name') := by
  have hmembers := outcomes_receiverMembers h hcd hst hreceiver
  rw [declareMethod, declareMethod]
  generalize receiverMembers c.context.scopes s receiver = x,
    receiverMembers d.context.scopes t receiver' = y at hmembers
  cases hmembers with
  | error he => exact ⟨.none, h.reportIn hcd he.1 he.2⟩
  | @ok members members' hmembers =>
    obtain ⟨hbody, hstates⟩ := h.declare hcd hmembers .method hname
    dsimp only
    generalize c.declare m members .method name = r, d.declare n members' .method name' = r'
      at hbody hstates
    obtain ⟨body?, c'⟩ := r
    obtain ⟨body?', d'⟩ := r'
    cases hbody with
    | none => exact ⟨.none, hstates⟩
    | some hbody =>
      have hlast := (h.declare hstates.related hbody .var hreceiver.name).2
      exact ⟨.some (hlast.scopes hbody), hstates.trans hlast⟩

/-- The parameters of a function are declared in bodies that belong together. -/
theorem onward_declareParams (hcd : L c d) {body body' : ScopeId} (hbody : K c d body body')
    {params params' : List Param} (hparams : List.Forall₂ (Param.Paired N T) params params') :
    Onward K L c d (c.declareAll m body .var (params.map Param.name))
      (d.declareAll n body' .var (params'.map Param.name)) :=
  onward_declareAll h hcd hbody .var (alike_names hparams fun hp => hp.name)

theorem sameStep_collectFunction (hcd : L c d) (hst : K c d s t) {name name' : Ident}
    {params params' : List Param} (hname : name.Alike T name')
    (hparams : List.Forall₂ (Param.Paired N T) params params') :
    SameStep (K (c.collectFunction m s name params).2 (d.collectFunction n t name' params').2)
      (Onward K L c d) (c.collectFunction m s name params)
      (d.collectFunction n t name' params') := by
  obtain ⟨hbody, hstates⟩ := h.declare hcd hst .func hname
  rw [collectFunction, collectFunction]
  generalize c.declare m s .func name = r, d.declare n t .func name' = r' at hbody hstates
  obtain ⟨body?, c'⟩ := r
  obtain ⟨body?', d'⟩ := r'
  cases hbody with
  | none => exact ⟨.none, hstates⟩
  | some hbody =>
    have hlast := onward_declareParams h hstates.related hbody hparams
    exact ⟨.some (hlast.scopes hbody), hstates.trans hlast⟩

theorem sameStep_collectMethod (hcd : L c d) (hst : K c d s t) {receiver receiver' : Param}
    {name name' : Ident} {params params' : List Param} (hreceiver : receiver.Paired N T receiver')
    (hname : name.Alike T name') (hparams : List.Forall₂ (Param.Paired N T) params params') :
    SameStep (K (c.collectMethod m s receiver name params).2
        (d.collectMethod n t receiver' name' params').2)
      (Onward K L c d) (c.collectMethod m s receiver name params)
      (d.collectMethod n t receiver' name' params') := by
  obtain ⟨hbody, hstates⟩ := sameStep_declareMethod h hcd hst hreceiver hname
  rw [collectMethod, collectMethod]
  generalize c.declareMethod m s receiver name = r, d.declareMethod n t receiver' name' = r'
    at hbody hstates
  obtain ⟨body?, c'⟩ := r
  obtain ⟨body?', d'⟩ := r'
  cases hbody with
  | none => exact ⟨.none, hstates⟩
  | some hbody =>
    have hlast := onward_declareParams h hstates.related hbody hparams
    exact ⟨.some (hlast.scopes hbody), hstates.trans hlast⟩

/-- Collection visits alike where the same may be declared. -/
theorem accords_collector : (collector m).Accords N T K L (collector n) where
  function hst hname hparams _ hcd := sameStep_collectFunction h hcd hst hname hparams
  method hst hreceiver hname hparams _ hcd :=
    sameStep_collectMethod h hcd hst hreceiver hname hparams
  typeDecl hst hD hcd := onward_collectTypeDecl h hcd hst hD
  declaring isConst hst htargets _ _ hcd :=
    onward_declareAll h hcd hst (varKind isConst) (alike_names htargets fun ht => ht.name)
  declared _ _ _ hcd := .refl hcd
  assigning _ _ _ hcd := .refl hcd
  name _ _ hcd := .refl hcd
  qualified _ _ _ hcd := .refl hcd

end

end Sable.Compilation
