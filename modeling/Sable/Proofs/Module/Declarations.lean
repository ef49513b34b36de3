import Sable.Scope
import Sable.Proofs.Module.History
import Sable.Proofs.Module.Sites
import Sable.Proofs.Syntax.Binders

/-!
# Declarations in source order

The script of a module shows its declarations in the order of the source. A declaration that comes
behind another one of the same name in the same scope is refused, and what stands inside it declares
nothing; neither does a method whose receiver names no type that has been declared by then. Whether
a declaration is refused is decided by the declarations in front of it alone. Only the numbers of the
scopes that declarations open are looked up in a forest.
-/

namespace Sable

/-- One declaration of a name, in the scope that is to bind it. -/
structure Declaration where
  /-- The scope. -/
  scope : ScopeId
  /-- What the name is declared to be. -/
  kind : SymbolKind
  /-- The name, and where it stands. -/
  name : Ident
  deriving DecidableEq, Repr

/-- The scope of the members of what a name is bound to in a scope itself. -/
def ScopeForest.membersOf? (F : ScopeForest) (s : ScopeId) (name : String) : Option ScopeId :=
  (F.symbol? s name).bind Symbol.members?

namespace Declaration

/-- The first declaration of a name in a scope. -/
def first? (D : List Declaration) (s : ScopeId) (name : String) : Option Declaration :=
  D.find? fun d => d.scope == s && d.name.name == name

/-- Whether a declaration comes behind another one of its name in its scope. -/
def refused (d : Declaration) (D : List Declaration) : Bool := (first? D d.scope d.name.name).isSome

/-- The names of those of a list of declarations that are refused behind others. -/
def refusedFrom (D : List Declaration) : List Declaration → List Ident
  | [] => []
  | d :: E => (if d.refused D then [d.name] else []) ++ refusedFrom (D ++ [d]) E

variable (F : ScopeForest) (D : List Declaration)

/-- The scope that a declaration opens, unless it is refused. -/
def inner? (d : Declaration) : Option ScopeId :=
  if d.refused D then none else F.membersOf? d.scope d.name.name

/-- A declaration and, unless it is refused, those of names inside it. -/
def withNames (d : Declaration) (kind : SymbolKind) (names : List Ident) : List Declaration :=
  d :: (d.inner? F D).elim [] fun t => names.map fun name => ⟨t, kind, name⟩

/--
The scope of the members of the type that a receiver names: the nearest declaration of the name, from
a scope outward, has to be that of a type.
-/
def receiverScope? (s : ScopeId) (receiver : Param) : Option ScopeId :=
  match receiver.ty with
  | .named name => ((F.chain s).findSome? fun t => first? D t name.name).bind fun d =>
      if d.kind.isType then F.membersOf? d.scope name.name else none
  | _ => none

end Declaration

/-- The names that stand for the arguments of a function or a method, the receiver among them. -/
def Head.argumentNames (h : Head) : List Ident := (h.receiver?.toList ++ h.params).map Param.name

section

variable (F : ScopeForest) (D : List Declaration) (s : ScopeId)

/-- What a place that stays in its scope declares. -/
def Stop.declarations : Stop → List Declaration
  | .typeDecl d => Declaration.withNames F D ⟨s, .type, d.name⟩ .field d.fieldNames
  | .declaring isConst targets _ _ =>
    targets.map fun b => ⟨s, if isConst then .const else .var, b.name⟩
  | _ => []

/-- The declaration of a function or a method, unless its receiver is rejected. -/
def Head.declaration? (h : Head) : Option Declaration :=
  match h.receiver? with
  | none => some ⟨s, .func, h.name⟩
  | some receiver =>
    (Declaration.receiverScope? F D s receiver).map fun t => ⟨t, .method, h.name⟩

/-- What the head of a function or a method declares. -/
def Head.declarations (h : Head) : List Declaration :=
  (h.declaration? F D s).elim [] fun d => d.withNames F D .var h.argumentNames

/-- The scope of the body of a function or a method, unless it is rejected. -/
def Head.body? (h : Head) : Option ScopeId := (h.declaration? F D s).bind (Declaration.inner? F D)

end

mutual

/-- The declarations up to the end of a step in a scope, from those in front of it. -/
def Step.declared (F : ScopeForest) (s : ScopeId) : Step → List Declaration → List Declaration
  | .importing _, D => D
  | .stop x, D => D ++ x.declarations F D s
  | .body h ys, D =>
    match h.body? F D s with
    | none => D ++ h.declarations F D s
    | some t => Step.declaredAll F t ys (D ++ h.declarations F D s)

/-- The declarations up to the end of a script in a scope, from those in front of it. -/
def Step.declaredAll (F : ScopeForest) (s : ScopeId) :
    List Step → List Declaration → List Declaration
  | [], D => D
  | y :: ys, D => Step.declaredAll F s ys (Step.declared F s y D)

end

/-- The declarations of a module in the order of the source. -/
def Module.declarations (m : Module) (F : ScopeForest) : List Declaration :=
  Step.declaredAll F m.root m.program.steps []

/-! ### Where the names stand -/

/-- A field that the declaration of a type states stands in it. -/
theorem TypeDecl.name_mem_sites_of_field {d : TypeDecl} {name : Ident} (h : name ∈ d.fieldNames) :
    .name name ∈ d.sites := by
  unfold fieldNames at h
  split at h
  · next fields span hty =>
    obtain ⟨field, hfield, rfl⟩ := List.mem_map.mp h
    have hmem : .name field.name ∈ FieldDecl.sitesAll fields := by
      rw [FieldDecl.sitesAll_eq_flatMap]
      refine List.mem_flatMap.mpr ⟨field, hfield, ?_⟩
      cases field
      simp [FieldDecl.sites, FieldDecl.name]
    simp [TypeDecl.sites, hty, TypeExpr.sites, hmem]
  · cases h

/-- The name of an argument stands in the head. -/
theorem Head.name_mem_sites_of_argument {h : Head} {name : Ident} (hname : name ∈ h.argumentNames) :
    .name name ∈ h.sites := by
  obtain ⟨p, hp, rfl⟩ := List.mem_map.mp hname
  have hsite : .name p.name ∈ p.sites := by simp [Param.sites]
  rcases List.mem_append.mp hp with hp | hp
  · exact List.mem_append_left _ (List.mem_flatMap.mpr ⟨p, hp, hsite⟩)
  · refine List.mem_append_right _ (List.mem_cons_of_mem _ (List.mem_append_left _ ?_))
    exact List.mem_flatMap.mpr ⟨p, hp, hsite⟩

theorem Head.name_mem_sites (h : Head) : .name h.name ∈ h.sites := by simp [Head.sites]

/-! ### Refused declarations -/

namespace Declaration

variable (D E : List Declaration) (s : ScopeId) (name : String)

theorem first?_append : first? (D ++ E) s name = (first? D s name).or (first? E s name) :=
  List.find?_append

theorem first?_singleton (d : Declaration) :
    first? [d] s name = if s = d.scope ∧ name = d.name.name then some d else none := by
  simp [first?, List.find?_singleton, @eq_comm _ s, @eq_comm _ name]

theorem refusedFrom_append (E' : List Declaration) :
    refusedFrom D (E ++ E') = refusedFrom D E ++ refusedFrom (D ++ E) E' := by
  induction E generalizing D with
  | nil => rw [List.nil_append, refusedFrom, List.nil_append, List.append_nil]
  | cons d E ih =>
    rw [List.cons_append, refusedFrom, refusedFrom, ih, List.append_assoc, List.append_assoc,
      List.singleton_append]

variable {D s name} {d : Declaration}

/-- The first declaration of a name in a scope is one there. -/
theorem of_first? (h : first? D s name = some d) : d ∈ D ∧ d.scope = s ∧ d.name.name = name := by
  refine ⟨List.mem_of_find?_eq_some h, ?_⟩
  simpa using List.find?_some h

end Declaration

/-! ### Declarations along a walk -/

namespace Visit

variable {F : ScopeForest} {D E : List Declaration} {s : ScopeId} {L K : List Visit}

/--
The visits of a walk lead from declarations to declarations: bodies are found in the scopes that the
declarations of their functions open, and each visit declares what stands there.
-/
inductive Leads (F : ScopeForest) : List Declaration → List Visit → List Declaration → Prop
  | nil {D : List Declaration} : Leads F D [] D
  | importing {D E : List Declaration} {s : ScopeId} {i : Import} {L : List Visit} :
    Leads F D L E → Leads F D (.importing s i :: L) E
  | stop {D E : List Declaration} {s : ScopeId} {x : Stop} {L : List Visit} :
    Leads F (D ++ x.declarations F D s) L E → Leads F D (.stop s x :: L) E
  | head {D E : List Declaration} {s : ScopeId} {h : Head} {L : List Visit} :
    Leads F (D ++ h.declarations F D s) L E → Leads F D (.head s h (h.body? F D s) :: L) E

/-- Visits that follow each other lead to what the later ones lead to. -/
theorem leads_append :
    Leads F D (L ++ K) E ↔ ∃ D', Leads F D L D' ∧ Leads F D' K E := by
  constructor
  · intro h
    induction L generalizing D with
    | nil => exact ⟨D, .nil, h⟩
    | cons v L ih =>
      cases h with
      | importing h => exact (ih h).imp fun _ => .imp_left .importing
      | stop h => exact (ih h).imp fun _ => .imp_left .stop
      | head h => exact (ih h).imp fun _ => .imp_left .head
  · rintro ⟨D', hL, hK⟩
    induction hL with
    | nil => exact hK
    | importing _ ih => exact .importing (ih hK)
    | stop _ ih => exact .stop (ih hK)
    | head _ ih => exact .head (ih hK)

/-- The visits that spell a script lead to the declarations that the script makes. -/
theorem Leads.eq_declaredAll {ys : List Step} (h : Leads F D L E) (hL : Spells s ys L) :
    E = Step.declaredAll F s ys D := by
  induction hL generalizing D E with
  | nil =>
    cases h
    rfl
  | importing _ ih =>
    cases h with
    | importing h => exact ih h
  | stop _ ih =>
    cases h with
    | stop h => exact ih h
  | @skip s hd zs ys L _ ih =>
    generalize hbody : (none : Option ScopeId) = inner? at h
    cases h with
    | head h =>
      rw [Step.declaredAll, Step.declared, ← hbody]
      exact ih h
  | @body s t hd zs ys K L _ _ ihK ihL =>
    generalize hbody : some t = inner? at h
    cases h with
    | head h =>
      obtain ⟨D', hK, hL⟩ := leads_append.mp h
      rw [Step.declaredAll, Step.declared, ← hbody]
      exact (ihL hL).trans (congrArg _ (ihK hK))

end Visit

end Sable
