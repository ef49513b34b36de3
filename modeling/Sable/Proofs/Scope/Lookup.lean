import Sable.Context.Typing
import Sable.Proofs.Scope.Typed
import Sable.Proofs.Syntax.Receivers
import Sable.Proofs.Module.Chart

/-!
# Lookups of declarations

Which scope holds the body of a function or a method is looked up among the declarations. A
lookup finds the same as long as the scopes that it comes by declare the same; what it has found
in a scope itself, it goes on to find whatever is declared later.
-/

namespace Sable.ScopeForest

/-- The scope of the body of a method: its members, in those of the type of its receiver. -/
def methodBody? (F : ScopeForest) (s : ScopeId) (receiver : Param) (name : Ident) :
    Option ScopeId :=
  (Context.methodScope F s receiver).bind fun members => F.declaredMembers? members name

variable {F G : ScopeForest} {s : ScopeId}

/-! ### Bodies of methods -/

/-- The members of the type of a receiver lie in the tree that it is seen from. -/
theorem methodScope_mem (h : F.Sound) {r t : ScopeId} {receiver : Param}
    (hr : F.parent? r = some 0) (hs : r ∈ F.chain s) (hreceiver : receiver.ty.NamesNoBuiltin)
    (ht : Context.methodScope F s receiver = some t) : r ∈ F.chain t := by
  unfold Context.methodScope at ht
  split at ht
  · next typeName hty => exact typeMembers?_mem h hr hs (hreceiver typeName hty) ht
  · cases ht

/-- The body of a method lies in the tree that the method stands in. -/
theorem methodBody?_mem (h : F.Sound) {r t : ScopeId} {receiver : Param} {name : Ident}
    (hr : F.parent? r = some 0) (hs : r ∈ F.chain s) (hreceiver : receiver.ty.NamesNoBuiltin)
    (ht : F.methodBody? s receiver name = some t) : r ∈ F.chain t := by
  obtain ⟨members, hmembers, hbody⟩ := Option.bind_eq_some_iff.mp ht
  exact declaredMembers?_mem h (methodScope_mem h hr hs hreceiver hmembers) hbody

/-- The body of a method lies where it lies without the types. -/
theorem methodBody?_untyped (F : ScopeForest) (s : ScopeId) (receiver : Param) (name : Ident) :
    F.untyped.methodBody? s receiver name = F.methodBody? s receiver name := by
  simp only [methodBody?, Context.methodScope, typeMembers?_untyped, declaredMembers?_untyped]

/-! ### Lookups by declarations -/

/-- A name is looked up in a scope itself among its declarations. -/
theorem find?_declarations (F : ScopeForest) (s : ScopeId) (name : String) :
    (F.declarations s).find? (fun x => x.name == name) =
      (F.symbol? s name).map Symbol.untyped := by
  rw [declarations, find?_untyped]
  cases hs : F.scope? s with
  | none => simp [symbol?, symbols, hs]
  | some scope => simp [symbol?, symbols, hs, Scope.find?]

theorem symbol?_congr (h : G.declarations s = F.declarations s) (name : String) :
    (G.symbol? s name).map Symbol.untyped = (F.symbol? s name).map Symbol.untyped := by
  rw [← find?_declarations, h, find?_declarations]

theorem declaredMembers?_congr (h : G.declarations s = F.declarations s) (name : Ident) :
    G.declaredMembers? s name = F.declaredMembers? s name := by
  rw [← declaredMembers?_untyped, ← declaredMembers?_untyped F]
  simp only [declaredMembers?, symbol?_untyped, symbol?_congr h]

/-- Whether a name is bound by its declaration is seen from the declarations. -/
theorem binds_of_declarations (h : G.declarations s = F.declarations s) (name : Ident) :
    G.binds s name = F.binds s name := by
  rw [← binds_untyped, ← binds_untyped F]
  simp only [binds, symbol?_untyped, symbol?_congr h]

/-- A name means the same from a scope, but for its type, if the chain shows the same names. -/
theorem visible?_congr (hchain : G.chain s = F.chain s)
    (h : ∀ t ∈ F.chain s, G.declarations t = F.declarations t) (name : String) :
    (G.visible? s name).map Symbol.untyped = (F.visible? s name).map Symbol.untyped := by
  rw [← visible?_untyped, ← visible?_untyped]
  simp only [visible?, locate?, chain_untyped, symbol?_untyped, hchain]
  generalize F.chain s = ts at h
  induction ts with
  | nil => rfl
  | cons t ts ih =>
    rw [List.forall_mem_cons] at h
    have htail := ih h.2
    simp only [List.findSome?_cons, symbol?_congr h.1 name]
    cases (F.symbol? t name).map Symbol.untyped with
    | none => exact htail
    | some x => rfl

theorem typeMembers?_congr (hchain : G.chain s = F.chain s)
    (h : ∀ t ∈ F.chain s, G.declarations t = F.declarations t) (name : String) :
    G.typeMembers? s name = F.typeMembers? s name := by
  rw [← typeMembers?_untyped, ← typeMembers?_untyped F]
  simp only [typeMembers?, visible?_untyped, visible?_congr hchain h name]

theorem methodScope_congr (hchain : G.chain s = F.chain s)
    (h : ∀ t ∈ F.chain s, G.declarations t = F.declarations t) (receiver : Param) :
    Context.methodScope G s receiver = Context.methodScope F s receiver := by
  unfold Context.methodScope
  split
  · exact typeMembers?_congr hchain h _
  · rfl

theorem methodBody?_congr {receiver : Param} (hchain : G.chain s = F.chain s)
    (h : ∀ t ∈ F.chain s, G.declarations t = F.declarations t)
    (hmembers : ∀ t ∈ Context.methodScope F s receiver, G.declarations t = F.declarations t)
    (name : Ident) : G.methodBody? s receiver name = F.methodBody? s receiver name := by
  simp only [methodBody?, methodScope_congr hchain h]
  cases ht : Context.methodScope F s receiver with
  | none => rfl
  | some t => exact declaredMembers?_congr (hmembers t ht) name

/-- A name that means nothing means nothing with types either. -/
theorem visible?_eq_none_congr (h : G.untyped = F.untyped) (s : ScopeId) (name : String) :
    G.visible? s name = none ↔ F.visible? s name = none := by
  have hsame := congrArg (fun H => H.visible? s name) h
  simp only [visible?_untyped] at hsame
  rw [← Option.map_eq_none_iff, hsame, Option.map_eq_none_iff]

/-! ### What a declaration adds -/

/-- Just a name that is declared already is refused, and it is reported where it stands. -/
theorem of_declare_error {F : ScopeForest} {s : ScopeId} {name : Ident} {kind : SymbolKind}
    {ty? : Option Ty} {e : DuplicateSymbol} (h : F.declare s name kind ty? = .error e) :
    (F.symbol? s name.name).isSome = true ∧ e = ⟨name.name, name.span⟩ := by
  unfold declare at h
  split at h
  · next hbound => exact ⟨hbound, (Except.error.inj h).symm⟩
  · cases h

/-- Only a name that is free is declared. -/
theorem symbol?_eq_none_of_declare {name : Ident} {kind : SymbolKind} {ty? : Option Ty}
    {members? : Option ScopeId} (h : F.declare s name kind ty? = .ok (members?, G)) :
    F.symbol? s name.name = none := by
  unfold declare at h
  split at h
  · cases h
  · next hfree => exact Option.not_isSome_iff_eq_none.mp hfree

/-- A name that is declared has its own members, whatever is declared elsewhere. -/
theorem declaredMembers?_declare {s : Nat} {name : Ident} {kind : SymbolKind} {ty? : Option Ty}
    {members? : Option ScopeId} (hs : s < F.size)
    (h : F.declare s name kind ty? = .ok (members?, G)) :
    G.declaredMembers? s name = members? := by
  have hfree := symbol?_eq_none_of_declare h
  have hfind := find?_declarations F s name.name
  rw [hfree, Option.map_none] at hfind
  have hnew := find?_declarations G s name.name
  rw [declarations_declare hs h s, if_pos rfl, List.find?_append, hfind, Option.none_or,
    List.find?_singleton, if_pos (by simp)] at hnew
  rw [← declaredMembers?_untyped, declaredMembers?, symbol?_untyped, ← hnew]
  exact if_pos rfl

/-- A kind with members gets a scope for them. -/
theorem isSome_of_declare {name : Ident} {kind : SymbolKind} {ty? : Option Ty}
    {members? : Option ScopeId} (hkind : kind.opensScope = true)
    (h : F.declare s name kind ty? = .ok (members?, G)) : members?.isSome := by
  unfold declare at h
  split at h
  · cases h
  · obtain ⟨rfl, -⟩ := Prod.mk.inj (Except.ok.inj h)
    rfl

/-! ### What later declarations leave alone -/

/-- A declared name goes on to stand for its declaration. -/
theorem Precedes.exists_symbol? (h : F.Precedes G) {name : String} {x : Symbol}
    (hx : F.symbol? s name = some x) :
    ∃ y, G.symbol? s name = some y ∧ y.untyped = x.untyped := by
  have hfind := find?_declarations F s name
  rw [hx, Option.map_some] at hfind
  have hlater := (h.declarations s).find?_eq_some hfind
  rw [find?_declarations] at hlater
  exact Option.map_eq_some_iff.mp hlater

/-- The members of a declaration go on to be where they are. -/
theorem Precedes.declaredMembers?_eq (h : F.Precedes G) {name : Ident} {t : ScopeId}
    (ht : F.declaredMembers? s name = some t) : G.declaredMembers? s name = some t := by
  cases hx : F.symbol? s name.name with
  | none => simp [declaredMembers?, hx] at ht
  | some x =>
    obtain ⟨y, hy, hsame⟩ := h.exists_symbol? hx
    obtain ⟨-, -, -, hspan, hmembers⟩ := Symbol.mk.inj hsame
    simp only [declaredMembers?, hx] at ht
    simp only [declaredMembers?, hy]
    rwa [show y.span = x.span from hspan, show y.members? = x.members? from hmembers]

/-- A scope goes on to lie where it lies. -/
theorem Precedes.parent?_eq (h : F.Precedes G) {t : ScopeId} (ht : F.parent? s = some t) :
    G.parent? s = some t := (h.parent s (lt_size_of_parent? ht)).trans ht

/-- A name that means nothing later means nothing before. -/
theorem Precedes.visible?_eq_none (h : F.Precedes G) (hF : F.Sound) (hG : G.Sound)
    {name : String} (hnone : G.visible? s name = none) : F.visible? s name = none := by
  by_contra hsome
  obtain ⟨x, hx⟩ := Option.ne_none_iff_exists'.mp hsome
  obtain ⟨t, ht, hsymbol⟩ := exists_of_visible? hx
  obtain ⟨y, hy, -⟩ := h.exists_symbol? hsymbol
  have hchain := chain_eq_of_parent hF hG h.size_le h.parent (lt_size_of_mem_chain ht)
  rw [visible?, locate?, Option.map_eq_none_iff, List.findSome?_eq_none_iff, hchain] at hnone
  simpa [hy] using hnone t ht

/-- The members of a declaration lie in the scope that declares it. -/
theorem parent?_of_declaredMembers? (hF : F.Sound) {name : Ident} {t : ScopeId}
    (ht : F.declaredMembers? s name = some t) : F.parent? t = some s := by
  cases hx : F.symbol? s name.name with
  | none => simp [declaredMembers?, hx] at ht
  | some x =>
    simp only [declaredMembers?, hx] at ht
    split at ht
    · exact hF.members (mem_symbols_of_symbol? hx).1 ht
    · cases ht

end Sable.ScopeForest

/-!
## Routes on the tables

The tables of a forest say which scope belongs to the body of a function or a method: the members
of the declaration at its place. From them the route of a walk over a module can be read off. It
stays what it is as long as nothing is declared in the tree of the module, since a receiver names
no builtin type and so leads to no other tree.
-/

namespace Sable.ScopeForest

/-- The visitor that finds the scopes of bodies on the tables, and does nothing. -/
def lookups (F : ScopeForest) : Visitor Unit where
  importing _ _ u := (none, u)
  function s name _ _ u := (F.declaredMembers? s name, u)
  method s receiver name _ _ u := (F.methodBody? s receiver name, u)
  typeDecl _ _ u := u
  declaring _ _ _ _ _ u := u
  declared _ _ _ u := u
  assigning _ _ _ u := u
  name _ _ u := u
  qualified _ _ _ u := u

/-- The route of a walk over a module, as the tables have it. -/
def route (F : ScopeForest) (m : Module) : List Landmark :=
  (F.lookups.charted.walkStmts Visitor.stay m.root m.program.stmts (.start ())).route

/--
The receiver of a method leads to the scope that holds the body of the method; functions have no
receiver that could lead elsewhere.
-/
def Steady (F : ScopeForest) : Landmark → Prop
  | .body s (some receiver) _ inner => Context.methodScope F s receiver = F.parent? inner
  | _ => True

variable {F G : ScopeForest} {s : ScopeId}

/-! ### Routes -/

section

variable {m : Module} (hF : F.Sound) (hroot : F.parent? m.root = some 0)
  (hplaces : ∀ p ∈ m.program.places, p.Parsed)

include hF hroot hplaces

/-- The scopes of bodies in the tree of a module lie in the tree. -/
private theorem visits_lookups :
    F.lookups.Visits (· ∈ m.program.places) (fun _ _ => True)
      (fun s _ => m.root ∈ F.chain s) (fun _ _ => True) := by
  constructor
  case function =>
    intro s u name params ret hs
    refine ⟨trivial, fun inner hinner => ⟨?_, fun _ _ => trivial⟩⟩
    exact declaredMembers?_mem hF hs hinner
  case method =>
    intro s u receiver name params ret hr hs
    refine ⟨trivial, fun inner hinner => ⟨?_, fun _ _ => trivial⟩⟩
    exact methodBody?_mem hF hroot hs (hplaces _ hr) hinner
  all_goals
    intros
    trivial

/-- A walk that finds the scopes of bodies on the tables stays in the tree of the module. -/
private theorem keeps_lookups {A : Landmark → Prop}
    (hbody : ∀ {s} receiver? name inner, F.lookups.Finds s receiver? name inner () () →
      A (.body s receiver? name inner)) (hname : ∀ s name, A (.name s name)) :
    F.lookups.charted.Keeps Visitor.stay (· ∈ m.program.places) (fun _ _ => True)
      (fun s _ => m.root ∈ F.chain s)
      fun c d => (∀ x ∈ c.route, A x) → ∀ x ∈ d.route, A x :=
  { (visits_lookups hF hroot hplaces).charted
      (R := fun c d => (∀ x ∈ c.route, A x) → ∀ x ∈ d.route, A x) (fun _ _ h => h)
      (fun receiver? name inner _ _ hfound h => List.forall_mem_append.mpr
        ⟨h, List.forall_mem_singleton.mpr (hbody receiver? name inner hfound)⟩)
      (fun name _ _ h => List.forall_mem_append.mpr
        ⟨h, List.forall_mem_singleton.mpr (hname _ name)⟩) with
    refl := fun _ h => h
    trans := fun h h' hc => h' (h hc)
    later := fun _ hs => hs
    importing := fun _ _ _ h => h }

/-- What a walk finds on the tables is steady. -/
theorem steady_of_mem_route {x : Landmark} (hx : x ∈ F.route m) : F.Steady x := by
  have hself : m.root ∈ F.chain m.root := mem_chain_self (lt_size_of_parent? hroot)
  have hkeeps := keeps_lookups hF hroot hplaces (A := F.Steady)
    (by
      rintro s (_ | receiver) name inner ⟨params, ret, hfound⟩
      · trivial
      · obtain ⟨members, hmembers, hbody⟩ :=
          Option.bind_eq_some_iff.mp (Prod.mk.inj hfound).1
        exact hmembers.trans (parent?_of_declaredMembers? hF hbody).symm)
    fun _ _ => trivial
  exact Visitor.walkStmts_keeps hkeeps m.program.stmts (fun _ hp => hp) (fun _ _ => trivial) hself
    (by simp [Charted.start]) x hx

/-- The route of a walk stays what it is as long as nothing is declared in the tree. -/
theorem route_eq (hG : G.Sound) (h : F.Precedes G)
    (hzero : G.declarations 0 = F.declarations 0)
    (hsame : ∀ s, m.root ∈ F.chain s → G.declarations s = F.declarations s) :
    G.route m = F.route m := by
  have hself : m.root ∈ F.chain m.root := mem_chain_self (lt_size_of_parent? hroot)
  have hreads : F.lookups.Reads G.lookups (· ∈ m.program.places)
      (fun s _ => m.root ∈ F.chain s) (fun _ => True) (fun _ => True) := by
    constructor
    · intro s u name params ret hs _
      exact (declaredMembers?_congr (hsame s hs) name).symm
    · intro s u receiver name params ret hr hs _ _
      have hchain := chain_eq_of_parent hF hG h.size_le h.parent (lt_size_of_mem_chain hs)
      have hall : ∀ t ∈ F.chain s, G.declarations t = F.declarations t := by
        intro t ht
        rcases mem_chain_or_eq_zero hF hroot hs ht with ht | rfl
        · exact hsame t ht
        · exact hzero
      refine (methodBody?_congr hchain hall (fun t ht => ?_) name).symm
      exact hsame t (methodScope_mem hF hroot hs (hplaces _ hr) ht)
  have hkeeps := keeps_lookups hF hroot hplaces (A := fun _ => True)
    (fun _ _ _ _ => trivial) fun _ _ => trivial
  exact (Visitor.walkStmts_reads hkeeps hreads (fun _ _ => ⟨trivial, fun _ _ => trivial⟩)
    (fun _ _ _ => rfl) m.program.stmts (fun _ hp => hp) (fun _ _ => trivial) hself rfl
    ⟨trivial, fun _ _ => trivial⟩).symm

end

end Sable.ScopeForest
