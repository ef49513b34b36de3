import Mathlib.Logic.Relator
import Mathlib.Order.Basic
import Sable.Proofs.Related
import Sable.Proofs.Scope.Chain
import Sable.Proofs.Syntax.Alike
import Sable.Scope
import Sable.Scope.Outline

/-!
# Forests in which the same is found

Two forests tally, at scopes that belong together, if whatever is looked up in the one is found in
the other. A lookup compares places only to tell the declaration of a name from a later one that
was refused; so it has the same result in both as long as the places are related one to one.

Two forests are alike if they hold the same scopes with the same names and imports, declared in
related places. Then they tally at all scopes of the same number.
-/

namespace Sable

/-- The same symbol twice, declared in related places; the scopes of the members belong together. -/
structure Symbol.Alike (R : Span → Span → Prop) (K : ScopeId → ScopeId → Prop) (x y : Symbol) :
    Prop where
  /-- The names are equal. -/
  name : x.name = y.name
  /-- The kinds are equal. -/
  kind : x.kind = y.kind
  /-- The types are equal, as far as they are known. -/
  ty? : x.ty? = y.ty?
  /-- The scopes of the members belong together. -/
  members? : Option.Rel K x.members? y.members?
  /-- The places are related. -/
  span : R x.span y.span

/--
The same symbol twice, as it is seen through the alias of a module: types count only for the kinds
that are looked at.
-/
structure Symbol.Reads (looked : SymbolKind → Prop) (x y : Symbol) : Prop where
  /-- The kinds are equal. -/
  kind : x.kind = y.kind
  /-- The types are equal, where they are looked at. -/
  ty? : looked x.kind → x.ty? = y.ty?

/-- What is looked up in two forests, in scopes that belong together, is the same. -/
structure ScopeForest.Tallies (R : Span → Span → Prop) (K : ScopeId → ScopeId → Prop)
    (looked : SymbolKind → Prop) (F G : ScopeForest) : Prop where
  /-- Places are related one to one. -/
  places : Relator.BiUnique R
  /-- A scope itself declares the same names. -/
  symbol? : ∀ {s t}, K s t → ∀ name,
    Option.Rel (Symbol.Alike R K) (F.symbol? s name) (G.symbol? t name)
  /-- The nearest declaration of a name is the same. -/
  visible? : ∀ {s t}, K s t → ∀ name,
    Option.Rel (Symbol.Alike R K) (F.visible? s name) (G.visible? t name)
  /-- Behind the alias of a module, the same names are declared. -/
  qualified : ∀ {s t}, K s t → ∀ module name,
    Outcomes Eq (Option.Rel (Symbol.Reads looked))
      ((F.importedRoot s module).map fun root => F.symbol? root name)
      ((G.importedRoot t module).map fun root => G.symbol? root name)

/-- The same import twice; the outermost scopes of the imported module correspond. -/
structure ImportBinding.Alike (Q : ScopeId → ScopeId → Prop) (i j : ImportBinding) : Prop where
  /-- The aliases are equal. -/
  aliasName : i.aliasName = j.aliasName
  /-- The keys are equal. -/
  key : i.key = j.key
  /-- The outermost scopes correspond. -/
  root : Q i.root j.root

/--
The same scope twice, with names declared in related places. What the scope belongs to does not
count, since nothing is looked up by it.
-/
structure Scope.Alike (R : Span → Span → Prop) (K Q : ScopeId → ScopeId → Prop) (s t : Scope) :
    Prop where
  /-- The scopes around belong together. -/
  parent? : Option.Rel K s.parent? t.parent?
  /-- The same names are declared, in the same order. -/
  symbols : List.Forall₂ (Symbol.Alike R K) s.symbols t.symbols
  /-- The same modules are imported, in the same order. -/
  imports : List.Forall₂ (ImportBinding.Alike Q) s.imports t.imports

/--
Two forests match at the scopes that belong together, which are the same up to the places of names.
Imported modules stand outside of what is compared, so their outermost scopes have a relation of
their own.
-/
structure ScopeForest.Matches (R : Span → Span → Prop) (K Q : ScopeId → ScopeId → Prop)
    (F G : ScopeForest) : Prop where
  /-- A scope belongs to one at most. -/
  pairs : Relator.BiUnique K
  /-- Scopes that belong together are the same. -/
  scope? : ∀ {s t}, K s t → Option.Rel (Scope.Alike R K Q) (F.scope? s) (G.scope? t)

/-- The same scopes twice, under the same numbers, with names declared in related places. -/
abbrev ScopeForest.Alike (R : Span → Span → Prop) (F G : ScopeForest) : Prop := F.Matches R Eq Eq G

/-- Scopes go on to belong together when one more is opened on either side. -/
structure Opened (K K' : ScopeId → ScopeId → Prop) (s t : ScopeId) : Prop where
  /-- Scopes that belong together go on to. -/
  mono : K ≤ K'
  /-- A scope belongs to one at most. -/
  pairs : Relator.BiUnique K'
  /-- Only the opened scopes may be new. -/
  only : ∀ {u v}, K' u v → K u v ∨ (u = s ∧ v = t)

theorem biUnique_eq : Relator.BiUnique (Eq : ScopeId → ScopeId → Prop) :=
  ⟨fun _ _ _ h h' => h.trans h'.symm, fun _ _ _ h h' => h.symm.trans h'⟩

/-- Scopes of the same number go on to belong together. -/
theorem opened_eq (s t : ScopeId) : Opened Eq Eq s t := ⟨le_rfl, biUnique_eq, Or.inl⟩

variable {R S : Span → Span → Prop} {K K' Q : ScopeId → ScopeId → Prop}

theorem Symbol.Alike.mono {x y : Symbol} (h : x.Alike R K y) (hRS : R ≤ S) (hK : K ≤ K') :
    x.Alike S K' y :=
  ⟨h.name, h.kind, h.ty?, rel_imp h.members? fun hst => hK _ _ hst, hRS _ _ h.span⟩

theorem Symbol.Alike.reads {x y : Symbol} (h : x.Alike R K y) (looked : SymbolKind → Prop) :
    x.Reads looked y := ⟨h.kind, fun _ => h.ty?⟩

theorem Scope.Alike.mono {s t : Scope} (h : s.Alike R K Q t) (hRS : R ≤ S) (hK : K ≤ K') :
    s.Alike S K' Q t :=
  ⟨rel_imp h.parent? fun hst => hK _ _ hst, h.symbols.imp fun _ _ hxy => hxy.mono hRS hK,
    h.imports⟩

/-- The same alias stands for the same module. -/
theorem Scope.Alike.import? {s t : Scope} (h : s.Alike R K Q t) (aliasName : String) :
    Option.Rel (ImportBinding.Alike Q) (s.import? aliasName) (t.import? aliasName) :=
  rel_find? h.imports fun hij => by rw [hij.aliasName]

/-- The same module is imported. -/
theorem Scope.Alike.importOf? {s t : Scope} (h : s.Alike R K Q t) (key : String) :
    Option.Rel (ImportBinding.Alike Q) (s.importOf? key) (t.importOf? key) :=
  rel_find? h.imports fun hij => by rw [hij.key]

/-- A later declaration of the same name changes the symbol in the same way. -/
theorem Scope.Alike.modifySymbol {s t : Scope} (h : s.Alike R K Q t) (name : String)
    {f : Symbol → Symbol} (hf : ∀ {x y : Symbol}, x.Alike R K y → (f x).Alike R K (f y)) :
    (s.modifySymbol name f).Alike R K Q (t.modifySymbol name f) := by
  refine ⟨h.parent?, ?_, h.imports⟩
  have hstep : ∀ x y : Symbol, x.Alike R K y →
      Symbol.Alike R K (if x.name = name then f x else x) (if y.name = name then f y else y) := by
    intro x y hxy
    by_cases hx : x.name = name
    · rw [if_pos hx, if_pos (hxy.name ▸ hx)]
      exact hf hxy
    · rw [if_neg hx, if_neg (hxy.name ▸ hx)]
      exact hxy
  exact List.forall₂_map_left_iff.mpr (List.forall₂_map_right_iff.mpr (h.symbols.imp hstep))

namespace ScopeForest.Tallies

variable {looked : SymbolKind → Prop} {F G : ScopeForest} {s t : ScopeId}

theorem typeMembers? (h : F.Tallies R K looked G) (hst : K s t) (name : String) :
    Option.Rel K (F.typeMembers? s name) (G.typeMembers? t name) := by
  have hname := h.visible? hst name
  rw [ScopeForest.typeMembers?, ScopeForest.typeMembers?]
  generalize F.visible? s name = x, G.visible? t name = y at hname
  cases hname with
  | none => exact .none
  | some hxy =>
    simp only [hxy.kind]
    split
    · exact hxy.members?
    · exact .none

/-- Related places are equal to related places at the same time. -/
theorem span_eq_iff (hR : Relator.BiUnique R) {x x' y y' : Span} (hx : R x x') (hy : R y y') :
    x = y ↔ x' = y' := by
  constructor
  · intro heq
    rw [heq] at hx
    exact hR.2 hx hy
  · intro heq
    rw [heq] at hx
    exact hR.1 hx hy

/-- The same declaration is the one that a name is bound by. -/
theorem binds (h : F.Tallies R K looked G) (hst : K s t) {name name' : Ident}
    (hname : name.Alike R name') : F.binds s name = G.binds t name' := by
  have hx := h.symbol? hst name.name
  rw [ScopeForest.binds, ScopeForest.binds, ← hname.name]
  generalize F.symbol? s name.name = x, G.symbol? t name.name = y at hx
  cases hx with
  | none => rfl
  | some hxy =>
    have hspan := span_eq_iff h.places hxy.span hname.span
    exact Bool.eq_iff_iff.mpr (by simpa only [beq_iff_eq] using hspan)

/-- The members of the declarations in related places belong together. -/
theorem declaredMembers? (h : F.Tallies R K looked G) (hst : K s t) {name name' : Ident}
    (hname : name.Alike R name') :
    Option.Rel K (F.declaredMembers? s name) (G.declaredMembers? t name') := by
  have hx := h.symbol? hst name.name
  rw [ScopeForest.declaredMembers?, ScopeForest.declaredMembers?, ← hname.name]
  generalize F.symbol? s name.name = x, G.symbol? t name.name = y at hx
  cases hx with
  | none => exact .none
  | @some x y hxy =>
    have hspan := span_eq_iff h.places hxy.span hname.span
    dsimp only
    by_cases hx : x.span = name.span
    · rw [if_pos hx, if_pos (hspan.mp hx)]
      exact hxy.members?
    · rw [if_neg hx, if_neg fun hy => hx (hspan.mpr hy)]
      exact .none

end ScopeForest.Tallies

namespace ScopeForest.Matches

variable {F G : ScopeForest} {s t : ScopeId}

theorem mono (h : F.Matches R K Q G) (hRS : R ≤ S) : F.Matches S K Q G :=
  ⟨h.pairs, fun hst => rel_imp (h.scope? hst) fun hab => hab.mono hRS le_rfl⟩

/-! ### Lookups -/

/-- A scope declares the same names. -/
theorem symbol? (h : F.Matches R K Q G) (hst : K s t) (name : String) :
    Option.Rel (Symbol.Alike R K) (F.symbol? s name) (G.symbol? t name) :=
  rel_bind (h.scope? hst) fun hab => rel_find? hab.symbols fun hxy => by rw [hxy.name]

/-- The same declaration of a name is the nearest, if the scopes around belong together. -/
theorem visible? (h : F.Matches R K Q G) (hchain : List.Forall₂ K (F.chain s) (G.chain t))
    (name : String) :
    Option.Rel (Symbol.Alike R K) (F.visible? s name) (G.visible? t name) := by
  have hlocate : Option.Rel (fun p q => Symbol.Alike R K p.2 q.2) (F.locate? s name)
      (G.locate? t name) := by
    rw [locate?, locate?]
    refine rel_findSome? hchain fun huv => ?_
    exact rel_map (S := fun p q : ScopeId × Symbol => p.2.Alike R K q.2) (h.symbol? huv name)
      fun hxy => hxy
  exact rel_map hlocate fun hxy => hxy

/-- The same import of an alias is the nearest, if the scopes around belong together. -/
theorem visibleImport? (h : F.Matches R K Q G) (hchain : List.Forall₂ K (F.chain s) (G.chain t))
    (aliasName : String) :
    Option.Rel (ImportBinding.Alike Q) (F.visibleImport? s aliasName)
      (G.visibleImport? t aliasName) := by
  rw [ScopeForest.visibleImport?, ScopeForest.visibleImport?]
  exact rel_findSome? hchain fun huv => rel_bind (h.scope? huv) fun hab => hab.import? aliasName

/--
Forests that match tally, if the scopes around scopes that belong together do, and if what is
looked at behind the alias of a module is the same.
-/
theorem tallies (h : F.Matches R K Q G) (hR : Relator.BiUnique R)
    (hchain : ∀ {s t}, K s t → List.Forall₂ K (F.chain s) (G.chain t))
    {looked : SymbolKind → Prop}
    (hreads : ∀ {s t}, Q s t → ∀ name,
      Option.Rel (Symbol.Reads looked) (F.symbol? s name) (G.symbol? t name)) :
    F.Tallies R K looked G where
  places := hR
  symbol? hst name := h.symbol? hst name
  visible? hst name := h.visible? (hchain hst) name
  qualified {s t} hst module name := by
    have himport := h.visibleImport? (hchain hst) module
    rw [ScopeForest.importedRoot, ScopeForest.importedRoot]
    generalize F.visibleImport? s module = x, G.visibleImport? t module = y at himport
    cases himport with
    | none => exact .error rfl
    | some hij => exact .ok (hreads hij.root name)

/-! ### Changes -/

theorem modify (h : F.Matches R K Q G) (hst : K s t) {f g : Scope → Scope}
    (hfg : ∀ {a b : Scope}, a.Alike R K Q b → (f a).Alike R K Q (g b)) :
    (F.modify s f).Matches R K Q (G.modify t g) := by
  refine ⟨h.pairs, fun {u v} huv => ?_⟩
  rw [scope?_modify, scope?_modify]
  by_cases hu : u = s
  · subst hu
    rw [if_pos rfl, if_pos (h.pairs.2 huv hst)]
    exact rel_map (h.scope? huv) hfg
  · rw [if_neg hu, if_neg]
    · exact h.scope? huv
    · rintro rfl
      exact hu (h.pairs.1 huv hst)

theorem openScope (h : F.Matches R K Q G) (hK : Opened K K' F.size G.size)
    {p? q? : Option ScopeId} (hparent : Option.Rel K p? q?) (kind : ScopeKind)
    (hnew : K' F.size G.size) :
    (F.openScope p? kind).2.Matches R K' Q (G.openScope q? kind).2 := by
  refine ⟨hK.pairs, fun {u v} huv => ?_⟩
  rw [scope?_openScope, scope?_openScope]
  by_cases hu : u = F.size
  · subst hu
    rw [if_pos rfl, if_pos (hK.pairs.2 huv hnew)]
    exact .some ⟨rel_imp hparent fun hst => hK.mono _ _ hst, .nil, .nil⟩
  · have hold := (hK.only huv).resolve_right fun he => hu he.1
    rw [if_neg hu, if_neg]
    · exact rel_imp (h.scope? hold) fun hab => hab.mono le_rfl hK.mono
    · rintro rfl
      exact hu (hK.pairs.1 huv hnew)

theorem setType (h : F.Matches R K Q G) (hst : K s t) (name : String) (ty : Ty) :
    (F.setType s name ty).Matches R K Q (G.setType t name ty) :=
  h.modify hst fun hab => hab.modifySymbol name fun hxy =>
    ⟨hxy.name, hxy.kind, rfl, hxy.members?, hxy.span⟩

private theorem addSymbol (h : F.Matches R K Q G) (hst : K s t) {x y : Symbol}
    (hxy : x.Alike R K y) :
    (F.modify s fun scope => { scope with symbols := scope.symbols ++ [x] }).Matches R K Q
      (G.modify t fun scope => { scope with symbols := scope.symbols ++ [y] }) :=
  h.modify hst fun hab =>
    ⟨hab.parent?, List.rel_append hab.symbols (.cons hxy .nil), hab.imports⟩

/-- The same names are refused, and the others get scopes for their members that correspond. -/
theorem declare (h : F.Matches R K Q G) (hst : K s t) {name name' : Ident}
    (hname : name.Alike R name') (kind : SymbolKind) (ty? : Option Ty)
    (hK : Opened K K' F.size G.size) (hnew : kind.opensScope = true → K' F.size G.size) :
    Outcomes (fun e f => e.name = f.name)
      (fun p q => Option.Rel K' p.1 q.1 ∧ p.2.Matches R K' Q q.2)
      (F.declare s name kind ty?) (G.declare t name' kind ty?) := by
  have hfree := isSome_eq_of_rel (h.symbol? hst name.name)
  rw [ScopeForest.declare, ScopeForest.declare, ← hname.name, ← hfree]
  by_cases hdeclared : (F.symbol? s name.name).isSome = true
  · rw [if_pos hdeclared, if_pos hdeclared]
    exact .error rfl
  · rw [if_neg hdeclared, if_neg hdeclared]
    by_cases hopens : kind.opensScope = true
    · have hopen := h.openScope hK (.some hst) kind.memberScopeKind (hnew hopens)
      simp only [hopens, ↓reduceIte]
      exact .ok ⟨.some (hnew hopens), hopen.addSymbol (hK.mono _ _ hst)
        ⟨rfl, rfl, rfl, .some (hnew hopens), hname.span⟩⟩
    · simp only [hopens, Bool.false_eq_true, ↓reduceIte]
      have hadd := h.addSymbol hst (x := ⟨name.name, kind, ty?, name.span, none⟩)
        (y := ⟨name.name, kind, ty?, name'.span, none⟩) ⟨rfl, rfl, rfl, .none, hname.span⟩
      refine .ok ⟨.none, hK.pairs, fun {u v} huv => ?_⟩
      rcases hK.only huv with huv | ⟨rfl, rfl⟩
      · exact rel_imp (hadd.scope? huv) fun hab => hab.mono le_rfl hK.mono
      · -- No scope is opened, so those of the next numbers are missing on both sides.
        rw [scope?_eq_none (size_modify ..).le, scope?_eq_none (size_modify ..).le]
        exact .none

/-- The same imports are refused. -/
theorem addImport (h : F.Matches R K Q G) (hst : K s t) {i j : ImportBinding}
    (hij : i.Alike Q j) :
    Outcomes Eq (ScopeForest.Matches R K Q) (F.addImport s i) (G.addImport t j) := by
  have hkey : Option.Rel (ImportBinding.Alike Q)
      ((F.scope? s).bind fun scope => scope.importOf? i.key)
      ((G.scope? t).bind fun scope => scope.importOf? i.key) :=
    rel_bind (h.scope? hst) fun hab => hab.importOf? i.key
  have halias : Option.Rel (ImportBinding.Alike Q)
      ((F.scope? s).bind fun scope => scope.import? i.aliasName)
      ((G.scope? t).bind fun scope => scope.import? i.aliasName) :=
    rel_bind (h.scope? hst) fun hab => hab.import? i.aliasName
  rw [ScopeForest.addImport, ScopeForest.addImport, ← hij.key, ← hij.aliasName]
  generalize ((F.scope? s).bind fun scope => scope.importOf? i.key) = x,
    ((G.scope? t).bind fun scope => scope.importOf? i.key) = y at hkey
  cases hkey with
  | some hxy =>
    simp only [hxy.aliasName]
    split
    · exact .error rfl
    · exact .error rfl
  | none =>
    dsimp only
    generalize ((F.scope? s).bind fun scope => scope.import? i.aliasName) = x,
      ((G.scope? t).bind fun scope => scope.import? i.aliasName) = y at halias
    cases halias with
    | some hxy => exact .error (by rw [hxy.key])
    | none =>
      exact .ok (h.modify hst fun hab =>
        ⟨hab.parent?, hab.symbols, List.rel_append hab.imports (.cons hij .nil)⟩)

/-! ### Outlines -/

/-- The same names are shown in the same order. -/
theorem sortedSymbols (h : F.Matches R K Q G) (hst : K s t) :
    List.Forall₂ (Symbol.Alike R K) (F.sortedSymbols s) (G.sortedSymbols t) := by
  have hsymbols : List.Forall₂ (Symbol.Alike R K) (F.symbols s) (G.symbols t) := by
    have hab := h.scope? hst
    rw [symbols, symbols]
    generalize F.scope? s = x, G.scope? t = y at hab
    cases hab with
    | none => exact .nil
    | some hab => exact hab.symbols
  exact rel_mergeSort hsymbols fun hxy hxy' => by rw [hxy.name, hxy'.name]

/-- The same members are shown, as far inside as asked for. -/
theorem outlineWithin (h : F.Matches R K Q G) (hst : K s t) (n : Nat) :
    F.outlineWithin n s = G.outlineWithin n t := by
  induction n generalizing s t with
  | zero => rfl
  | succ n ih =>
    rw [ScopeForest.outlineWithin, ScopeForest.outlineWithin]
    refine map_eq_of_forall₂ (h.sortedSymbols hst) fun {x y} hxy => ?_
    have hmembers := hxy.members?
    rw [hxy.name, hxy.kind, hxy.ty?]
    congr 1
    generalize x.members? = u?, y.members? = v? at hmembers
    cases hmembers with
    | none => rfl
    | some huv => exact ih huv

end ScopeForest.Matches

namespace ScopeForest.Alike

variable {F G : ScopeForest}

/-- There are equally many scopes. -/
theorem size_eq (h : F.Alike R G) : F.size = G.size := by
  have hsome : ∀ s, F.size ≤ s ↔ G.size ≤ s := by
    intro s
    rw [← scope?_eq_none_iff, ← scope?_eq_none_iff, ← Option.not_isSome_iff_eq_none,
      ← Option.not_isSome_iff_eq_none, isSome_eq_of_rel (h.scope? rfl)]
  exact le_antisymm ((hsome _).mpr le_rfl) ((hsome _).mp le_rfl)

/-- The same scopes lie around a scope. -/
theorem chain (h : F.Alike R G) (s : ScopeId) : List.Forall₂ Eq (F.chain s) (G.chain s) := by
  have hwithin : ∀ n s, F.chainWithin n s = G.chainWithin n s := by
    intro n
    induction n with
    | zero => exact fun _ => rfl
    | succ n ih =>
      intro s
      have hs := h.scope? (Eq.refl s)
      rw [chainWithin, chainWithin]
      generalize F.scope? s = x, G.scope? s = y at hs
      cases hs with
      | none => rfl
      | some hs =>
        simp only [eq_of_rel hs.parent?]
        split
        · rw [ih]
        · rfl
  rw [ScopeForest.chain, ScopeForest.chain, hwithin]
  exact List.forall₂_same.mpr fun _ _ => rfl

/-- Forests that are alike tally everywhere. -/
theorem tallies (h : F.Alike R G) (hR : Relator.BiUnique R) (looked : SymbolKind → Prop) :
    F.Tallies R Eq looked G :=
  Matches.tallies h hR (fun hst => hst ▸ h.chain _) fun hst name =>
    rel_imp (h.symbol? hst name) fun hxy => hxy.reads looked

/-- The same import of an alias is the nearest. -/
theorem importedKey? (h : F.Alike R G) (s : ScopeId) (aliasName : String) :
    F.importedKey? s aliasName = G.importedKey? s aliasName :=
  map_eq_of_rel (h.visibleImport? (h.chain s) aliasName) fun hij => hij.key

/-! ### Changes -/

/-- The opened scopes have the same number. -/
theorem openScope (h : F.Alike R G) (parent? : Option ScopeId) (kind : ScopeKind) :
    (F.openScope parent? kind).2.Alike R (G.openScope parent? kind).2 :=
  Matches.openScope h (opened_eq _ _) (rel_eq rfl) kind h.size_eq

/-- The same names are refused, and the others get the same scopes for their members. -/
theorem declare (h : F.Alike R G) (s : ScopeId) {name name' : Ident} (hname : name.Alike R name')
    (kind : SymbolKind) (ty? : Option Ty) :
    Outcomes (fun e f => e.name = f.name) (fun p q => Option.Rel Eq p.1 q.1 ∧ p.2.Alike R q.2)
      (F.declare s name kind ty?) (G.declare s name' kind ty?) :=
  Matches.declare h rfl hname kind ty? (opened_eq _ _) fun _ => h.size_eq

theorem declarePrimitives (h : F.Alike R G) (hR : R Span.nowhere Span.nowhere) (s : ScopeId)
    (ps : List Primitive) :
    (F.declarePrimitives s ps).2.Alike R (G.declarePrimitives s ps).2 := by
  induction ps generalizing F G with
  | nil => exact h
  | cons p ps ih =>
    have hname : Ident.Alike R ⟨p.name, Span.nowhere⟩ ⟨p.name, Span.nowhere⟩ := ⟨rfl, hR⟩
    have hp := h.declare s hname .type (some (.prim p))
    rw [ScopeForest.declarePrimitives, ScopeForest.declarePrimitives]
    generalize F.declare s ⟨p.name, Span.nowhere⟩ .type (some (.prim p)) = x,
      G.declare s ⟨p.name, Span.nowhere⟩ .type (some (.prim p)) = y at hp
    cases hp with
    | error _ => exact h
    | ok hp => exact ih hp.2

/-- A scope shows the same names with the same members, since no place is shown. -/
theorem outline (h : F.Alike R G) (s : ScopeId) : F.outline s = G.outline s := by
  rw [ScopeForest.outline, ScopeForest.outline, h.size_eq]
  exact h.outlineWithin rfl _

end ScopeForest.Alike

end Sable
