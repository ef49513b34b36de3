import Sable.Proofs.Scope.Chain
import Sable.Proofs.Scope.Untyped
import Sable.Scope

/-!
# Growing forests

Opening scopes, declaring names and giving types to them never moves a scope and never
touches an import. So the tree of a scope and the modules imported into it stay what they
are, whatever a pass declares or resolves in between. Only an import changes imports.
-/

namespace Sable.ScopeForest

/-- A forest that another one can turn into: scopes and declarations stay. -/
structure Precedes (F G : ScopeForest) : Prop where
  /-- No scope is closed. -/
  size_le : F.size ≤ G.size
  /-- No scope is moved. -/
  parent : ∀ s : Nat, s < F.size → G.parent? s = F.parent? s
  /-- Names are only declared behind those that were there. -/
  declarations : ∀ s, F.declarations s <+: G.declarations s

/-- A forest that another one can grow into without an import. -/
structure Grows (F G : ScopeForest) : Prop extends F.Precedes G where
  /-- No module is imported. -/
  imports : ∀ s, G.imports s = F.imports s
  /-- Whatever held of the forest still holds. -/
  sound : F.Sound → G.Sound

variable {F G H : ScopeForest}

theorem Precedes.refl (F : ScopeForest) : F.Precedes F :=
  ⟨le_refl _, fun _ _ => rfl, fun _ => List.prefix_rfl⟩

theorem Precedes.trans (h : F.Precedes G) (h' : G.Precedes H) : F.Precedes H where
  size_le := h.size_le.trans h'.size_le
  parent s hs := (h'.parent s (hs.trans_le h.size_le)).trans (h.parent s hs)
  declarations s := (h.declarations s).trans (h'.declarations s)

theorem Grows.refl (F : ScopeForest) : F.Grows F := ⟨.refl F, fun _ => rfl, id⟩

theorem Grows.trans (h : F.Grows G) (h' : G.Grows H) : F.Grows H where
  toPrecedes := h.toPrecedes.trans h'.toPrecedes
  imports s := (h'.imports s).trans (h.imports s)
  sound := h'.sound ∘ h.sound

/-- The chain of a scope stays what it is as long as no scope moves. -/
theorem chain_eq_of_parent (hF : F.Sound) (hG : G.Sound) (hsize : F.size ≤ G.size)
    (h : ∀ s : Nat, s < F.size → G.parent? s = F.parent? s) {s : Nat} (hs : s < F.size) :
    G.chain s = F.chain s := by
  induction s using Nat.strong_induction_on with
  | _ s ih =>
    cases hp : F.parent? s with
    | none =>
      rw [chain_of_outermost hs hp, chain_of_outermost (hs.trans_le hsize) ((h s hs).trans hp)]
    | some p =>
      have hlt := hF.parent_lt hp
      rw [chain_of_parent? hF hp, chain_of_parent? hG ((h s hs).trans hp),
        ih p hlt (hlt.trans hs)]

theorem Grows.chain_eq (h : F.Grows G) (hF : F.Sound) {s : Nat} (hs : s < F.size) :
    G.chain s = F.chain s :=
  chain_eq_of_parent hF (h.sound hF) h.size_le h.parent hs

theorem Grows.mem_chain (h : F.Grows G) (hF : F.Sound) {r s : ScopeId} (hs : r ∈ F.chain s) :
    r ∈ G.chain s := by
  rwa [h.chain_eq hF (lt_size_of_mem_chain hs)]

theorem import?_scope? (F : ScopeForest) (s : ScopeId) (aliasName : String) :
    ((F.scope? s).bind fun scope => scope.import? aliasName) =
      (F.imports s).find? fun b => b.aliasName == aliasName := by
  cases h : F.scope? s <;> simp [imports, h, Scope.import?]

/-- An alias stands for the same module as long as no import changes. -/
theorem Grows.importedKey?_eq (h : F.Grows G) (hF : F.Sound) {s : Nat} (hs : s < F.size)
    (aliasName : String) : G.importedKey? s aliasName = F.importedKey? s aliasName := by
  simp only [importedKey?, visibleImport?, import?_scope?, h.chain_eq hF hs, h.imports]

/-! ### Changes of one scope -/

theorem parent?_modify (F : ScopeForest) (s t : ScopeId) {f : Scope → Scope}
    (hf : ∀ scope, (f scope).parent? = scope.parent?) :
    (F.modify s f).parent? t = F.parent? t := by
  rw [parent?, scope?_modify, parent?]
  split
  · cases F.scope? t <;> simp [hf]
  · rfl

theorem imports_modify (F : ScopeForest) (s t : ScopeId) {f : Scope → Scope}
    (hf : ∀ scope, (f scope).imports = scope.imports) :
    (F.modify s f).imports t = F.imports t := by
  rw [imports, scope?_modify, imports]
  split
  · cases F.scope? t <;> simp [hf]
  · rfl

theorem symbols_modify (F : ScopeForest) (s t : ScopeId) {f : Scope → Scope}
    (hf : ∀ scope, (f scope).symbols = scope.symbols) :
    (F.modify s f).symbols t = F.symbols t := by
  rw [symbols, scope?_modify, symbols]
  split
  · cases F.scope? t <;> simp [hf]
  · rfl

/-- A changed scope declares what `g` makes of the names that it declared. -/
theorem mem_symbols_modify {s t : ScopeId} {f : Scope → Scope}
    (g : List Symbol → List Symbol) (hf : ∀ scope, (f scope).symbols = g scope.symbols)
    {x : Symbol} (hx : x ∈ (F.modify s f).symbols t) :
    x ∈ F.symbols t ∨ (t = s ∧ x ∈ g (F.symbols t)) := by
  rw [symbols, scope?_modify] at hx
  split at hx
  · next hts =>
    cases hscope : F.scope? t with
    | none => simp [hscope] at hx
    | some scope =>
      simp only [hscope, Option.map_some, Option.getD_some, hf] at hx
      exact Or.inr ⟨hts, by simpa [symbols, hscope] using hx⟩
  · exact Or.inl hx

/-- Giving types to names leaves the forest as it is. -/
theorem grows_modifySymbol (F : ScopeForest) (s : ScopeId) (name : String) {f : Symbol → Symbol}
    (hf : ∀ x, (f x).untyped = x.untyped) : F.Grows (F.modifySymbol s name f) := by
  have hname : ∀ x, (f x).name = x.name := fun x => (Symbol.mk.inj (hf x)).1
  have hmembers : ∀ x, (f x).members? = x.members? := fun x => (Symbol.mk.inj (hf x)).2.2.2.2
  -- Every name of the changed forest stands for one of the forest before, with its members.
  have old : ∀ {t x}, x ∈ (F.modifySymbol s name f).symbols t →
      ∃ y ∈ F.symbols t, x.name = y.name ∧ x.members? = y.members? := by
    intro t x hx
    rcases mem_symbols_modify (List.map fun x => if x.name = name then f x else x)
      (fun _ => rfl) hx with hold | ⟨rfl, hnew⟩
    · exact ⟨x, hold, rfl, rfl⟩
    · obtain ⟨y, hy, rfl⟩ := List.mem_map.mp hnew
      refine ⟨y, hy, ?_⟩
      split
      · exact ⟨hname y, hmembers y⟩
      · exact ⟨rfl, rfl⟩
  have parent : ∀ t, (F.modifySymbol s name f).parent? t = F.parent? t :=
    fun t => parent?_modify F s t fun _ => rfl
  have imports : ∀ t, (F.modifySymbol s name f).imports t = F.imports t :=
    fun t => imports_modify F s t fun _ => rfl
  have same : ∀ t, (F.modifySymbol s name f).declarations t = F.declarations t := by
    intro t
    rw [← symbols_untyped, untyped_modifySymbol F s name hf, symbols_untyped]
  refine ⟨⟨(size_modify F s _).ge, fun t _ => parent t, fun t => same t ▸ List.prefix_rfl⟩,
    imports, fun h => ?_⟩
  constructor
  · exact h.base.trans_le (size_modify F s _).ge
  · intro t p hp
    exact h.parent_lt (parent t ▸ hp)
  · exact (parent 0).trans h.outermost
  · intro x hx
    obtain ⟨y, hy, hxy, -⟩ := old hx
    exact hxy ▸ h.builtin y hy
  · intro t x u hx hu
    obtain ⟨y, hy, -, hxy⟩ := old hx
    exact (parent u).trans (h.members hy (hxy ▸ hu))
  · intro t
    exact imports t ▸ h.aliases_nodup t

theorem grows_setType (F : ScopeForest) (s : ScopeId) (name : String) (ty : Ty) :
    F.Grows (F.setType s name ty) :=
  grows_modifySymbol F s name fun _ => rfl

/-! ### Opened scopes -/

theorem parent?_openScope (F : ScopeForest) (parent? : Option ScopeId) (kind : ScopeKind)
    (t : ScopeId) :
    (F.openScope parent? kind).2.parent? t = if t = F.size then parent? else F.parent? t := by
  rw [ScopeForest.parent?, scope?_openScope]
  split <;> rfl

theorem imports_openScope (F : ScopeForest) (parent? : Option ScopeId) (kind : ScopeKind)
    (t : ScopeId) : (F.openScope parent? kind).2.imports t = F.imports t := by
  rw [imports, scope?_openScope, imports]
  split
  · next h => simp [scope?_eq_none h.ge]
  · rfl

theorem symbols_openScope (F : ScopeForest) (parent? : Option ScopeId) (kind : ScopeKind)
    (t : ScopeId) : (F.openScope parent? kind).2.symbols t = F.symbols t := by
  rw [symbols, scope?_openScope, symbols]
  split
  · next h => simp [scope?_eq_none h.ge]
  · rfl

/-- A scope may be opened inside any other. -/
theorem grows_openScope (F : ScopeForest) {s : Nat} (hs : s < F.size) (kind : ScopeKind) :
    F.Grows (F.openScope (some s) kind).2 := by
  have parent : ∀ t : Nat, t < F.size →
      (F.openScope (some s) kind).2.parent? t = F.parent? t := by
    intro t ht
    rw [parent?_openScope, if_neg ht.ne]
  have same : ∀ t, (F.openScope (some s) kind).2.declarations t = F.declarations t :=
    fun t => congrArg (List.map Symbol.untyped) (symbols_openScope ..)
  refine ⟨⟨by simp, parent, fun t => same t ▸ List.prefix_rfl⟩,
    imports_openScope F (some s) kind, fun h => ?_⟩
  constructor
  · exact h.base.trans_le (by simp)
  · intro t p hp
    rw [parent?_openScope] at hp
    split at hp
    · next ht =>
      cases hp
      exact ht ▸ hs
    · exact h.parent_lt hp
  · exact (parent 0 (by omega)).trans h.outermost
  · intro x hx
    exact h.builtin x (symbols_openScope F (some s) kind 0 ▸ hx)
  · intro t x u hx hu
    have hold := h.members (symbols_openScope F (some s) kind t ▸ hx) hu
    exact (parent u (lt_size_of_parent? hold)).trans hold
  · intro t
    exact imports_openScope F (some s) kind t ▸ h.aliases_nodup t

/-! ### Declared names -/

/-- A scope declares one more name, behind the others. -/
theorem symbols_addSymbol (F : ScopeForest) (s t : ScopeId) (x : Symbol) :
    (F.modify s fun scope => { scope with symbols := scope.symbols ++ [x] }).symbols t =
      F.symbols t ++ if t = s ∧ s < F.size then [x] else [] := by
  rw [symbols, scope?_modify, symbols]
  by_cases hts : t = s
  · subst hts
    by_cases ht : t < F.size
    · obtain ⟨scope, hscope⟩ := exists_scope? ht
      simp [hscope, ht]
    · simp [scope?_eq_none (Nat.le_of_not_lt ht), ht]
  · simp [hts]

theorem declarations_addSymbol (F : ScopeForest) (s t : ScopeId) (x : Symbol) :
    (F.modify s fun scope => { scope with symbols := scope.symbols ++ [x] }).declarations t =
      F.declarations t ++ if t = s ∧ s < F.size then [x.untyped] else [] := by
  rw [declarations, symbols_addSymbol, List.map_append, declarations]
  split <;> rfl

/-- A name may be declared whose members lie in its scope. -/
private theorem grows_addSymbol (F : ScopeForest) {s : ScopeId} {x : Symbol}
    (hbuiltin : s = 0 → (Primitive.ofName? x.name).isSome)
    (hmembers : ∀ t ∈ x.members?, F.parent? t = some s) :
    F.Grows (F.modify s fun scope => { scope with symbols := scope.symbols ++ [x] }) := by
  have parent := fun t => parent?_modify F s t (f := fun scope =>
    { scope with symbols := scope.symbols ++ [x] }) fun _ => rfl
  have imports := fun t => imports_modify F s t (f := fun scope =>
    { scope with symbols := scope.symbols ++ [x] }) fun _ => rfl
  have added : ∀ {t y}, y ∈ (F.modify s fun scope =>
      { scope with symbols := scope.symbols ++ [x] }).symbols t →
      y ∈ F.symbols t ∨ (t = s ∧ y = x) := by
    intro t y hy
    rcases mem_symbols_modify (· ++ [x]) (fun _ => rfl) hy with hold | ⟨rfl, hnew⟩
    · exact Or.inl hold
    · exact (List.mem_append.mp hnew).imp id fun hy => ⟨rfl, List.mem_singleton.mp hy⟩
  have more := fun t => declarations_addSymbol F s t x
  refine ⟨⟨(size_modify F s _).ge, fun t _ => parent t, fun t => more t ▸ List.prefix_append ..⟩,
    imports, fun h => ?_⟩
  constructor
  · exact h.base.trans_le (size_modify F s _).ge
  · intro t p hp
    exact h.parent_lt (parent t ▸ hp)
  · exact (parent 0).trans h.outermost
  · intro y hy
    rcases added hy with hy | ⟨rfl, rfl⟩
    · exact h.builtin y hy
    · exact hbuiltin rfl
  · intro t y u hy hu
    rcases added hy with hy | ⟨rfl, rfl⟩
    · exact (parent u).trans (h.members hy hu)
    · exact (parent u).trans (hmembers u hu)
  · intro t
    exact imports t ▸ h.aliases_nodup t

/--
A name may be declared in any scope but that of the builtin types; the scope of its members
lies in the scope that declares it.
-/
theorem grows_declare {s : Nat} {name : Ident} {kind : SymbolKind} {ty? : Option Ty}
    {members? : Option ScopeId} (hs : s < F.size)
    (hbuiltin : s = 0 → (Primitive.ofName? name.name).isSome)
    (h : F.declare s name kind ty? = .ok (members?, G)) :
    F.Grows G ∧ ∀ t ∈ members?, G.parent? t = some s := by
  unfold declare at h
  split at h
  · cases h
  · cases hkind : kind.opensScope
    · simp only [hkind, Bool.false_eq_true, ↓reduceIte] at h
      obtain ⟨rfl, rfl⟩ := Prod.mk.inj (Except.ok.inj h)
      exact ⟨grows_addSymbol F hbuiltin (by simp), by simp⟩
    · simp only [hkind, ↓reduceIte] at h
      obtain ⟨rfl, rfl⟩ := Prod.mk.inj (Except.ok.inj h)
      have hparent : (F.openScope (some s) kind.memberScopeKind).2.parent? F.size = some s := by
        rw [parent?_openScope, if_pos rfl]
      have hadd := grows_addSymbol (F.openScope (some s) kind.memberScopeKind).2
        (x := ⟨name.name, kind, ty?, name.span, some F.size⟩) hbuiltin
        (by rintro t ⟨rfl⟩; exact hparent)
      refine ⟨(grows_openScope F hs _).trans hadd, ?_⟩
      rintro t ⟨rfl⟩
      exact (hadd.parent _ (lt_size_of_parent? hparent)).trans hparent

/-- A scope that declares a name is open. -/
theorem lt_size_of_mem_declarations {s : ScopeId} {x : Symbol} (h : x ∈ F.declarations s) :
    s < F.size := by
  by_contra hs
  rw [declarations, symbols, scope?_eq_none (Nat.le_of_not_lt hs)] at h
  cases h

/-- A declared name stands behind those that its scope declared before, with its members. -/
theorem declarations_declare {s : Nat} {name : Ident} {kind : SymbolKind} {ty? : Option Ty}
    {members? : Option ScopeId} (hs : s < F.size)
    (h : F.declare s name kind ty? = .ok (members?, G)) (t : ScopeId) :
    G.declarations t = F.declarations t ++
      if t = s then [⟨name.name, kind, none, name.span, members?⟩] else [] := by
  unfold declare at h
  split at h
  · cases h
  · cases hkind : kind.opensScope
    · simp only [hkind, Bool.false_eq_true, ↓reduceIte] at h
      obtain ⟨rfl, rfl⟩ := Prod.mk.inj (Except.ok.inj h)
      simp [declarations_addSymbol, hs, Symbol.untyped]
    · simp only [hkind, ↓reduceIte] at h
      obtain ⟨rfl, rfl⟩ := Prod.mk.inj (Except.ok.inj h)
      have hopen : (F.openScope (some s) kind.memberScopeKind).2.declarations t =
          F.declarations t := congrArg (List.map Symbol.untyped) (symbols_openScope ..)
      have hsize : s < F.size + 1 := Nat.lt_succ_of_lt hs
      simp only [declarations_addSymbol, size_openScope, hsize, and_true, hopen, Symbol.untyped]

/-- A scope that declares a name is the only one whose names change. -/
theorem symbols_declare {s : ScopeId} {name : Ident} {kind : SymbolKind} {ty? : Option Ty}
    {members? : Option ScopeId} (h : F.declare s name kind ty? = .ok (members?, G))
    {t : ScopeId} (ht : t ≠ s) : G.symbols t = F.symbols t := by
  unfold declare at h
  split at h
  · cases h
  · cases hkind : kind.opensScope
    · simp only [hkind, Bool.false_eq_true, ↓reduceIte] at h
      obtain ⟨-, rfl⟩ := Prod.mk.inj (Except.ok.inj h)
      simp [symbols_addSymbol, ht]
    · simp only [hkind, ↓reduceIte] at h
      obtain ⟨-, rfl⟩ := Prod.mk.inj (Except.ok.inj h)
      simp [symbols_addSymbol, symbols_openScope, ht]

/-- A declaration opens no scope but that of its members. -/
theorem members?_of_size_le {s : ScopeId} {name : Ident} {kind : SymbolKind} {ty? : Option Ty}
    {members? : Option ScopeId} (h : F.declare s name kind ty? = .ok (members?, G))
    {t : Nat} (hF : F.size ≤ t) (hG : t < G.size) : members? = some t := by
  unfold declare at h
  split at h
  · cases h
  · cases hkind : kind.opensScope
    · simp only [hkind, Bool.false_eq_true, ↓reduceIte] at h
      obtain ⟨-, rfl⟩ := Prod.mk.inj (Except.ok.inj h)
      rw [size_modify] at hG
      omega
    · simp only [hkind, ↓reduceIte] at h
      obtain ⟨rfl, rfl⟩ := Prod.mk.inj (Except.ok.inj h)
      rw [size_modify, size_openScope] at hG
      exact congrArg some (Nat.le_antisymm hF (Nat.le_of_lt_succ hG))

/-- Declaring builtin types in the outermost scope leaves a sound forest sound. -/
theorem grows_declarePrimitives (F : ScopeForest) (hF : 0 < F.size) (ps : List Primitive) :
    F.Grows (F.declarePrimitives 0 ps).2 := by
  induction ps generalizing F with
  | nil => exact Grows.refl F
  | cons p ps ih =>
    simp only [declarePrimitives]
    cases h : F.declare 0 ⟨p.name, Span.nowhere⟩ .type (some (.prim p)) with
    | error e => exact Grows.refl F
    | ok r =>
      obtain ⟨members?, G⟩ := r
      have hname : Primitive.ofName? p.name = some p := Primitive.ofName?_eq_some_iff.mpr rfl
      have hG := (grows_declare hF (fun _ => by simp [hname]) h).1
      exact hG.trans (ih G (hF.trans_le hG.size_le))

/-- Builtin types are declared in the outermost scope only. -/
theorem declarations_declarePrimitives (hF : 0 < F.size) {t : ScopeId} (ht : t ≠ 0)
    (ps : List Primitive) : (F.declarePrimitives 0 ps).2.declarations t = F.declarations t := by
  induction ps generalizing F with
  | nil => rfl
  | cons p ps ih =>
    simp only [declarePrimitives]
    cases h : F.declare 0 ⟨p.name, Span.nowhere⟩ .type (some (.prim p)) with
    | error e => rfl
    | ok r =>
      obtain ⟨members?, G⟩ := r
      have hG := declarations_declare hF h t
      rw [if_neg ht, List.append_nil] at hG
      have hname : Primitive.ofName? p.name = some p := Primitive.ofName?_eq_some_iff.mpr rfl
      have hsize := (grows_declare hF (fun _ => by simp [hname]) h).1.size_le
      exact (ih (hF.trans_le hsize)).trans hG

/-! ### Imports -/

/-- An import that is not refused adds its binding to one scope, under a new alias and key. -/
structure Binds (F : ScopeForest) (s : ScopeId) (b : ImportBinding) (G : ScopeForest) : Prop where
  /-- No scope is opened. -/
  size_eq : G.size = F.size
  /-- No scope is moved. -/
  parent : ∀ t, G.parent? t = F.parent? t
  /-- No name is declared. -/
  symbols : ∀ t, G.symbols t = F.symbols t
  /-- One module is imported. -/
  imports : ∀ t, G.imports t = if t = s then F.imports t ++ [b] else F.imports t
  /-- The alias was free. -/
  fresh : b.aliasName ∉ (F.imports s).map ImportBinding.aliasName

theorem binds_of_addImport {s : Nat} {b : ImportBinding} (hs : s < F.size)
    (h : F.addImport s b = .ok G) : F.Binds s b G := by
  obtain ⟨scope, hscope⟩ := exists_scope? hs
  simp only [addImport, hscope, Option.bind_some] at h
  split at h
  · split at h <;> cases h
  · split at h
    · cases h
    · next halias =>
      cases h
      refine ⟨size_modify .., fun t => parent?_modify F s t fun _ => rfl,
        fun t => symbols_modify F s t fun _ => rfl, fun t => ?_, ?_⟩
      · rw [ScopeForest.imports, scope?_modify]
        split
        · next ht => simp [ht, hscope, ScopeForest.imports]
        · rfl
      · intro hmem
        obtain ⟨b', hb', he⟩ := List.mem_map.mp hmem
        have hb' : b' ∈ scope.imports := by simpa [ScopeForest.imports, hscope] using hb'
        simpa [he] using List.find?_eq_none.mp halias b' hb'

/-- An import declares no name and gives no type to one. -/
theorem symbols_addImport {s : ScopeId} {b : ImportBinding} (h : F.addImport s b = .ok G)
    (t : ScopeId) : G.symbols t = F.symbols t := by
  unfold addImport at h
  split at h
  · split at h <;> cases h
  · split at h
    · cases h
    · cases h
      exact symbols_modify F s t fun _ => rfl

/-- An import opens no scope. -/
theorem size_addImport {s : ScopeId} {b : ImportBinding} (h : F.addImport s b = .ok G) :
    G.size = F.size := by
  unfold addImport at h
  split at h
  · split at h <;> cases h
  · split at h
    · cases h
    · cases h
      exact size_modify ..

/-- What keeps an import from being bound: its module or its alias is imported already. -/
theorem exists_of_addImport_error {s : ScopeId} {b : ImportBinding} {e : ImportError}
    (h : F.addImport s b = .error e) :
    (∃ b' ∈ F.imports s, b'.key = b.key) ∨ ∃ key, e = .aliasInUse b.aliasName key := by
  cases hscope : F.scope? s with
  | none => simp [addImport, hscope] at h
  | some scope =>
    simp only [addImport, hscope, Option.bind_some] at h
    split at h
    · next b' hb' =>
      have hkey : b'.key = b.key := by simpa using List.find?_some hb'
      exact Or.inl ⟨b', by simpa [imports, hscope] using List.mem_of_find?_eq_some hb', hkey⟩
    · split at h
      · next b' hb' => exact Or.inr ⟨b'.key, (Except.error.inj h).symm⟩
      · cases h

/-- An import leaves the bindings that were there. -/
theorem Binds.mem_imports {s t : ScopeId} {b b' : ImportBinding} (h : F.Binds s b G)
    (hb : b' ∈ F.imports t) : b' ∈ G.imports t := by
  rw [h.imports]
  split
  · exact List.mem_append_left _ hb
  · exact hb

/-- A binding behind an import was there before, or is the new one. -/
theorem Binds.mem_imports_cases {s t : ScopeId} {b b' : ImportBinding} (h : F.Binds s b G)
    (hb : b' ∈ G.imports t) : b' ∈ F.imports t ∨ (t = s ∧ b' = b) := by
  rw [h.imports] at hb
  split at hb
  · next ht => exact (List.mem_append.mp hb).imp id fun hb => ⟨ht, List.mem_singleton.mp hb⟩
  · exact Or.inl hb

theorem Binds.mem_imports_self {s : ScopeId} {b : ImportBinding} (h : F.Binds s b G) :
    b ∈ G.imports s := by
  rw [h.imports, if_pos rfl]
  exact List.mem_append_right _ (List.mem_singleton_self _)

/-- An import leaves scopes and declarations as they are. -/
theorem Binds.precedes {s : ScopeId} {b : ImportBinding} (h : F.Binds s b G) : F.Precedes G where
  size_le := h.size_eq.ge
  parent t _ := h.parent t
  declarations t := by
    rw [declarations, declarations, h.symbols]

theorem Binds.sound {s : ScopeId} {b : ImportBinding} (h : F.Binds s b G) (hF : F.Sound) :
    G.Sound where
  base := hF.base.trans_eq h.size_eq.symm
  parent_lt hp := hF.parent_lt (h.parent _ ▸ hp)
  outermost := (h.parent 0).trans hF.outermost
  builtin x hx := hF.builtin x (h.symbols 0 ▸ hx)
  members hx ht := (h.parent _).trans (hF.members (h.symbols _ ▸ hx) ht)
  aliases_nodup t := by
    rw [h.imports]
    split
    · next ht =>
      rw [List.map_append, List.nodup_append']
      exact ⟨hF.aliases_nodup t, List.nodup_singleton _, by simpa [ht] using h.fresh⟩
    · exact hF.aliases_nodup t

/-- A scope that is not open is not changed. -/
theorem modify_of_size_le {s : ScopeId} (hs : F.size ≤ s) (f : Scope → Scope) :
    F.modify s f = F := by
  have hsame : ∀ t : Nat, (F.modify s f).scopes[t]? = F.scopes[t]? := fun t => by
    change (F.modify s f).scope? t = F.scope? t
    rw [scope?_modify]
    split
    · next hts => rw [hts, scope?_eq_none hs, Option.map_none]
    · rfl
  have hscopes := Array.ext_getElem? hsame
  exact congrArg ScopeForest.mk hscopes

/-- An import leaves a sound forest sound. -/
theorem sound_addImport {s : Nat} {b : ImportBinding} (hF : F.Sound)
    (h : F.addImport s b = .ok G) : G.Sound := by
  by_cases hs : s < F.size
  · exact (binds_of_addImport hs h).sound hF
  · have hclosed := Nat.le_of_not_lt hs
    simp only [addImport, scope?_eq_none hclosed, Option.bind_none, Except.ok.injEq] at h
    rw [modify_of_size_le hclosed] at h
    exact h ▸ hF

theorem Binds.chain_eq {s : ScopeId} {b : ImportBinding} (h : F.Binds s b G) (hF : F.Sound)
    (t : ScopeId) : G.chain t = F.chain t := by
  by_cases ht : t < F.size
  · exact chain_eq_of_parent hF (h.sound hF) h.size_eq.ge (fun s _ => h.parent s) ht
  · rw [chain_of_size_le (Nat.le_of_not_lt ht),
      chain_of_size_le (h.size_eq.trans_le (Nat.le_of_not_lt ht))]

end Sable.ScopeForest
