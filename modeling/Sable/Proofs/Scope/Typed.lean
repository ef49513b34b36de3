import Sable.Proofs.Scope.Growth

/-!
# Types of names

The type that a scope has for a name of its own changes only when it is given one. Names that a
scope does not declare are given none.
-/

namespace Sable.ScopeForest

/-- The type of a name declared in a scope itself, as far as it is known. -/
def typeOf? (F : ScopeForest) (s : ScopeId) (name : String) : Option Ty :=
  (F.symbol? s name).bind Symbol.ty?

variable {F G : ScopeForest} {s t : ScopeId}

/-! ### Names that are declared -/

theorem symbol?_eq_find? (F : ScopeForest) (s : ScopeId) (name : String) :
    F.symbol? s name = (F.symbols s).find? fun x => x.name == name := by
  cases hs : F.scope? s <;> simp [symbol?, symbols, hs, Scope.find?]

theorem typeOf?_congr (h : G.symbols s = F.symbols s) (name : String) :
    G.typeOf? s name = F.typeOf? s name := by
  rw [typeOf?, symbol?_eq_find?, h, ← symbol?_eq_find?, typeOf?]

/-- A name that is declared without a type has none, and no other name changes. -/
theorem typeOf?_declare {name : Ident} {kind : SymbolKind} {members? : Option ScopeId}
    (h : F.declare s name kind none = .ok (members?, G)) (t : ScopeId) (other : String) :
    G.typeOf? t other = F.typeOf? t other := by
  have hadd : ∀ {H : ScopeForest} {x : Symbol}, H.symbols t = F.symbols t → x.ty? = none →
      (H.modify s fun scope => { scope with symbols := scope.symbols ++ [x] }).typeOf? t other =
        F.typeOf? t other := by
    intro H x hH hx
    rw [typeOf?, typeOf?, symbol?_eq_find?, symbol?_eq_find?, symbols_addSymbol, hH,
      List.find?_append]
    cases (F.symbols t).find? fun y => y.name == other with
    | some y => rfl
    | none =>
      rw [Option.none_or]
      cases hfind : List.find? (fun y => y.name == other) (if t = s ∧ s < H.size then [x] else [])
        with
      | none => rfl
      | some y =>
        have hy := List.mem_of_find?_eq_some hfind
        split at hy
        · rw [List.mem_singleton.mp hy]
          exact hx
        · cases hy
  unfold declare at h
  split at h
  · cases h
  · cases hkind : kind.opensScope
    · simp only [hkind, Bool.false_eq_true, ↓reduceIte] at h
      obtain ⟨-, rfl⟩ := Prod.mk.inj (Except.ok.inj h)
      exact hadd rfl rfl
    · simp only [hkind, ↓reduceIte] at h
      obtain ⟨-, rfl⟩ := Prod.mk.inj (Except.ok.inj h)
      exact hadd (symbols_openScope ..) rfl

/-! ### Types that are given -/

theorem symbol?_modifySymbol (F : ScopeForest) (s t : ScopeId) (name other : String)
    {f : Symbol → Symbol} (hf : ∀ x, (f x).name = x.name) :
    (F.modifySymbol s name f).symbol? t other =
      if t = s ∧ other = name then (F.symbol? t other).map f else F.symbol? t other := by
  rw [symbol?, modifySymbol, scope?_modify, symbol?]
  by_cases hts : t = s
  · subst hts
    cases hscope : F.scope? t with
    | none => simp
    | some scope =>
      have hname : ((fun x : Symbol => x.name == other) ∘
          fun x => if x.name = name then f x else x) = fun x => x.name == other := by
        funext x
        simp only [Function.comp_apply]
        split
        · rw [hf]
        · rfl
      simp only [if_pos, Option.map_some, Option.bind_some, Scope.find?, Scope.modifySymbol,
        List.find?_map, hname, true_and]
      cases hfind : scope.symbols.find? fun x => x.name == other with
      | none => simp
      | some x =>
        have hx : x.name = other := by simpa using List.find?_some hfind
        by_cases ho : other = name
        · simp [ho, hx.trans ho]
        · simp [ho, hx]
  · simp [hts]

/-- A name that is given a type keeps all else, and no other name changes. -/
theorem symbol?_setType (F : ScopeForest) (s t : ScopeId) (name other : String) (ty : Ty) :
    (F.setType s name ty).symbol? t other =
      if t = s ∧ other = name then (F.symbol? t other).map fun x => { x with ty? := some ty }
      else F.symbol? t other :=
  symbol?_modifySymbol F s t name other fun _ => rfl

theorem typeOf?_setType (F : ScopeForest) (s t : ScopeId) (name other : String) (ty : Ty) :
    (F.setType s name ty).typeOf? t other =
      if t = s ∧ other = name then (F.symbol? t other).map fun _ => ty else F.typeOf? t other := by
  rw [typeOf?, symbol?_setType]
  split
  · cases F.symbol? t other <;> rfl
  · rfl

/-- A type that is given to another name leaves a type where it is. -/
theorem typeOf?_setType_of_ne {name other : String} (ty : Ty) (h : ¬ (t = s ∧ other = name)) :
    (F.setType s name ty).typeOf? t other = F.typeOf? t other := by
  rw [typeOf?_setType, if_neg h]

/-- A name that is given a type has it, if it is declared. -/
theorem typeOf?_setType_self {name : String} (ty : Ty) (h : (F.symbol? s name).isSome) :
    (F.setType s name ty).typeOf? s name = some ty := by
  rw [typeOf?_setType, if_pos ⟨rfl, rfl⟩]
  obtain ⟨x, hx⟩ := Option.isSome_iff_exists.mp h
  rw [hx, Option.map_some]

/-- A name that has a type goes on to have one. -/
theorem isSome_typeOf?_setType {name other : String} (ty : Ty)
    (h : (F.typeOf? t other).isSome) : ((F.setType s name ty).typeOf? t other).isSome := by
  rw [typeOf?_setType]
  split
  · obtain ⟨u, hu⟩ := Option.isSome_iff_exists.mp h
    obtain ⟨x, hx, -⟩ := Option.bind_eq_some_iff.mp hu
    rw [hx]
    rfl
  · exact h

theorem isSome_symbol?_of_typeOf? {name : String} (h : (F.typeOf? s name).isSome) :
    (F.symbol? s name).isSome := by
  obtain ⟨u, hu⟩ := Option.isSome_iff_exists.mp h
  obtain ⟨x, hx, -⟩ := Option.bind_eq_some_iff.mp hu
  rw [hx]
  rfl

/-- Whether a name is bound by its declaration does not depend on types. -/
theorem binds_untyped (F : ScopeForest) (s : ScopeId) (name : Ident) :
    F.untyped.binds s name = F.binds s name := by
  simp only [binds, symbol?_untyped]
  cases F.symbol? s name.name <;> rfl

theorem binds_congr (h : G.untyped = F.untyped) (s : ScopeId) (name : Ident) :
    G.binds s name = F.binds s name := by
  rw [← binds_untyped, h, binds_untyped]

/-- A name that its declaration binds is declared. -/
theorem isSome_symbol?_of_binds {name : Ident} (h : F.binds s name = true) :
    (F.symbol? s name.name).isSome := by
  unfold binds at h
  split at h
  · next hx => rw [hx]; rfl
  · cases h

end Sable.ScopeForest
