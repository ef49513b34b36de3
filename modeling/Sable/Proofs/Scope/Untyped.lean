import Sable.Scope

/-!
# Forests but for their types

Where a name is declared, and where its members lie, does not depend on the types that names
have. So whatever only gives types to names leaves the scopes that a walk goes into where they
are.
-/

namespace Sable

/-- A symbol but for its type. -/
def Symbol.untyped (x : Symbol) : Symbol := { x with ty? := none }

/-- A scope but for the types of its names. -/
def Scope.untyped (s : Scope) : Scope := { s with symbols := s.symbols.map Symbol.untyped }

namespace ScopeForest

/-- The names declared in a scope itself, in order, but for their types. -/
def declarations (F : ScopeForest) (s : ScopeId) : List Symbol := (F.symbols s).map Symbol.untyped

/-- A forest but for the types of its names. -/
def untyped (F : ScopeForest) : ScopeForest := ⟨F.scopes.map Scope.untyped⟩

variable (F : ScopeForest) (s : ScopeId)

@[simp] theorem size_untyped : F.untyped.size = F.size := by
  simp [untyped, size]

@[simp] theorem scope?_untyped : F.untyped.scope? s = (F.scope? s).map Scope.untyped := by
  simp [untyped, scope?]

@[simp] theorem symbols_untyped : F.untyped.symbols s = F.declarations s := by
  simp only [symbols, scope?_untyped, declarations]
  cases F.scope? s <;> rfl

/-- A list of names is searched the same way without the types. -/
theorem find?_untyped (xs : List Symbol) (name : String) :
    (xs.map Symbol.untyped).find? (fun x => x.name == name) =
      (xs.find? fun x => x.name == name).map Symbol.untyped := List.find?_map ..

theorem declarations_of_untyped {F G : ScopeForest} (h : G.untyped = F.untyped) (s : ScopeId) :
    G.declarations s = F.declarations s := by
  rw [← symbols_untyped, h, symbols_untyped]

theorem symbol?_untyped (name : String) :
    F.untyped.symbol? s name = (F.symbol? s name).map Symbol.untyped := by
  simp only [symbol?, scope?_untyped]
  cases F.scope? s with
  | none => rfl
  | some scope => exact find?_untyped scope.symbols name

@[simp] theorem chain_untyped : F.untyped.chain s = F.chain s := by
  have within : ∀ n s, F.untyped.chainWithin n s = F.chainWithin n s := by
    intro n
    induction n with
    | zero => exact fun _ => rfl
    | succ n ih =>
      intro s
      simp only [chainWithin, scope?_untyped]
      cases F.scope? s with
      | none => rfl
      | some scope =>
        have hparent : scope.untyped.parent? = scope.parent? := rfl
        simp only [Option.map_some, hparent, ih]
  exact within (s + 1) s

theorem chain_of_untyped {F G : ScopeForest} (h : G.untyped = F.untyped) (s : ScopeId) :
    G.chain s = F.chain s := by
  rw [← chain_untyped, h, chain_untyped]

theorem locate?_untyped (name : String) :
    F.untyped.locate? s name = (F.locate? s name).map (Prod.map id Symbol.untyped) := by
  simp only [locate?, chain_untyped, symbol?_untyped]
  induction F.chain s with
  | nil => rfl
  | cons t ts ih =>
    simp only [List.findSome?_cons]
    cases F.symbol? t name with
    | none => exact ih
    | some x => rfl

theorem visible?_untyped (name : String) :
    F.untyped.visible? s name = (F.visible? s name).map Symbol.untyped := by
  simp only [visible?, locate?_untyped]
  cases F.locate? s name <;> rfl

/-- An alias stands for the same module without the types. -/
theorem visibleImport?_untyped (aliasName : String) :
    F.untyped.visibleImport? s aliasName = F.visibleImport? s aliasName := by
  simp only [visibleImport?, chain_untyped, scope?_untyped]
  congr 1
  funext t
  cases F.scope? t <;> rfl

/-- The members of a declaration lie where they lie without the types. -/
theorem declaredMembers?_untyped (name : Ident) :
    F.untyped.declaredMembers? s name = F.declaredMembers? s name := by
  simp only [declaredMembers?, symbol?_untyped]
  cases F.symbol? s name.name <;> rfl

/-- The members of a type that a name means lie where they lie without the types. -/
theorem typeMembers?_untyped (name : String) :
    F.untyped.typeMembers? s name = F.typeMembers? s name := by
  simp only [typeMembers?, visible?_untyped]
  cases F.visible? s name <;> rfl

/-- Giving types to names changes nothing but types. -/
theorem untyped_modifySymbol (name : String) {f : Symbol → Symbol}
    (hf : ∀ x, (f x).untyped = x.untyped) : (F.modifySymbol s name f).untyped = F.untyped := by
  have same : ∀ t : Nat,
      (F.modifySymbol s name f).untyped.scopes[t]? = F.untyped.scopes[t]? := by
    intro t
    have hsame := scope?_modify F s t fun scope => scope.modifySymbol name f
    change (F.modifySymbol s name f).untyped.scope? t = F.untyped.scope? t
    rw [scope?_untyped, scope?_untyped, modifySymbol, hsame]
    split
    · cases F.scope? t with
      | none => rfl
      | some scope =>
        simp only [Option.map_some, Scope.modifySymbol, Scope.untyped, List.map_map]
        congr 2
        refine List.map_congr_left fun x _ => ?_
        simp only [Function.comp_apply]
        split
        · exact hf x
        · rfl
    · rfl
  have hscopes := Array.ext_getElem? same
  exact congrArg ScopeForest.mk hscopes

@[simp] theorem untyped_setType (name : String) (ty : Ty) :
    (F.setType s name ty).untyped = F.untyped := untyped_modifySymbol F s name fun _ => rfl

end ScopeForest

end Sable
