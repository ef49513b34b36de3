import Sable.Error
import Sable.Symbol

/-!
# Scopes

All scopes of a compilation form one forest and go by their numbers. A scope is opened inside
a scope that exists already, so the numbers fall on the way outward; that way is the chain
along which names and imports are looked up. Within a scope every name is declared at most
once, and every alias and every module is imported at most once. The builtin types are declared
names as well, which stand in no source text.
-/

namespace Sable

/-- An alias that a scope imports a module under. -/
structure ImportBinding where
  /-- The alias. -/
  aliasName : String
  /-- The key of the imported module. -/
  key : String
  /-- The outermost scope of the imported module. -/
  root : ScopeId
  deriving DecidableEq, Repr

/-- A region of names. -/
structure Scope where
  /-- The scope around this one. -/
  parent? : Option ScopeId
  /-- What the scope belongs to. -/
  kind : ScopeKind
  /-- The names declared in the scope itself, in the order of their declarations. -/
  symbols : List Symbol
  /-- The modules imported into the scope itself, in the order of the imports. -/
  imports : List ImportBinding
  deriving Repr

namespace Scope

/-- The declaration of a name in the scope itself. -/
def find? (s : Scope) (name : String) : Option Symbol := s.symbols.find? fun x => x.name == name

/-- The import of an alias in the scope itself. -/
def import? (s : Scope) (aliasName : String) : Option ImportBinding :=
  s.imports.find? fun i => i.aliasName == aliasName

/-- The import of a module in the scope itself. -/
def importOf? (s : Scope) (key : String) : Option ImportBinding :=
  s.imports.find? fun i => i.key == key

/-- Changes the declaration of a name in the scope itself. -/
def modifySymbol (s : Scope) (name : String) (f : Symbol → Symbol) : Scope :=
  { s with symbols := s.symbols.map fun x => if x.name = name then f x else x }

end Scope

/-- The scopes of a compilation. -/
structure ScopeForest where
  /-- The scopes by their numbers. -/
  scopes : Array Scope
  deriving Repr

namespace ScopeForest

/-- No scope. -/
def empty : ScopeForest := ⟨#[]⟩

/-- The number of scopes. -/
def size (F : ScopeForest) : Nat := F.scopes.size

/-- The scope of a given number. -/
def scope? (F : ScopeForest) (s : ScopeId) : Option Scope := F.scopes[s]?

/-- The scope around a scope. -/
def parent? (F : ScopeForest) (s : ScopeId) : Option ScopeId := (F.scope? s).bind Scope.parent?

/-- What a scope belongs to. -/
def kind (F : ScopeForest) (s : ScopeId) : ScopeKind := ((F.scope? s).map Scope.kind).getD .global

/-- The names declared in a scope itself, in the order of their declarations. -/
def symbols (F : ScopeForest) (s : ScopeId) : List Symbol :=
  ((F.scope? s).map Scope.symbols).getD []

/-- The modules imported into a scope itself, in the order of the imports. -/
def imports (F : ScopeForest) (s : ScopeId) : List ImportBinding :=
  ((F.scope? s).map Scope.imports).getD []

/-- Changes one scope. -/
def modify (F : ScopeForest) (s : ScopeId) (f : Scope → Scope) : ScopeForest :=
  ⟨F.scopes.modify s f⟩

/-- Opens an empty scope; its number is the number of scopes before. -/
def openScope (F : ScopeForest) (parent? : Option ScopeId) (kind : ScopeKind) :
    ScopeId × ScopeForest :=
  (F.size, ⟨F.scopes.push ⟨parent?, kind, [], []⟩⟩)

/-- Changes what a scope belongs to. -/
def setKind (F : ScopeForest) (s : ScopeId) (kind : ScopeKind) : ScopeForest :=
  F.modify s fun scope => { scope with kind := kind }

/-- A change of one scope leaves all others as they are. -/
theorem scope?_modify (F : ScopeForest) (s t : ScopeId) (f : Scope → Scope) :
    (F.modify s f).scope? t = if t = s then (F.scope? t).map f else F.scope? t := by
  simp only [modify, scope?, Array.getElem?_modify]
  by_cases h : s = t
  · simp [h]
  · simp [h, Ne.symm h]

@[simp] theorem size_modify (F : ScopeForest) (s : ScopeId) (f : Scope → Scope) :
    (F.modify s f).size = F.size := by simp [modify, size]

/-- An opened scope is empty and leaves all others as they are. -/
theorem scope?_openScope (F : ScopeForest) (parent? : Option ScopeId) (kind : ScopeKind)
    (t : ScopeId) :
    (F.openScope parent? kind).2.scope? t =
      if t = F.size then some ⟨parent?, kind, [], []⟩ else F.scope? t := by
  simp only [openScope, scope?, size, Array.getElem?_push]
  split <;> simp_all

@[simp] theorem size_openScope (F : ScopeForest) (parent? : Option ScopeId) (kind : ScopeKind) :
    (F.openScope parent? kind).2.size = F.size + 1 := by simp [openScope, size]

/-! ### The chain of a scope -/

/-- The first `n` scopes from a scope outward. -/
def chainWithin (F : ScopeForest) : Nat → ScopeId → List ScopeId
  | 0, _ => []
  | n + 1, s =>
    match F.scope? s with
    | none => []
    | some scope =>
      s :: match scope.parent? with
        | some p => F.chainWithin n p
        | none => []

/-- The scopes from a scope outward. Their numbers fall, which bounds their count. -/
def chain (F : ScopeForest) (s : ScopeId) : List ScopeId := F.chainWithin (s + 1) s

/-! ### Symbols -/

/-- The declaration of a name in a scope itself. -/
def symbol? (F : ScopeForest) (s : ScopeId) (name : String) : Option Symbol :=
  (F.scope? s).bind fun scope => scope.find? name

/-- The nearest declaration of a name, from a scope outward, and the scope that holds it. -/
def locate? (F : ScopeForest) (s : ScopeId) (name : String) : Option (ScopeId × Symbol) :=
  (F.chain s).findSome? fun t => (F.symbol? t name).map fun x => (t, x)

/-- The nearest declaration of a name, from a scope outward. -/
def visible? (F : ScopeForest) (s : ScopeId) (name : String) : Option Symbol :=
  (F.locate? s name).map Prod.snd

/--
Declares a name in a scope, where it must not be declared yet; a scope further out may
declare it. A kind with members gets a new scope for them.
-/
def declare (F : ScopeForest) (s : ScopeId) (name : Ident) (kind : SymbolKind) (ty? : Option Ty) :
    Except DuplicateSymbol (Option ScopeId × ScopeForest) :=
  if (F.symbol? s name.name).isSome then .error ⟨name.name, name.span⟩
  else
    let (members?, F) :=
      if kind.opensScope then
        let (child, F) := F.openScope (some s) kind.memberScopeKind
        (some child, F)
      else (none, F)
    .ok (members?, F.modify s fun scope =>
      { scope with symbols := scope.symbols ++ [⟨name.name, kind, ty?, name.span, members?⟩] })

/-- Changes the declaration of a name in a scope itself. -/
def modifySymbol (F : ScopeForest) (s : ScopeId) (name : String) (f : Symbol → Symbol) :
    ScopeForest :=
  F.modify s fun scope => scope.modifySymbol name f

/-- Gives a type to a name declared in a scope itself; nothing happens if it is not declared. -/
def setType (F : ScopeForest) (s : ScopeId) (name : String) (ty : Ty) : ScopeForest :=
  F.modifySymbol s name fun x => { x with ty? := some ty }

/-- Gives a kind to a name declared in a scope itself; the scope of its members stays. -/
def setSymbolKind (F : ScopeForest) (s : ScopeId) (name : String) (kind : SymbolKind) :
    ScopeForest :=
  F.modifySymbol s name fun x => { x with kind := kind }

/-- Whether a name in a scope itself is the one declared at a given place. -/
def binds (F : ScopeForest) (s : ScopeId) (name : Ident) : Bool :=
  match F.symbol? s name.name with
  | some x => x.span == name.span
  | none => false

/--
The scope of the members of the declaration at a given place. There is none if the name is
bound by another declaration, as it is when the one asked for was refused.
-/
def declaredMembers? (F : ScopeForest) (s : ScopeId) (name : Ident) : Option ScopeId :=
  match F.symbol? s name.name with
  | some x => if x.span = name.span then x.members? else none
  | none => none

/-- The scope of the members of the nearest declaration of a name, if that is a type. -/
def typeMembers? (F : ScopeForest) (s : ScopeId) (name : String) : Option ScopeId :=
  match F.visible? s name with
  | some x => if x.kind.isType then x.members? else none
  | none => none

/-! ### Imports -/

/--
Imports a module into a scope. Of the two ways to be refused, a module that is imported
already comes before an alias that stands for another module.
-/
def addImport (F : ScopeForest) (s : ScopeId) (i : ImportBinding) :
    Except ImportError ScopeForest :=
  match (F.scope? s).bind fun scope => scope.importOf? i.key with
  | some existing =>
    if existing.aliasName = i.aliasName then .error (.alreadyImported i.key)
    else .error (.alreadyImportedAs i.key existing.aliasName)
  | none =>
    match (F.scope? s).bind fun scope => scope.import? i.aliasName with
    | some existing => .error (.aliasInUse i.aliasName existing.key)
    | none => .ok (F.modify s fun scope => { scope with imports := scope.imports ++ [i] })

/-- The module that an alias stands for in a scope itself. -/
def importedHere? (F : ScopeForest) (s : ScopeId) (aliasName : String) : Option String :=
  ((F.scope? s).bind fun scope => scope.import? aliasName).map ImportBinding.key

/-- The nearest import of an alias, from a scope outward. -/
def visibleImport? (F : ScopeForest) (s : ScopeId) (aliasName : String) : Option ImportBinding :=
  (F.chain s).findSome? fun t => (F.scope? t).bind fun scope => scope.import? aliasName

/-- The outermost scope of the module that an alias stands for. -/
def importedRoot (F : ScopeForest) (s : ScopeId) (aliasName : String) :
    Except ImportError ScopeId :=
  match F.visibleImport? s aliasName with
  | some i => .ok i.root
  | none => .error (.notFound aliasName)

/-- The key of the module that an alias stands for. -/
def importedKey? (F : ScopeForest) (s : ScopeId) (aliasName : String) : Option String :=
  (F.visibleImport? s aliasName).map ImportBinding.key

/-- The aliases imported into a scope itself, in ascending order. -/
def aliases (F : ScopeForest) (s : ScopeId) : List String :=
  ((F.imports s).map ImportBinding.aliasName).mergeSort fun x y => decide (x ≤ y)

/-- Whether a scope belongs to a function, or lies inside one that does. -/
def inFunction (F : ScopeForest) (s : ScopeId) : Bool :=
  (F.chain s).any fun t => F.kind t == .function

/-- The names declared in a scope itself, in ascending order. -/
def sortedSymbols (F : ScopeForest) (s : ScopeId) : List Symbol :=
  (F.symbols s).mergeSort fun x y => decide (x.name ≤ y.name)

/-! ### Builtin names -/

/-- Declares builtin types in a scope, up to the first one that it declares already. -/
def declarePrimitives (F : ScopeForest) (s : ScopeId) :
    List Primitive → Except DuplicateSymbol Unit × ScopeForest
  | [] => (.ok (), F)
  | p :: ps =>
    match F.declare s ⟨p.name, Span.nowhere⟩ .type (some (.prim p)) with
    | .error e => (.error e, F)
    | .ok (_, G) => G.declarePrimitives s ps

/-- Declares all builtin types in a scope. -/
def declareBuiltins (F : ScopeForest) (s : ScopeId) : Except DuplicateSymbol Unit × ScopeForest :=
  F.declarePrimitives s Primitive.all

end ScopeForest

end Sable
