import Sable.Syntax
import Sable.Ty

/-!
# Symbols

What a name is declared to be. Functions, methods and types own a scope for their members:
the parameters and locals of the first two, the fields and methods of the last.
-/

namespace Sable

/-- The number of a scope, counted from zero in the order in which scopes are opened. -/
abbrev ScopeId := Nat

/-- What kind of thing a name stands for. -/
inductive SymbolKind
  | var
  | const
  | type
  | func
  | struct
  | field
  | method
  deriving DecidableEq, Repr

namespace SymbolKind

/-- Every kind once. -/
def all : List SymbolKind := [var, const, type, func, struct, field, method]

/-- The kind in messages and in machine-readable output. -/
def text : SymbolKind → String
  | var => "var"
  | const => "const"
  | type => "type"
  | func => "func"
  | struct => "struct"
  | field => "field"
  | method => "method"

/-- Whether a declaration of the kind opens a scope for its members. -/
def opensScope : SymbolKind → Bool
  | func | method | type | struct => true
  | _ => false

/-- Whether the kind names a type. -/
def isType : SymbolKind → Bool
  | type | struct => true
  | _ => false

/-- Whether the kind can be called. -/
def isCallable : SymbolKind → Bool
  | func | method => true
  | _ => false

end SymbolKind

/-- What a scope belongs to. -/
inductive ScopeKind
  /-- A module or a type. -/
  | global
  /-- A function or a method. -/
  | function
  deriving DecidableEq, Repr

/-- The kind of scope in messages and in machine-readable output. -/
def ScopeKind.text : ScopeKind → String
  | global => "global"
  | function => "function"

/-- The kind of scope that a declaration opens for its members. -/
def SymbolKind.memberScopeKind (k : SymbolKind) : ScopeKind :=
  if k.isCallable then .function else .global

/-- A declared name. -/
structure Symbol where
  /-- The name. -/
  name : String
  /-- What kind of thing the name stands for. -/
  kind : SymbolKind
  /-- The type, once it is known. -/
  ty? : Option Ty
  /-- Where the name is declared. -/
  span : Span
  /-- The scope of the members, for the kinds that have one. -/
  members? : Option ScopeId
  deriving Repr

end Sable
