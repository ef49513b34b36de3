import Sable.Scope

/-!
# The meaning of written types

A written type means the type that is built the same way from the types of the names in it.
A name means the type of the nearest declaration in reach, and stands for itself as long as
that declaration has no type yet. The leftmost name that means no type is reported.
-/

namespace Sable

/-- The name of a struct type that no declaration names. -/
def anonymousStruct : String := "struct"

namespace Ty

/-- The type that a declaration gives to a name used as a type. -/
def ofSymbol (x : Symbol) (name : Ident) : Except TypeError Ty :=
  if x.kind.isType then .ok (x.ty?.getD (.named name.name none))
  else .error (.notAType name.name name.span)

/-- The type that a name means as seen from a scope. -/
def ofName (F : ScopeForest) (s : ScopeId) (name : Ident) : Except TypeError Ty :=
  match F.visible? s name.name with
  | some x => ofSymbol x name
  | none => .error (.notFound name.name name.span)

/-- The type that a qualified name means as seen from a scope. -/
def ofQualified (F : ScopeForest) (s : ScopeId) (module name : Ident) : Except TypeError Ty :=
  match F.importedRoot s module.name with
  | .error _ => .error (.moduleNotImported module.name module.span)
  | .ok root =>
    match F.symbol? root name.name with
    | some x => ofSymbol x name
    | none => .error (.notFoundInModule name.name module.name name.span)

mutual

/-- The type that a written type means as seen from a scope; `structName` names a struct type. -/
def denote (F : ScopeForest) (s : ScopeId) (structName : String) : TypeExpr → Except TypeError Ty
  | .primitive p _ => .ok (.prim p)
  | .array elem _ => (denote F s anonymousStruct elem).map .array
  | .struct fields _ => (denoteFields F s fields).map (structOf structName)
  | .function params ret _ =>
    match denoteList F s params with
    | .error e => .error e
    | .ok ps => (denoteOption F s ret).map (.function ps)
  | .named name => ofName F s name
  | .qualified module name _ => ofQualified F s module name

/-- The types that the fields of a struct type mean. -/
def denoteFields (F : ScopeForest) (s : ScopeId) :
    List FieldDecl → Except TypeError (List (String × Ty))
  | [] => .ok []
  | .mk name ty _ :: fields =>
    match denote F s anonymousStruct ty with
    | .error e => .error e
    | .ok t => (denoteFields F s fields).map ((name.name, t) :: ·)

/-- The types that a list of written types means. -/
def denoteList (F : ScopeForest) (s : ScopeId) : List TypeExpr → Except TypeError (List Ty)
  | [] => .ok []
  | ty :: tys =>
    match denote F s anonymousStruct ty with
    | .error e => .error e
    | .ok t => (denoteList F s tys).map (t :: ·)

/-- The type that a written type means, if one is written. -/
def denoteOption (F : ScopeForest) (s : ScopeId) :
    Option TypeExpr → Except TypeError (Option Ty)
  | none => .ok none
  | some ty => (denote F s anonymousStruct ty).map some

end

/-- The type that a written type means as seen from a scope. -/
def ofTypeExpr (F : ScopeForest) (s : ScopeId) (ty : TypeExpr) : Except TypeError Ty :=
  denote F s anonymousStruct ty

/-- The type that a type declaration gives to its name; a struct type takes that name. -/
def ofTypeDecl (F : ScopeForest) (s : ScopeId) (name : String) (ty : TypeExpr) :
    Except TypeError Ty :=
  (denote F s name ty).map fun t => .named name (some t)

end Ty

end Sable
