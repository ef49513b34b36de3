import Sable.Context.Traversal
import Sable.Ty.Denote

/-!
# Resolving names and types

The second pass finds the types that written types mean, gives them to the names that the
first pass declared, and reports every name that means nothing. An imported module is
resolved before the statement behind its import.

A variable gets a type only from its own declaration: what a refused declaration says is
looked at, but given to nothing.
-/

namespace Sable.Context

/-! ### Written types -/

/-- The type that a written type means, or a report of why it means none. -/
def denoteIn (m : Module) (s : ScopeId) (ty : TypeExpr) (ctx : Context) : Option Ty × Context :=
  match Ty.ofTypeExpr ctx.scopes s ty with
  | .ok t => (some t, ctx)
  | .error e => (none, ctx.reportIn m .resolving e.span e.message)

/-- Gives the declared variables the types that are written behind their names. -/
def resolveTargets (m : Module) (s : ScopeId) (targets : List VarBinder) (ctx : Context) :
    Context :=
  targets.foldl
    (fun ctx target =>
      match target.ty? with
      | none => ctx
      | some ty =>
        match ctx.denoteIn m s ty with
        | (some t, ctx) => ctx.setDeclaredType s target.name t
        | (none, ctx) => ctx)
    ctx

/-- Gives each field of a struct type its type, in the scope of the members of a type. -/
def resolveFields (members : ScopeId) (t : Ty) (ctx : Context) : Context :=
  match t.unwrap with
  | .struct _ fields => fields.foldl (fun ctx (name, t) => ctx.setType members name t) ctx
  | _ => ctx

/-- Gives a declared type its definition, and its fields their types. -/
def resolveTypeDecl (m : Module) (s : ScopeId) (d : TypeDecl) (ctx : Context) : Context :=
  match ctx.scopes.declaredMembers? s d.name with
  | none => ctx
  | some members =>
    match Ty.ofTypeDecl ctx.scopes s d.name.name d.ty with
    | .ok t => (ctx.resolveFields members t).setType s d.name.name t
    | .error e => ctx.reportIn m .resolving e.span e.message

/--
Gives parameters in the body of a function the types that their written types mean as seen
from the scope around it. The types are yielded if every one of them means something.
-/
def resolveParams (m : Module) (s body : ScopeId) :
    List Param → Context → Option (List Ty) × Context
  | [], ctx => (some [], ctx)
  | p :: ps, ctx =>
    match ctx.denoteIn m s p.ty with
    | (some t, ctx) =>
      let (ts?, ctx) := resolveParams m s body ps (ctx.setDeclaredType body p.name t)
      (ts?.map (t :: ·), ctx)
    | (none, ctx) => (none, (resolveParams m s body ps ctx).2)

/-- The result type of a function: `some none` if none is written, none if it means nothing. -/
def resolveResult (m : Module) (s : ScopeId) (ret : Option TypeExpr) (ctx : Context) :
    Option (Option Ty) × Context :=
  match ret with
  | none => (some none, ctx)
  | some ty =>
    let (t?, ctx) := ctx.denoteIn m s ty
    (t?.map some, ctx)

/-- The type of a function, if all types in its signature mean something. -/
def resolveSignature (m : Module) (s body : ScopeId) (params : List Param)
    (ret : Option TypeExpr) (ctx : Context) : Option Ty × Context :=
  let (params?, ctx) := resolveParams m s body params ctx
  let (ret?, ctx) := ctx.resolveResult m s ret
  match params?, ret? with
  | some ts, some t => (some (.function ts t), ctx)
  | _, _ => (none, ctx)

/-- Gives a name in a scope the type of its signature, if there is one. -/
def setSignature (s : ScopeId) (name : Ident) (t? : Option Ty) (ctx : Context) : Context :=
  match t? with
  | some t => ctx.setType s name.name t
  | none => ctx

/-- Resolves the signature of a function and yields the scope of its body, if it has one. -/
def resolveHead (m : Module) (s : ScopeId) (name : Ident) (params : List Param)
    (ret : Option TypeExpr) (ctx : Context) : Option ScopeId × Context :=
  match ctx.scopes.declaredMembers? s name with
  | none => (none, ctx)
  | some body =>
    let (t?, ctx) := ctx.resolveSignature m s body params ret
    (some body, ctx.setSignature s name t?)

/--
Resolves the receiver and the signature of a method and yields the scope of its body, if it
has one. All types are as seen from the scope that the method is written in.
-/
def resolveMethodHead (m : Module) (s : ScopeId) (receiver : Param) (name : Ident)
    (params : List Param) (ret : Option TypeExpr) (ctx : Context) : Option ScopeId × Context :=
  match receiver.ty with
  | .named typeName =>
    match ctx.scopes.typeMembers? s typeName.name with
    | none => (none, ctx)
    | some members =>
      match ctx.scopes.declaredMembers? members name with
      | none => (none, ctx)
      | some body =>
        let ctx :=
          match ctx.denoteIn m s receiver.ty with
          | (some t, ctx) => ctx.setDeclaredType body receiver.name t
          | (none, ctx) => ctx
        let (t?, ctx) := ctx.resolveSignature m s body params ret
        (some body, ctx.setSignature members name t?)
  | _ => (none, ctx)

/-! ### Names and counts -/

/-- Reports a name that no scope in reach declares. -/
def resolveName (m : Module) (s : ScopeId) (name : Ident) (ctx : Context) : Context :=
  if (ctx.scopes.visible? s name.name).isSome then ctx
  else ctx.reportIn m .resolving name.span ("undefined symbol: " ++ name.name)

/-- Reports a qualified name whose qualifier is no alias, or that its module does not declare. -/
def resolveQualified (m : Module) (s : ScopeId) (module name : Ident) (ctx : Context) : Context :=
  match ctx.scopes.importedRoot s module.name with
  | .error e => ctx.reportIn m .resolving module.span e.message
  | .ok root =>
    if (ctx.scopes.symbol? root name.name).isSome then ctx
    else
      ctx.reportIn m .resolving name.span
        ("symbol '" ++ name.name ++ "' not found in module '" ++ module.name ++ "'")

/-- Reports an assignment or declaration whose sides have different lengths. -/
def resolveArity (m : Module) (span : Span) (targets values : Nat) (ctx : Context) : Context :=
  if targets = values then ctx
  else
    ctx.reportIn m .resolving span
      ("assignment mismatch: " ++ toString targets ++ " variables but " ++ toString values ++
        " values")

/-! ### The pass -/

/-- Resolution gives types to declared names, and reports names that mean nothing. -/
def resolver (m : Module) : Visitor Context where
  importing := nextModule .resolved
  function := resolveHead m
  method := resolveMethodHead m
  typeDecl := resolveTypeDecl m
  declaring s _ targets values span ctx :=
    let ctx := ctx.resolveTargets m s targets
    if values.isEmpty then ctx else ctx.resolveArity m span targets.length values.length
  declared _ _ _ ctx := ctx
  assigning targets values span := resolveArity m span targets.length values.length
  name := resolveName m
  qualified := resolveQualified m

/-- Resolution leads every module from collected to resolved. -/
def resolution : Traversal Context := traversal .resolved .resolving "resolution" resolver

/-- Resolves the module under a key and all modules that it imports. -/
def resolve (key : String) (ctx : Context) : Context := traverse resolution key ctx

end Sable.Context
