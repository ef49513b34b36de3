import Sable.Context.Traversal

/-!
# Checking types

The third pass gives every variable without a written type the type of its initial value, and
reports an initial value that does not fit the type of its variable. Only literals and names
have a type of their own; all other expressions are let pass. An imported module is checked
before the statement behind its import.
-/

namespace Sable

/-- The type of a written value. -/
def Literal.ty : Literal → Ty
  | int _ => .prim .i32
  | float _ => .prim .f64
  | string _ => .prim .str
  | bool _ => .prim .bool

namespace Context

/-! ### Initial values -/

/-- The type of an expression as seen from a scope, as far as it is known. -/
def infer (F : ScopeForest) (s : ScopeId) : Expr → Option Ty
  | .literal value _ => some value.ty
  | .ident name => (F.visible? s name.name).bind Symbol.ty?
  | .qualified module name _ =>
    match F.importedRoot s module.name with
    | .ok root => (F.symbol? root name.name).bind Symbol.ty?
    | .error _ => none
  | .function f => (F.symbol? s f.name.name).bind Symbol.ty?
  | _ => none

/-- The wording of a value that does not fit its variable. -/
def mismatchMessage (value : Ty) (name : String) (expected : Ty) : String :=
  "cannot assign value of type '" ++ value.text ++ "' to variable '" ++ name ++ "' of type '" ++
    expected.text ++ "'"

/--
Checks the initial value of one variable. A variable without a type takes that of the value,
unless a type is written behind its name that means nothing.
-/
def checkTarget (m : Module) (s : ScopeId) (target : VarBinder) (value : Expr) (ctx : Context) :
    Context :=
  if ctx.scopes.binds s target.name then
    match infer ctx.scopes s value with
    | none => ctx
    | some t =>
      match (ctx.scopes.symbol? s target.name.name).bind Symbol.ty? with
      | none => if target.ty?.isNone then ctx.setType s target.name.name t else ctx
      | some expected =>
        if expected.accepts t then ctx
        else
          ctx.reportIn m .typechecking value.span
            (mismatchMessage t target.name.name expected)
  else ctx

/-- Checks the initial values of variables, as far as both lists go. -/
def checkTargets (m : Module) (s : ScopeId) (targets : List VarBinder) (values : List Expr)
    (ctx : Context) : Context :=
  (targets.zip values).foldl (fun ctx (target, value) => ctx.checkTarget m s target value) ctx

/-- The scope that the name of a method is declared in, as seen from the scope around it. -/
def methodScope (F : ScopeForest) (s : ScopeId) (receiver : Param) : Option ScopeId :=
  match receiver.ty with
  | .named name => F.typeMembers? s name.name
  | _ => none

/-! ### The pass -/

/-- Checking looks at the initial values of variables, wherever they are declared. -/
def checker (m : Module) : Visitor Context where
  importing := nextModule .typechecked
  function s name _ _ ctx := (ctx.scopes.declaredMembers? s name, ctx)
  method s receiver name _ _ ctx :=
    ((methodScope ctx.scopes s receiver).bind fun members =>
      ctx.scopes.declaredMembers? members name, ctx)
  typeDecl _ _ ctx := ctx
  declaring _ _ _ _ _ ctx := ctx
  declared := checkTargets m
  assigning _ _ _ ctx := ctx
  name _ _ ctx := ctx
  qualified _ _ _ ctx := ctx

/-- Checking leads every module from resolved to typechecked. -/
def typing : Traversal Context := traversal .typechecked .typechecking "type checking" checker

/-- Checks the module under a key and all modules that it imports. -/
def check (key : String) (ctx : Context) : Context := traverse typing key ctx

end Context

end Sable
