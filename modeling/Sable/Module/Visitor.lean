import Sable.Symbol

/-!
# Visitors

Every pass walks the statements of a module in the same way: in order, into blocks and
conditions in the scope around them, and into the body of a function in the scope that the
pass finds for it. A visitor says what a pass does at each place on that walk.
-/

namespace Sable

/-- What a pass does at the places of a program, each seen from the scope it stands in. -/
structure Visitor (σ : Type) where
  /-- At an import; yields the key of a module that the pass has to turn to next. -/
  importing : ScopeId → Import → σ → Option String × σ
  /-- At the name, parameters and result of a function; yields the scope of its body. -/
  function : ScopeId → Ident → List Param → Option TypeExpr → σ → Option ScopeId × σ
  /-- At the receiver and the head of a method; yields the scope of its body. -/
  method : ScopeId → Param → Ident → List Param → Option TypeExpr → σ → Option ScopeId × σ
  /-- At a declared type. -/
  typeDecl : ScopeId → TypeDecl → σ → σ
  /-- In front of the values of a declaration of variables or constants. -/
  declaring : ScopeId → Bool → List VarBinder → List Expr → Span → σ → σ
  /-- Behind the values of a declaration of variables or constants. -/
  declared : ScopeId → List VarBinder → List Expr → σ → σ
  /-- In front of the sides of an assignment. -/
  assigning : List Expr → List Expr → Span → σ → σ
  /-- At a name. -/
  name : ScopeId → Ident → σ → σ
  /-- At a name with a qualifier in front of it. -/
  qualified : ScopeId → Ident → Ident → σ → σ

namespace Visitor

variable {σ : Type} (v : Visitor σ) (turnTo : String → σ → σ)

/-- Visits an import, and turns to the module that comes out, if any. -/
def walkImport (s : ScopeId) (i : Import) (c : σ) : σ :=
  match v.importing s i c with
  | (some key, c) => turnTo key c
  | (none, c) => c

mutual

/-- Walks an expression. -/
def walkExpr (s : ScopeId) : Expr → σ → σ
  | .literal _ _, c => c
  | .ident name, c => v.name s name c
  | .qualified module name _, c => v.qualified s module name c
  | .binary _ left right _, c => walkExpr s right (walkExpr s left c)
  | .unary _ operand _, c => walkExpr s operand c
  | .call callee args _, c => walkExprs s args (walkExpr s callee c)
  | .field object _ _, c => walkExpr s object c
  | .index object index _, c => walkExpr s index (walkExpr s object c)
  | .array elements _, c => walkExprs s elements c
  | .function f, c => walkFunction s f c

/-- Walks expressions from left to right. -/
def walkExprs (s : ScopeId) : List Expr → σ → σ
  | [], c => c
  | e :: es, c => walkExprs s es (walkExpr s e c)

/-- Walks a function: its head, and its body if there is a scope for it. -/
def walkFunction (s : ScopeId) : FunctionDef → σ → σ
  | .mk name params ret body _, c =>
    match v.function s name params ret c with
    | (none, c) => c
    | (some inner, c) => walkBlock inner body c

/-- Walks a method: its head, and its body if there is a scope for it. -/
def walkMethod (s : ScopeId) (receiver : Param) : FunctionDef → σ → σ
  | .mk name params ret body _, c =>
    match v.method s receiver name params ret c with
    | (none, c) => c
    | (some inner, c) => walkBlock inner body c

/-- Walks the statements of a block in the scope around it. -/
def walkBlock (s : ScopeId) : Block → σ → σ
  | .mk stmts _, c => walkStmts s stmts c

/-- Walks a condition with all that follows its `else`. -/
def walkConditional (s : ScopeId) : Conditional → σ → σ
  | .mk cond body otherwise _, c =>
    walkAlternative s otherwise (walkBlock s body (walkExpr s cond c))

/-- Walks what follows the body of a condition. -/
def walkAlternative (s : ScopeId) : Alternative → σ → σ
  | .nothing, c => c
  | .block body, c => walkBlock s body c
  | .conditional next, c => walkConditional s next c

/-- Walks a statement. -/
def walkStmt (s : ScopeId) : Stmt → σ → σ
  | .importing i, c => v.walkImport turnTo s i c
  | .function f, c => walkFunction s f c
  | .method receiver f, c => walkMethod s receiver f c
  | .varDecl isConst targets values span, c =>
    v.declared s targets values
      (walkExprs s values (v.declaring s isConst targets values span c))
  | .typeDecl d, c => v.typeDecl s d c
  | .assign targets values span, c =>
    walkExprs s values (walkExprs s targets (v.assigning targets values span c))
  | .conditional cond, c => walkConditional s cond c
  | .ret none _, c => c
  | .ret (some e) _, c => walkExpr s e c
  | .block b, c => walkBlock s b c
  | .expr e, c => walkExpr s e c

/-- Walks statements in order. -/
def walkStmts (s : ScopeId) : List Stmt → σ → σ
  | [], c => c
  | stmt :: stmts, c => walkStmts s stmts (walkStmt s stmt c)

end

end Visitor

end Sable
